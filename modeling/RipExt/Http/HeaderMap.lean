import RipExt.Http.HeaderLines
import RipExt.Http.Perform
import RipExt.Json.Integers

/-! The header map of a response as a plugin sees it: a name in any spelling has the value of the
last line that was delivered for it. -/
namespace RipExt.Http
open Json (Host Outcome)

section Delivery

/-- The copy of the callback in `httprequestcontext.cpp`. -/
def HTTPRequestContext.receiveResponseHeader : HTTPResponse → Bytes → Option (ℕ × HTTPResponse) :=
  Http.receiveResponseHeader

/-- The copy of the callback in `httpformcontext.cpp`. -/
def HTTPFormContext.receiveResponseHeader : HTTPResponse → Bytes → Option (ℕ × HTTPResponse) :=
  Http.receiveResponseHeader

/-- curl's calls of a copy of the callback, in the order of the lines. -/
def deliver (receive : HTTPResponse → Bytes → Option (ℕ × HTTPResponse)) (response : HTTPResponse)
    (lines : List Bytes) : Option HTTPResponse :=
  lines.foldlM (fun response line => (receive response line).map (·.2)) response

/-- A line within curl's limit: a field, or a line without a colon that a space follows. -/
inductive DeliveredLine where
  | field (name value : Bytes) (name_ok : ∀ b ∈ name, b ∉ [0, 10, 13, 58])
      (value_ok : ∀ b ∈ value, b ∉ [0, 10, 13])
      (short : (name ++ 58 :: 32 :: value ++ [13, 10]).length ≤ curlMaxHttpHeader - 1)
  | other (text : Bytes) (long : 2 ≤ text.length) (plain : ¬[58, 32] <:+: text)
      (short : text.length ≤ curlMaxHttpHeader - 1)

def DeliveredLine.bytes : DeliveredLine → Bytes
  | .field name value _ _ _ => name ++ 58 :: 32 :: value ++ [13, 10]
  | .other text _ _ _ => text

def DeliveredLine.field? : DeliveredLine → Option (Bytes × Bytes)
  | .field name value _ _ _ => some (name, value)
  | .other _ _ _ _ => none

/-- The value of the last line whose name equals `query` up to ASCII case. -/
def lastNamed (lines : List DeliveredLine) (query : Bytes) : Option Bytes :=
  (((lines.filterMap DeliveredLine.field?).filter
    fun f => lowercase f.1 = lowercase query).getLast?).map (·.2)

/-- `GetResponseHeader` for a response that the handle has been read to. -/
def getHeader (E : Host) (response : HTTPResponse) (name : Bytes) (maxlength : ℕ) : Outcome :=
  match getResponseHeader response name with
  | none => .cell 0
  | some value => .text (E.stringToLocalUTF8 maxlength value)

/-- Every call takes the whole line and stays in its buffer. After all of them a lookup answers
with the value of the last line that has the name, and with 0 if there is none. -/
structure HeaderMapRight (receive : HTTPResponse → Bytes → Option (ℕ × HTTPResponse)) (E : Host)
    (lines : List DeliveredLine) : Prop where
  taken : ∀ l ∈ lines, ∀ response, ∃ r, receive response l.bytes = some (l.bytes.length, r)
  buffered : ∀ l ∈ lines, (headerBuffer l.bytes).length + 1 ≤ curlMaxHttpHeader
  lookup : ∃ r, deliver receive ⟨0, []⟩ (lines.map DeliveredLine.bytes) = some r ∧
    ∀ query maxlength, (∀ value ∈ lastNamed lines query, value.length < maxlength) →
      getHeader E r query maxlength = ((lastNamed lines query).map .text).getD (.cell 0)
  found : ∀ query, (lastNamed lines query).isSome ↔
    ∃ l ∈ lines, ∃ name value, l.field? = some (name, value) ∧ lowercase name = lowercase query

end Delivery

section Lines
variable {l : DeliveredLine} {lines : List DeliveredLine} {query text name value : Bytes}

theorem DeliveredLine.bytes_length_le (l : DeliveredLine) : l.bytes.length ≤ curlMaxHttpHeader := by
  cases l with
  | field name value name_ok value_ok short => exact short.trans (Nat.sub_le _ _)
  | other text long plain short => exact short.trans (Nat.sub_le _ _)

theorem headerBuffer_isPrefix (line : Bytes) : headerBuffer line <+: line :=
  (List.take_prefix _ _).trans (List.takeWhile_prefix _)

/-- A line without the separator is not read as a field. -/
theorem readField_of_plain (h : ¬[58, 32] <:+: text) : readField text = none := by
  rw [readField, Option.map_eq_none_iff, Option.eq_none_iff_forall_ne_some]
  rintro ⟨before, after⟩ hfound
  refine h (List.IsInfix.trans ⟨before, after, ?_⟩ (headerBuffer_isPrefix text).isInfix)
  rw [strstrColon_some hfound]
  simp

theorem readField_of_field (hname : ∀ b ∈ name, b ∉ [0, 10, 13, 58])
    (hvalue : ∀ b ∈ value, b ∉ [0, 10, 13])
    (hshort : (name ++ 58 :: 32 :: value ++ [13, 10]).length ≤ curlMaxHttpHeader) :
    readField (name ++ 58 :: 32 :: value ++ [13, 10]) = some (lowercase name, value) := by
  have hcolon : ∀ b ∈ name, b ≠ 58 := fun b hb h => hname b hb (by simp [h])
  have hzero : ∀ b ∈ name ++ 58 :: 32 :: value, b ≠ 0 := by
    intro b hb
    simp only [List.mem_append, List.mem_cons] at hb
    rcases hb with hb | rfl | rfl | hb
    · exact fun h => hname b hb (by simp [h])
    · decide
    · decide
    · exact fun h => hvalue b hb (by simp [h])
  rw [readField, headerBuffer_crlf hzero hshort, strstrColon_append hcolon]
  rfl

/-- The callback reads every line as what it says. -/
theorem readsAs_bytes (l : DeliveredLine) (query : Bytes) : readsAs query l.bytes =
    l.field?.bind fun f => if lowercase f.1 = lowercase query then some f.2 else none := by
  cases l with
  | field name value name_ok value_ok short =>
    have hread := readField_of_field name_ok value_ok (short.trans (Nat.sub_le _ _))
    rw [readsAs, DeliveredLine.bytes, hread]
    rfl
  | other text long plain short =>
    rw [readsAs, DeliveredLine.bytes, readField_of_plain plain]
    rfl

theorem lastRead_bytes (lines : List DeliveredLine) (query : Bytes) :
    lastRead query (lines.map DeliveredLine.bytes) = lastNamed lines query := by
  induction lines using List.reverseRecOn with
  | nil => rfl
  | append_singleton lines l ih =>
    have hlast : lastNamed (lines ++ [l]) query =
        (readsAs query l.bytes).or (lastNamed lines query) := by
      rw [readsAs_bytes]
      unfold lastNamed
      rw [List.filterMap_append, List.filter_append, List.getLast?_append, Option.map_or]
      congr 1
      cases hf : l.field? with
      | none => rw [List.filterMap_cons_none hf]; rfl
      | some f =>
        rw [List.filterMap_cons_some hf, List.filterMap_nil, List.filter_singleton]
        by_cases h : lowercase f.1 = lowercase query <;> simp [h]
    have hnil : lastRead query [] = none := rfl
    have hline : lastRead query [l.bytes] = readsAs query l.bytes := by
      rw [lastRead_cons, hnil, Option.none_or]
    rw [List.map_append, lastRead_append, ih, hlast, List.map_singleton, hline]

theorem lastNamed_isSome_iff : (lastNamed lines query).isSome ↔
    ∃ l ∈ lines, ∃ name value, l.field? = some (name, value) ∧ lowercase name = lowercase query := by
  unfold lastNamed
  rw [Option.isSome_map, List.getLast?_isSome, ne_eq, List.filter_eq_nil_iff]
  simp only [List.mem_filterMap, decide_eq_true_eq, Prod.forall, not_forall, not_not]
  constructor
  · rintro ⟨name, value, ⟨l, hl, hf⟩, hname⟩
    exact ⟨l, hl, name, value, hf, hname⟩
  · rintro ⟨l, hl, name, value, hf, hname⟩
    exact ⟨name, value, ⟨l, hl, hf⟩, hname⟩

theorem headerMapRight_of_copies {E : Host} (hcopies : E.CopiesWhole) (lines : List DeliveredLine) :
    HeaderMapRight receiveResponseHeader E lines := by
  have hshort : ∀ b ∈ lines.map DeliveredLine.bytes, b.length ≤ curlMaxHttpHeader := by
    intro b hb
    obtain ⟨l, -, rfl⟩ := List.mem_map.mp hb
    exact l.bytes_length_le
  refine ⟨fun l _ response => ?_, fun l _ => headerBuffer_length _ l.bytes_length_le, ?_,
    fun query => lastNamed_isSome_iff⟩
  · obtain ⟨r, hr, -⟩ := receiveResponseHeader_find response l.bytes_length_le
    exact ⟨r, hr⟩
  · obtain ⟨r, hr, -, hfind⟩ := receiveLines_find hshort ⟨0, []⟩
    refine ⟨r, hr, fun query maxlength hlarge => ?_⟩
    have hget : getResponseHeader r query = lastNamed lines query := by
      rw [hfind query, lastRead_bytes]
      exact Option.or_none
    rw [getHeader, hget]
    cases hlast : lastNamed lines query with
    | none => rfl
    | some value =>
      show Outcome.text _ = Outcome.text value
      rw [hcopies maxlength value (hlarge value hlast)]

end Lines

/-- For all lines and all queries, a lookup after the transfer finds the last line with the name.
The copy of the form context does the same as that of the request context. -/
theorem lookups_find_last_line (E : Host) (hcopies : E.CopiesWhole) (lines : List DeliveredLine) :
    HeaderMapRight HTTPRequestContext.receiveResponseHeader E lines ∧
      HeaderMapRight HTTPFormContext.receiveResponseHeader E lines ∧
      ∀ response line, HTTPFormContext.receiveResponseHeader response line =
        HTTPRequestContext.receiveResponseHeader response line :=
  ⟨headerMapRight_of_copies hcopies lines, headerMapRight_of_copies hcopies lines,
    fun _ _ => rfl⟩

theorem avoids_of_all {text avoided : Bytes} (h : text.all (fun b => !avoided.contains b) = true) :
    ∀ b ∈ text, b ∉ avoided := by
  simpa using h

/-- A status line, two lines for one name in two spellings, and the blank line. -/
def deliveredLines : List DeliveredLine :=
  [.other (ascii "HTTP/1.1 200 OK\r\n") (by decide) (by decide) (by decide),
    .field (ascii "X-Id") (ascii "a: 1") (avoids_of_all rfl) (avoids_of_all rfl) (by decide),
    .field (ascii "x-iD") (ascii "2") (avoids_of_all rfl) (avoids_of_all rfl) (by decide),
    .other (ascii "\r\n") (by decide) (by decide) (by decide)]

theorem deliveredLines_lookup :
    Json.plainHost.CopiesWhole ∧ lastNamed deliveredLines (ascii "X-ID") = some (ascii "2") ∧
      HeaderMapRight HTTPRequestContext.receiveResponseHeader Json.plainHost deliveredLines :=
  ⟨Json.plainHost_copiesWhole, by decide,
    (lookups_find_last_line Json.plainHost Json.plainHost_copiesWhole deliveredLines).1⟩

end RipExt.Http
