import Mathlib.Data.List.TakeWhile
import Mathlib.Tactic

/-! The response headers of a request. curl hands every line of every response of a transfer
to `ReceiveResponseHeader`, which both `httprequestcontext.cpp` and `httpformcontext.cpp` hold
a copy of; the fields are kept in one map for the whole transfer. -/
namespace RipExt.Http

/-- A C string, without its terminating zero. -/
abbrev Bytes := List UInt8

section Callback

/-- `CURL_MAX_HTTP_HEADER`. -/
def curlMaxHttpHeader : ℕ := 100 * 1024

/-- `tolower` in the C locale. -/
def tolower (c : UInt8) : UInt8 := if 65 ≤ c ∧ c ≤ 90 then c + 32 else c

def lowercase (name : Bytes) : Bytes := name.map tolower

/-- `StringHashMap<std::string>`. -/
abbrev HTTPHeaderMap := List (Bytes × Bytes)

def HTTPHeaderMap.replace (headers : HTTPHeaderMap) (name value : Bytes) : HTTPHeaderMap :=
  (name, value) :: headers.filter fun h => h.1 ≠ name

def HTTPHeaderMap.find (headers : HTTPHeaderMap) (name : Bytes) : Option Bytes :=
  (headers.find? fun h => h.1 = name).map (·.2)

/-- The part of `HTTPResponse` that the header natives read. -/
structure HTTPResponse where
  status : ℕ
  headers : HTTPHeaderMap
  deriving DecidableEq, Repr

/-- `strncat` onto an empty buffer, from a text that is followed by a zero. -/
def strncat (text : Bytes) (n : ℕ) : Bytes := (text.takeWhile (· ≠ 0)).take n

/-- `strstr(header, ": ")`: what stands before the first match, and what stands after it. -/
def strstrColon : Bytes → Option (Bytes × Bytes)
  | [] => none
  | b :: rest =>
    if b = 58 ∧ rest.head? = some 32 then some ([], rest.tail)
    else (strstrColon rest).map fun r => (b :: r.1, r.2)

/-- The local buffer of the callback; `total - 2` is a `size_t`. -/
def headerBuffer (line : Bytes) : Bytes := strncat line ((line.length + 2 ^ 64 - 2) % 2 ^ 64)

/-- The field that the callback reads in a line. -/
def readField (line : Bytes) : Option (Bytes × Bytes) :=
  (strstrColon (headerBuffer line)).map fun r => (lowercase r.1, r.2)

/-- `ReceiveResponseHeader`: the number of bytes it took and the response it leaves. There is
no result if it would write past its buffer. -/
def receiveResponseHeader (response : HTTPResponse) (line : Bytes) : Option (ℕ × HTTPResponse) :=
  if curlMaxHttpHeader < (headerBuffer line).length + 1 then none
  else
    match readField line with
    | none => some (line.length, response)
    | some (name, value) =>
      some (line.length, { response with headers := response.headers.replace name value })

/-- curl's calls of the callback, in the order of the lines. -/
def receiveLines (response : HTTPResponse) (lines : List Bytes) : Option HTTPResponse :=
  lines.foldlM (fun response line => (receiveResponseHeader response line).map (·.2)) response

/-- `GetResponseHeader`: the text that is copied to the plugin's buffer, if it returns 1. -/
def getResponseHeader (response : HTTPResponse) (name : Bytes) : Option Bytes :=
  response.headers.find (lowercase name)

def getResponseStatus (response : HTTPResponse) : ℕ := response.status

end Callback

section Responses

def eol (crlf : Bool) : Bytes := if crlf then [13, 10] else [10]

def IsBlank (b : UInt8) : Prop := b = 32 ∨ b = 9

instance (b : UInt8) : Decidable (IsBlank b) := inferInstanceAs (Decidable (b = 32 ∨ b = 9))

/-- A field of a response as it is on the wire: the name, a colon, optional blanks, the value,
optional blanks, and the end of the line. -/
structure Field where
  name : Bytes
  before : Bytes
  value : Bytes
  after : Bytes
  crlf : Bool
  name_ok : name ≠ [] ∧ ∀ b ∈ name, b ∉ [0, 9, 10, 13, 32, 58]
  before_ok : ∀ b ∈ before, IsBlank b
  value_ok : ∀ b ∈ value, b ∉ [0, 10, 13]
  value_trimmed : (∀ b ∈ value.head?, ¬IsBlank b) ∧ ∀ b ∈ value.getLast?, ¬IsBlank b
  after_ok : ∀ b ∈ after, IsBlank b

def Field.line (f : Field) : Bytes := f.name ++ 58 :: f.before ++ f.value ++ f.after ++ eol f.crlf

/-- Names are compared without regard to ASCII case. -/
def Field.Named (f : Field) (name : Bytes) : Prop := lowercase f.name = lowercase name

instance (f : Field) (name : Bytes) : Decidable (f.Named name) :=
  inferInstanceAs (Decidable (lowercase f.name = lowercase name))

def responseLines (statusLine : Bytes) (statusCrlf : Bool) (fields : List Field)
    (blankCrlf : Bool) : List Bytes :=
  (statusLine ++ eol statusCrlf) :: fields.map Field.line ++ [eol blankCrlf]

/-- One response of a transfer: its status line, its fields and a blank line. No line exceeds
curl's limit. -/
structure Response where
  code : ℕ
  statusLine : Bytes
  statusCrlf : Bool
  fields : List Field
  blankCrlf : Bool
  statusLine_ok : ∀ b ∈ statusLine, b ∉ [0, 10, 13]
  short : ∀ l ∈ responseLines statusLine statusCrlf fields blankCrlf,
    l.length ≤ curlMaxHttpHeader

def Response.lines (r : Response) : List Bytes :=
  responseLines r.statusLine r.statusCrlf r.fields r.blankCrlf

/-- The value of a field of a response; the last one if there are several. -/
def Response.field (r : Response) (name : Bytes) : Option Bytes :=
  ((r.fields.filter (·.Named name)).getLast?).map (·.value)

/-- A whole transfer: the lines of all responses go to one `HTTPResponse`, and `OnCompleted`
asks curl for the code of the last one. -/
def transfer (earlier : List Response) (final : Response) : Option HTTPResponse :=
  (receiveLines ⟨0, []⟩ (earlier.flatMap Response.lines ++ final.lines)).map fun r =>
    { r with status := final.code }

/-- The header natives report the final response. -/
def ReportsFinal (earlier : List Response) (final : Response) (name : Bytes) : Prop :=
  ∃ r, transfer earlier final = some r ∧ getResponseHeader r name = final.field name ∧
    getResponseStatus r = final.code

end Responses

theorem Response.field_isSome_iff (r : Response) {name : Bytes} :
    (r.field name).isSome ↔ ∃ f ∈ r.fields, f.Named name := by
  unfold Response.field
  rw [Option.isSome_map, List.getLast?_isSome, ne_eq, List.filter_eq_nil_iff]
  simp

section Reading
variable {headers : HTTPHeaderMap} {name : Bytes}

/-- The value that a line gives a name. -/
def readsAs (name line : Bytes) : Option Bytes :=
  (readField line).bind fun f => if f.1 = lowercase name then some f.2 else none

/-- The value that the last of the lines which are read as `name` gives it. -/
def lastRead (name : Bytes) (lines : List Bytes) : Option Bytes :=
  (lines.filterMap (readsAs name)).getLast?

theorem find_replace (headers : HTTPHeaderMap) (key name value : Bytes) :
    (headers.replace key value).find name =
      if key = name then some value else headers.find name := by
  unfold HTTPHeaderMap.replace HTTPHeaderMap.find
  by_cases h : key = name
  · simp [h]
  · rw [List.find?_cons_of_neg (by simpa using h), if_neg h, List.find?_filter]
    congr 2
    funext x
    by_cases hx : x.1 = name
    · simp [hx, Ne.symm h]
    · simp [hx]

theorem lastRead_cons (name line : Bytes) (lines : List Bytes) :
    lastRead name (line :: lines) = (lastRead name lines).or (readsAs name line) := by
  unfold lastRead
  cases h : readsAs name line with
  | none => simp [h]
  | some value => simp [h, List.getLast?_cons, Option.or_some]

theorem lastRead_append (name : Bytes) (lines lines' : List Bytes) :
    lastRead name (lines ++ lines') = (lastRead name lines').or (lastRead name lines) := by
  unfold lastRead
  rw [List.filterMap_append, List.getLast?_append]

theorem headerBuffer_length (line : Bytes) (h : line.length ≤ curlMaxHttpHeader) :
    (headerBuffer line).length + 1 ≤ curlMaxHttpHeader := by
  have htake : (line.takeWhile (· ≠ 0)).length ≤ line.length :=
    (List.takeWhile_sublist _).length_le
  simp only [headerBuffer, strncat, List.length_take, curlMaxHttpHeader] at *
  by_cases hlen : line.length < 2
  · omega
  · have hsub : (line.length + 2 ^ 64 - 2) % 2 ^ 64 = line.length - 2 := by omega
    omega

theorem receiveResponseHeader_find (response : HTTPResponse) {line : Bytes}
    (h : line.length ≤ curlMaxHttpHeader) :
    ∃ r, receiveResponseHeader response line = some (line.length, r) ∧
      r.status = response.status ∧ ∀ name, getResponseHeader r name =
        (readsAs name line).or (getResponseHeader response name) := by
  have hfits : ¬curlMaxHttpHeader < (headerBuffer line).length + 1 :=
    Nat.not_lt.mpr (headerBuffer_length line h)
  unfold receiveResponseHeader
  rw [if_neg hfits]
  cases hread : readField line with
  | none => exact ⟨response, rfl, rfl, fun name => by simp [readsAs, hread]⟩
  | some f =>
    refine ⟨_, rfl, rfl, fun name => ?_⟩
    simp only [getResponseHeader, find_replace, readsAs, hread, Option.bind_some]
    split_ifs <;> simp

/-- After any lines, a name is found with the value of the last line that was read as it. -/
theorem receiveLines_find {lines : List Bytes}
    (hshort : ∀ l ∈ lines, l.length ≤ curlMaxHttpHeader) (response : HTTPResponse) :
    ∃ r, receiveLines response lines = some r ∧ r.status = response.status ∧
      ∀ name, getResponseHeader r name =
        (lastRead name lines).or (getResponseHeader response name) := by
  induction lines generalizing response with
  | nil => exact ⟨response, rfl, rfl, fun name => by simp [lastRead]⟩
  | cons line lines ih =>
    obtain ⟨r₁, hr₁, hstatus₁, hfind₁⟩ :=
      receiveResponseHeader_find response (hshort line (List.mem_cons_self ..))
    obtain ⟨r, hr, hstatus, hfind⟩ := ih (fun l hl => hshort l (List.mem_cons_of_mem _ hl)) r₁
    refine ⟨r, ?_, hstatus.trans hstatus₁, fun name => ?_⟩
    · simp only [receiveLines, List.foldlM_cons, hr₁, Option.map_some, Option.bind_eq_bind,
        Option.bind_some]
      exact hr
    · rw [hfind, hfind₁, lastRead_cons, Option.or_assoc]

end Reading

section Final
variable {earlier : List Response} {final : Response} {name : Bytes}

/-- The natives after a transfer: the last line of the final response that is read as the
name decides, and an earlier response if there is none. -/
theorem transfer_find (earlier : List Response) (final : Response) :
    ∃ r, transfer earlier final = some r ∧ getResponseStatus r = final.code ∧
      ∀ name, getResponseHeader r name =
        (lastRead name final.lines).or (lastRead name (earlier.flatMap Response.lines)) := by
  have hshort : ∀ l ∈ earlier.flatMap Response.lines ++ final.lines,
      l.length ≤ curlMaxHttpHeader := by
    intro l hl
    rcases List.mem_append.mp hl with hl | hl
    · obtain ⟨r, -, hr⟩ := List.mem_flatMap.mp hl
      exact r.short l hr
    · exact final.short l hl
  obtain ⟨r, hr, -, hfind⟩ := receiveLines_find hshort ⟨0, []⟩
  refine ⟨{ r with status := final.code }, by simp [transfer, hr], rfl, fun name => ?_⟩
  have hnone : getResponseHeader ⟨0, []⟩ name = none := rfl
  rw [← lastRead_append, ← Option.or_none (o := lastRead name _), ← hnone, ← hfind name]
  rfl

theorem reportsFinal_iff_or : ReportsFinal earlier final name ↔
    (lastRead name final.lines).or (lastRead name (earlier.flatMap Response.lines)) =
      final.field name := by
  obtain ⟨r, hr, hstatus, hfind⟩ := transfer_find earlier final
  constructor
  · rintro ⟨r', hr', hget, -⟩
    obtain rfl := Option.some.inj (hr.symm.trans hr')
    rw [← hfind name, hget]
  · intro h
    exact ⟨r, hr, (hfind name).trans h, hstatus⟩

end Final

section Plain
variable {name : Bytes}

/-- A field line as most servers write it: one space after the colon and a full line end. -/
def Field.Plain (f : Field) : Prop := f.before = [32] ∧ f.after = [] ∧ f.crlf = true

/-- A response of plain lines; the status line holds no colon followed by a space. -/
def Response.Plain (r : Response) : Prop :=
  r.statusCrlf = true ∧ strstrColon r.statusLine = none ∧ ∀ f ∈ r.fields, f.Plain

/-- Stripping the line end from a full line. -/
theorem headerBuffer_crlf {text : Bytes} (h : ∀ b ∈ text, b ≠ 0)
    (hshort : (text ++ [13, 10]).length ≤ curlMaxHttpHeader) :
    headerBuffer (text ++ [13, 10]) = text := by
  have hwhole : (text ++ [13, 10]).takeWhile (· ≠ 0) = text ++ [13, 10] := by
    rw [List.takeWhile_eq_self_iff]
    intro b hb
    rcases List.mem_append.mp hb with hb | hb
    · simpa using h b hb
    · simp only [List.mem_cons, List.not_mem_nil, or_false] at hb
      rcases hb with rfl | rfl <;> rfl
  have hsub : ((text ++ [13, 10]).length + 2 ^ 64 - 2) % 2 ^ 64 = text.length := by
    simp only [curlMaxHttpHeader, List.length_append, List.length_cons, List.length_nil] at *
    omega
  rw [headerBuffer, strncat, hwhole, hsub, List.take_left]

theorem strstrColon_append {value : Bytes} (h : ∀ b ∈ name, b ≠ 58) :
    strstrColon (name ++ 58 :: 32 :: value) = some (name, value) := by
  induction name with
  | nil => simp [strstrColon]
  | cons b name ih =>
    have hb : b ≠ 58 := h b (List.mem_cons_self ..)
    rw [List.cons_append, strstrColon, if_neg fun hc => hb hc.1,
      ih fun c hc => h c (List.mem_cons_of_mem _ hc)]
    rfl

/-- The callback reads a plain field line as what it says. -/
theorem readsAs_line {f : Field} (hf : f.Plain) (hshort : f.line.length ≤ curlMaxHttpHeader) :
    readsAs name f.line = if f.Named name then some f.value else none := by
  obtain ⟨hbefore, hafter, hcrlf⟩ := hf
  have hline : f.line = (f.name ++ 58 :: 32 :: f.value) ++ [13, 10] := by
    simp [Field.line, hbefore, hafter, hcrlf, eol]
  have hzero : ∀ b ∈ f.name ++ 58 :: 32 :: f.value, b ≠ 0 := by
    intro b hb
    rcases List.mem_append.mp hb with hb | hb
    · exact fun h => f.name_ok.2 b hb (by simp [h])
    · rcases List.mem_cons.mp hb with rfl | hb
      · decide
      · rcases List.mem_cons.mp hb with rfl | hb
        · decide
        · exact fun h => f.value_ok b hb (by simp [h])
  have hcolon : ∀ b ∈ f.name, b ≠ 58 := fun b hb h => f.name_ok.2 b hb (by simp [h])
  rw [hline] at hshort ⊢
  simp only [readsAs, readField, headerBuffer_crlf hzero hshort, strstrColon_append hcolon,
    Option.map_some, Option.bind_some]
  by_cases hn : f.Named name
  · rw [if_pos hn]
    exact if_pos hn
  · rw [if_neg hn]
    exact if_neg hn

theorem readsAs_statusLine {r : Response} (hr : r.Plain) :
    readsAs name (r.statusLine ++ eol r.statusCrlf) = none := by
  have hshort := r.short _ (List.mem_cons_self ..)
  have hzero : ∀ b ∈ r.statusLine, b ≠ 0 := fun b hb h => r.statusLine_ok b hb (by simp [h])
  rw [hr.1] at hshort ⊢
  have heol : eol true = [13, 10] := rfl
  rw [heol] at hshort ⊢
  simp [readsAs, readField, headerBuffer_crlf hzero hshort, hr.2.1]

theorem readsAs_eol (crlf : Bool) : readsAs name (eol crlf) = none := by
  have hread : readField (eol crlf) = none := by
    cases crlf <;> decide
  simp [readsAs, hread]

theorem filterMap_fields {fields : List Field} (hf : ∀ f ∈ fields, f.Plain)
    (hshort : ∀ f ∈ fields, f.line.length ≤ curlMaxHttpHeader) :
    (fields.map Field.line).filterMap (readsAs name) =
      (fields.filter (·.Named name)).map (·.value) := by
  induction fields with
  | nil => rfl
  | cons f fields ih =>
    have hrest := ih (fun g hg => hf g (List.mem_cons_of_mem _ hg))
      fun g hg => hshort g (List.mem_cons_of_mem _ hg)
    have hline : readsAs name f.line = if f.Named name then some f.value else none :=
      readsAs_line (hf f (List.mem_cons_self ..)) (hshort f (List.mem_cons_self ..))
    rw [List.map_cons, List.filterMap_cons, hline, List.filter_cons]
    by_cases hn : f.Named name
    · simp [hn, hrest]
    · simp [hn, hrest]

/-- Taken alone, a response of plain lines is read right. -/
theorem lastRead_plain {r : Response} (hr : r.Plain) : lastRead name r.lines = r.field name := by
  have hshort : ∀ f ∈ r.fields, f.line.length ≤ curlMaxHttpHeader := by
    intro f hf
    apply r.short
    exact List.mem_cons_of_mem _ (List.mem_append_left _ (List.mem_map_of_mem hf))
  have heol : [eol r.blankCrlf].filterMap (readsAs name) = [] := by
    rw [List.filterMap_cons, readsAs_eol, List.filterMap_nil]
  have hlines : r.lines.filterMap (readsAs name) =
      (r.fields.map Field.line).filterMap (readsAs name) := by
    unfold Response.lines responseLines
    rw [List.cons_append, List.filterMap_cons, readsAs_statusLine hr, List.filterMap_append,
      heol, List.append_nil]
  rw [lastRead, hlines, filterMap_fields hr.2.2 hshort, List.getLast?_map]
  rfl

/-- Among responses of plain lines, a line is read as a name if some response has such a field. -/
theorem lastRead_isSome_plain {responses : List Response} (hr : ∀ r ∈ responses, r.Plain) :
    (lastRead name (responses.flatMap Response.lines)).isSome ↔
      ∃ r ∈ responses, ∃ f ∈ r.fields, f.Named name := by
  induction responses with
  | nil => simp [lastRead]
  | cons r responses ih =>
    have hrest := ih fun r' hr' => hr r' (List.mem_cons_of_mem _ hr')
    rw [List.flatMap_cons, lastRead_append, Option.isSome_or, Bool.or_eq_true, hrest,
      lastRead_plain (hr r (List.mem_cons_self ..)), r.field_isSome_iff, or_comm]
    simp

end Plain

/-- The natives report the final response if and only if the last of its lines that is read as
the name carries the value of its last field of that name, or none of its lines is read so and
the same holds of the responses before it, whose fields are still in the map. For a final
response of plain lines this means: whatever name an earlier response left in the map, the
final response has a field of that name too; and if the earlier responses are plain as well,
the names in the map are those of their fields. -/
theorem reportsFinal_iff_noStaleField (earlier : List Response) (final : Response)
    (name : Bytes) :
    (ReportsFinal earlier final name ↔
      (∃ value, lastRead name final.lines = some value ∧ final.field name = some value) ∨
      (lastRead name final.lines = none ∧
        lastRead name (earlier.flatMap Response.lines) = final.field name)) ∧
    (final.Plain → (ReportsFinal earlier final name ↔
      ((lastRead name (earlier.flatMap Response.lines)).isSome →
        ∃ f ∈ final.fields, f.Named name))) ∧
    (final.Plain → (∀ r ∈ earlier, r.Plain) → (ReportsFinal earlier final name ↔
      ((∃ r ∈ earlier, ∃ f ∈ r.fields, f.Named name) → ∃ f ∈ final.fields, f.Named name))) := by
  have hplain : final.Plain → (ReportsFinal earlier final name ↔
      ((lastRead name (earlier.flatMap Response.lines)).isSome →
        ∃ f ∈ final.fields, f.Named name)) := by
    intro hfinal
    rw [reportsFinal_iff_or, lastRead_plain hfinal, ← final.field_isSome_iff]
    cases final.field name with
    | none => cases lastRead name (earlier.flatMap Response.lines) <;> simp
    | some value => simp
  refine ⟨?_, hplain, fun hfinal hearlier => ?_⟩
  · rw [reportsFinal_iff_or]
    cases lastRead name final.lines with
    | none => simp
    | some value => simp [eq_comm]
  · rw [hplain hfinal, lastRead_isSome_plain hearlier]

section Redirect

def ascii (text : String) : Bytes := text.toList.map fun c => c.toNat.toUInt8

theorem forall_mem_of_all {p : UInt8 → Prop} [DecidablePred p] {text : Bytes}
    (h : text.all (fun b => decide (p b)) = true) : ∀ b ∈ text, p b := by
  simpa using h

/-- `Location: /x`. -/
def location : Field where
  name := ascii "Location"
  before := [32]
  value := ascii "/x"
  after := []
  crlf := true
  name_ok := ⟨by decide, forall_mem_of_all (by decide)⟩
  before_ok := forall_mem_of_all (by decide)
  value_ok := forall_mem_of_all (by decide)
  value_trimmed := ⟨by rintro _ ⟨⟩; decide, by rintro _ ⟨⟩; decide⟩
  after_ok := forall_mem_of_all (by decide)

/-- `Server: b`. -/
def server : Field where
  name := ascii "Server"
  before := [32]
  value := ascii "b"
  after := []
  crlf := true
  name_ok := ⟨by decide, forall_mem_of_all (by decide)⟩
  before_ok := forall_mem_of_all (by decide)
  value_ok := forall_mem_of_all (by decide)
  value_trimmed := ⟨by rintro _ ⟨⟩; decide, by rintro _ ⟨⟩; decide⟩
  after_ok := forall_mem_of_all (by decide)

def movedResponse : Response where
  code := 301
  statusLine := ascii "HTTP/1.1 301 Moved Permanently"
  statusCrlf := true
  fields := [server, location]
  blankCrlf := true
  statusLine_ok := forall_mem_of_all (by decide)
  short := by decide

def okResponse : Response where
  code := 200
  statusLine := ascii "HTTP/1.1 200 OK"
  statusCrlf := true
  fields := [server]
  blankCrlf := true
  statusLine_ok := forall_mem_of_all (by decide)
  short := by decide

/-- A field that both the redirect and the final response have. -/
theorem redirect_reportsFinal : movedResponse.Plain ∧ okResponse.Plain ∧
    ReportsFinal [movedResponse] okResponse (ascii "server") := by
  have hmoved : movedResponse.Plain := by
    refine ⟨rfl, by decide, ?_⟩
    intro f hf
    obtain rfl | rfl : f = server ∨ f = location := by simpa [movedResponse] using hf
    · exact ⟨rfl, rfl, rfl⟩
    · exact ⟨rfl, rfl, rfl⟩
  have hok : okResponse.Plain := by
    refine ⟨rfl, by decide, ?_⟩
    intro f hf
    obtain rfl : f = server := by simpa [okResponse] using hf
    exact ⟨rfl, rfl, rfl⟩
  have hearlier : ∀ r ∈ [movedResponse], r.Plain := by
    intro r hr
    rw [List.mem_singleton.mp hr]
    exact hmoved
  refine ⟨hmoved, hok, ((reportsFinal_iff_noStaleField _ _ _).2.2 hok hearlier).mpr fun _ => ?_⟩
  exact ⟨server, List.mem_singleton_self _, by decide⟩

/-- The target of a followed redirect is still reported as a field of the final response. -/
theorem redirect_reports_stale : ¬∀ earlier final name, ReportsFinal earlier final name := by
  intro h
  have hreport := reportsFinal_iff_or.mp (h [movedResponse] okResponse (ascii "Location"))
  exact absurd hreport (by decide)

end Redirect

end RipExt.Http
