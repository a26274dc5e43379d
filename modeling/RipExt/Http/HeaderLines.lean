import RipExt.Http.Headers

/-! One header line at a time: which of the lines that HTTP allows the callback reads as what
they say. -/
namespace RipExt.Http

section Lines

/-- A line after the status line: a field, or the blank line at the end. -/
inductive HeaderLine where
  | field (f : Field)
  | blank (crlf : Bool)

def HeaderLine.bytes : HeaderLine → Bytes
  | .field f => f.line
  | .blank crlf => eol crlf

/-- The callback takes the whole line, the length it passes to `strncat` has not wrapped, and
the map gets the field and nothing else. -/
def HeaderLine.ReadRight (l : HeaderLine) : Prop :=
  (l.bytes.length + 2 ^ 64 - 2) % 2 ^ 64 + 2 = l.bytes.length ∧
  ∀ response, ∃ r, receiveResponseHeader response l.bytes = some (l.bytes.length, r) ∧
    match l with
    | .field f => getResponseHeader r f.name = some f.value ∧
        ∀ key, key ≠ lowercase f.name → r.headers.find key = response.headers.find key
    | .blank _ => r = response

/-- The name, a colon and one space, the value, and exactly two more bytes. -/
def Field.Exact (f : Field) : Prop := ∃ a b, f.line = f.name ++ 58 :: 32 :: f.value ++ [a, b]

end Lines

section Reading
variable {f : Field}

theorem strstrColon_some {text name value : Bytes} (h : strstrColon text = some (name, value)) :
    text = name ++ 58 :: 32 :: value := by
  induction text generalizing name with
  | nil => cases h
  | cons b rest ih =>
    rw [strstrColon] at h
    split_ifs at h with hcolon
    · obtain ⟨rfl, rfl⟩ := Prod.mk.inj (Option.some.inj h)
      obtain ⟨rfl, hspace⟩ := hcolon
      obtain ⟨rest, rfl⟩ := List.head?_eq_some_iff.mp hspace
      rfl
    · obtain ⟨⟨name', value'⟩, hrest, heq⟩ := Option.map_eq_some_iff.mp h
      obtain ⟨rfl, rfl⟩ := Prod.mk.inj heq
      rw [ih hrest]
      rfl

theorem lowercase_length (name : Bytes) : (lowercase name).length = name.length :=
  List.length_map ..

theorem Field.line_ne_zero (f : Field) : ∀ b ∈ f.line, b ≠ 0 := by
  have hblank {b : UInt8} (h : IsBlank b) : b ≠ 0 := by
    rcases h with rfl | rfl <;> decide
  have heol : ∀ b ∈ eol f.crlf, b ≠ 0 := by
    cases f.crlf <;> simp [eol]
  intro b hb
  simp only [Field.line, List.cons_append, List.append_assoc, List.mem_append,
    List.mem_cons] at hb
  rcases hb with hb | rfl | hb | hb | hb | hb
  · exact fun h => f.name_ok.2 b hb (by simp [h])
  · decide
  · exact hblank (f.before_ok b hb)
  · exact fun h => f.value_ok b hb (by simp [h])
  · exact hblank (f.after_ok b hb)
  · exact heol b hb

theorem Field.two_le_length (f : Field) : 2 ≤ f.line.length := by
  have hname := List.length_pos_iff.mpr f.name_ok.1
  simp only [Field.line, List.length_append, List.length_cons]
  omega

/-- `total - 2` of a line that is neither too short nor too long. -/
theorem stripped_length {line : Bytes} (hlong : 2 ≤ line.length)
    (hshort : line.length ≤ curlMaxHttpHeader) :
    (line.length + 2 ^ 64 - 2) % 2 ^ 64 = line.length - 2 := by
  simp only [curlMaxHttpHeader] at hshort
  omega

theorem headerBuffer_eq_take {line : Bytes} (hzero : ∀ b ∈ line, b ≠ 0)
    (hlong : 2 ≤ line.length) (hshort : line.length ≤ curlMaxHttpHeader) :
    headerBuffer line = line.take (line.length - 2) := by
  have hwhole : line.takeWhile (· ≠ 0) = line := by
    rw [List.takeWhile_eq_self_iff]
    intro b hb
    simpa using hzero b hb
  rw [headerBuffer, strncat, hwhole, stripped_length hlong hshort]

theorem receiveResponseHeader_of_readField {line : Bytes} (response : HTTPResponse)
    (hshort : line.length ≤ curlMaxHttpHeader) :
    receiveResponseHeader response line = some (line.length,
      match readField line with
      | none => response
      | some (name, value) =>
        { response with headers := response.headers.replace name value }) := by
  have hfits : ¬curlMaxHttpHeader < (headerBuffer line).length + 1 :=
    Nat.not_lt.mpr (headerBuffer_length line hshort)
  unfold receiveResponseHeader
  rw [if_neg hfits]
  cases readField line with
  | none => rfl
  | some f => rfl

/-- The callback reads a field line as its field exactly if the line is an exact one. -/
theorem readField_line_iff (hshort : f.line.length ≤ curlMaxHttpHeader) :
    readField f.line = some (lowercase f.name, f.value) ↔ f.Exact := by
  have hbuffer := headerBuffer_eq_take f.line_ne_zero f.two_le_length hshort
  have hcolon : ∀ b ∈ f.name, b ≠ 58 := fun b hb h => f.name_ok.2 b hb (by simp [h])
  constructor
  · intro h
    obtain ⟨⟨name, value⟩, hfound, heq⟩ := Option.map_eq_some_iff.mp h
    obtain ⟨hname, rfl⟩ := Prod.mk.inj heq
    have htake := strstrColon_some hfound
    rw [hbuffer] at htake
    have hsplit : f.line = name ++ 58 :: 32 :: f.value ++ f.line.drop (f.line.length - 2) := by
      rw [← htake, List.take_append_drop]
    have hsame : name = f.name := by
      have hlength : name.length = f.name.length := by
        rw [← lowercase_length name, ← lowercase_length f.name]
        exact congrArg List.length hname
      have hprefix : f.name ++ (58 :: f.before ++ f.value ++ f.after ++ eol f.crlf) =
          name ++ (58 :: 32 :: f.value ++ f.line.drop (f.line.length - 2)) := by
        simpa [Field.line] using hsplit
      exact (List.append_inj_left hprefix hlength.symm).symm
    obtain ⟨a, b, hdrop⟩ : ∃ a b, f.line.drop (f.line.length - 2) = [a, b] := by
      apply List.length_eq_two.mp
      have hlong := f.two_le_length
      rw [List.length_drop]
      omega
    exact ⟨a, b, by rw [hsame, hdrop] at hsplit; exact hsplit⟩
  · rintro ⟨a, b, hline⟩
    have htake : headerBuffer f.line = f.name ++ 58 :: 32 :: f.value := by
      rw [hbuffer, hline]
      apply List.take_left'
      simp only [List.length_append, List.length_cons, List.length_nil]
      omega
    rw [readField, htake, strstrColon_append hcolon]
    rfl

theorem field_readRight_iff (hshort : f.line.length ≤ curlMaxHttpHeader) :
    (HeaderLine.field f).ReadRight ↔ f.Exact := by
  rw [← readField_line_iff hshort]
  have hreceive response := receiveResponseHeader_of_readField response hshort
  constructor
  · rintro ⟨-, hright⟩
    obtain ⟨r, hr, hget, -⟩ := hright ⟨0, []⟩
    obtain ⟨-, rfl⟩ := Prod.mk.inj (Option.some.inj ((hreceive _).symm.trans hr))
    cases hread : readField f.line with
    | none =>
      rw [hread] at hget
      cases hget
    | some field =>
      rw [hread, getResponseHeader, find_replace] at hget
      split_ifs at hget with hname
      · rw [← hname, ← Option.some.inj hget]
      · cases hget
  · intro hread
    refine ⟨?_, fun response => ?_⟩
    · rw [HeaderLine.bytes, stripped_length f.two_le_length hshort]
      have hlong := f.two_le_length
      omega
    · refine ⟨_, hreceive response, ?_, fun key hkey => ?_⟩
      · rw [hread, getResponseHeader, find_replace, if_pos rfl]
      · rw [hread, find_replace, if_neg (Ne.symm hkey)]

theorem blank_readRight_iff (crlf : Bool) : (HeaderLine.blank crlf).ReadRight ↔ crlf = true := by
  have hnone : readField (eol crlf) = none := by
    cases crlf <;> decide
  have hshort : (eol crlf).length ≤ curlMaxHttpHeader := by
    cases crlf <;> decide
  have hreceive response := receiveResponseHeader_of_readField response hshort
  rw [hnone] at hreceive
  constructor
  · rintro ⟨hwrap, -⟩
    cases crlf with
    | true => rfl
    | false => exact absurd hwrap (by decide)
  · rintro rfl
    exact ⟨by decide, fun response => ⟨response, hreceive response, rfl⟩⟩

end Reading

/-- What it takes for a line to be read right: a field has one space after its colon and two
bytes after its value, which the callback strips, and the blank line has both of its bytes. -/
def HeaderLine.Expected : HeaderLine → Prop
  | .field f => f.Exact
  | .blank crlf => crlf = true

/-- The callback reads a header line as HTTP defines it if and only if the line is the name, a
colon, one space, the value and two more bytes; a blank line has to be the two bytes CR LF. -/
theorem readRight_iff_expected (l : HeaderLine) (hshort : l.bytes.length ≤ curlMaxHttpHeader) :
    l.ReadRight ↔ l.Expected := by
  cases l with
  | field f => exact field_readRight_iff hshort
  | blank crlf => exact blank_readRight_iff crlf

/-- `Server: b` and the blank line after it. -/
theorem server_readRight : (HeaderLine.field server).ReadRight ∧
    (HeaderLine.blank true).ReadRight := by
  refine ⟨(readRight_iff_expected (.field server) (by decide)).mpr ?_,
    (readRight_iff_expected (.blank true) (by decide)).mpr rfl⟩
  exact ⟨13, 10, by decide⟩

/-- `Server:b`, without the optional space. -/
def serverTight : Field :=
  { server with before := [], before_ok := List.forall_mem_nil IsBlank }

/-- A field without a space after its colon is not found, and the length wraps at a blank line
that is a bare line feed. -/
theorem tightLines_misread :
    ¬(HeaderLine.field serverTight).ReadRight ∧ ¬(HeaderLine.blank false).ReadRight := by
  constructor
  · intro h
    have hread := (readField_line_iff (by decide)).mpr ((field_readRight_iff (by decide)).mp h)
    exact absurd hread (by decide)
  · intro h
    cases (blank_readRight_iff false).mp h

end RipExt.Http
