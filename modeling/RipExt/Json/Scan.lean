import RipExt.Json.Dump

/-! The lexer and the parser of `load.c` on the bytes of a text: the tree that the parser of
`Load.lean` builds its document from. What the decoder reports when it fails is left open. -/
namespace RipExt.Json

/-- The decoding flags. -/
structure LoadFlags where
  rejectDuplicates : Bool := false
  disableEofCheck : Bool := false
  decodeAny : Bool := false
  decodeIntAsReal : Bool := false
  allowNul : Bool := false
  deriving DecidableEq, Repr

section Strings

def isBlank (b : UInt8) : Bool := b = 32 || b = 9 || b = 10 || b = 13

def isAlpha (b : UInt8) : Bool :=
  65 ≤ b.toNat && b.toNat ≤ 90 || 97 ≤ b.toNat && b.toNat ≤ 122

def isXdigit (b : UInt8) : Bool := (Percent.hexValue b).isSome

/-- The characters that may follow a backslash, apart from `u`. -/
def isEscape (b : UInt8) : Bool :=
  b = 34 || b = 92 || b = 47 || b = 98 || b = 102 || b = 110 || b = 114 || b = 116

/-- The number of bytes after a backslash that belong to the escape. -/
def escapeLength : Bytes → Option ℕ
  | [] => none
  | c :: rest =>
    if c = 117 then
      if (rest.take 4).length = 4 ∧ (rest.take 4).all isXdigit then some 5 else none
    else if isEscape c then some 1
    else none

/-- A byte that belongs to the text of a string. -/
def keep (b : UInt8) (result : Option (Bytes × Bytes)) : Option (Bytes × Bytes) :=
  result.map fun r => (b :: r.1, r.2)

/-- The first loop of `lex_scan_string`: the raw text up to the closing quote, and what follows the
quote. `skip` bytes belong to an escape or to a sequence already checked. -/
def lexString : ℕ → Bytes → Option (Bytes × Bytes)
  | _, [] => none
  | skip + 1, b :: bs => keep b (lexString skip bs)
  | 0, b :: bs =>
    if b = 34 then some ([], bs)
    else if b.toNat < 32 then none
    else if b = 92 then
      match escapeLength bs with
      | none => none
      | some n => keep b (lexString n bs)
    else
      match utf8CheckFirst b with
      | 0 => none
      | 1 => keep b (lexString 0 bs)
      | count + 2 =>
        if bs.length + 1 < count + 2 ∨ utf8CheckFull ((b :: bs).take (count + 2)) (count + 2) = false
        then none
        else keep b (lexString (count + 1) bs)

/-- `utf8_encode`. -/
def utf8Encode (codepoint : ℕ) : Bytes :=
  if codepoint < 0x80 then [UInt8.ofNat codepoint]
  else if codepoint < 0x800 then
    [UInt8.ofNat (0xC0 + codepoint / 64), UInt8.ofNat (0x80 + codepoint % 64)]
  else if codepoint < 0x10000 then
    [UInt8.ofNat (0xE0 + codepoint / 4096), UInt8.ofNat (0x80 + codepoint / 64 % 64),
      UInt8.ofNat (0x80 + codepoint % 64)]
  else
    [UInt8.ofNat (0xF0 + codepoint / 262144), UInt8.ofNat (0x80 + codepoint / 4096 % 64),
      UInt8.ofNat (0x80 + codepoint / 64 % 64), UInt8.ofNat (0x80 + codepoint % 64)]

/-- `decode_unicode_escape`, after the `u`. -/
def decodeUnicodeEscape (digits : Bytes) : ℕ :=
  (digits.take 4).foldl (fun value c => 16 * value + (Percent.hexValue c).getD 0) 0

/-- The character of a short escape. -/
def unescape (c : UInt8) : UInt8 :=
  if c = 98 then 8
  else if c = 102 then 12
  else if c = 110 then 10
  else if c = 114 then 13
  else if c = 116 then 9
  else c

/-- The second loop of `lex_scan_string`, over the raw text. -/
def decodeString : ℕ → Bytes → Option Bytes
  | _, [] => some []
  | skip + 1, _ :: bs => decodeString skip bs
  | 0, b :: bs =>
    if b = 92 then
      match bs with
      | [] => none
      | c :: rest =>
        if c = 117 then
          let value := decodeUnicodeEscape rest
          if 0xD800 ≤ value ∧ value ≤ 0xDBFF then
            let value2 := decodeUnicodeEscape (rest.drop 6)
            if (rest.drop 4).take 2 = [92, 117] ∧ 0xDC00 ≤ value2 ∧ value2 ≤ 0xDFFF then
              (decodeString 11 bs).map fun text =>
                utf8Encode ((value - 0xD800) * 1024 + (value2 - 0xDC00) + 0x10000) ++ text
            else none
          else if 0xDC00 ≤ value ∧ value ≤ 0xDFFF then none
          else (decodeString 5 bs).map fun text => utf8Encode value ++ text
        else (decodeString 1 bs).map fun text => unescape c :: text
    else (decodeString 0 bs).map fun text => b :: text

/-- `lex_scan_string`, after the opening quote. -/
def lexScanString (text : Bytes) : Option (Bytes × Bytes) :=
  (lexString 0 text).bind fun r => (decodeString 0 r.1).map fun value => (value, r.2)

end Strings

section Tokens

inductive Token where
  | eof | invalid
  /-- One of the characters `{`, `}`, `[`, `]`, `:` and `,`. -/
  | char (c : UInt8)
  | string (value : Bytes)
  | integer (value : ℤ)
  | real (value : Double)
  | true | false | null
  deriving DecidableEq, Repr

/-- `lex_unget`: a zero byte that is given back is lost, since a zero in the buffer of the stream
means that the buffer is empty. -/
def unget : Bytes → Bytes
  | [] => []
  | b :: rest => if b = 0 then rest else b :: rest

def isPunctuation (b : UInt8) : Bool :=
  b = 123 || b = 125 || b = 91 || b = 93 || b = 58 || b = 44

def identifier (word : Bytes) : Token :=
  if word = trueText then .true
  else if word = falseText then .false
  else if word = nullText then .null
  else .invalid

def numberToken : Number → Token
  | .integer value => .integer value
  | .real value => .real value

/-- `lex_scan`: the next token and what follows it. After an invalid token nothing is read. -/
def lexScan (strtod : Bytes → Option Double) (flags : LoadFlags) (text : Bytes) : Token × Bytes :=
  match text.dropWhile isBlank with
  | [] => (.eof, [])
  | b :: rest =>
    if isPunctuation b then (.char b, rest)
    else if b = 34 then
      match lexScanString rest with
      | some (value, rest) => (.string value, rest)
      | none => (.invalid, [])
    else if isDigit b || b = 45 then
      match lexScanNumber strtod flags.decodeIntAsReal (b :: rest) with
      | some (number, rest) => (numberToken number, unget rest)
      | none => (.invalid, [])
    else if isAlpha b then
      (identifier (b :: rest.takeWhile isAlpha), unget (rest.dropWhile isAlpha))
    else (.invalid, [])

end Tokens

section Values
variable (strtod : Bytes → Option Double) (flags : LoadFlags)

/-- The loop of `parse_array` at a token; without a rest the parser fails. `fuel` bounds the number
of rounds, each of which reads a comma. -/
def scanItems (value : Token × Bytes → Text × Option Bytes) :
    ℕ → Token × Bytes → Items × Option Bytes
  | 0, _ => (.broken, none)
  | fuel + 1, cur =>
    if cur.1 = .eof then (.broken, none)
    else
      match value cur with
      | (item, none) => (.item item .broken, none)
      | (item, some rest) =>
        let next := lexScan strtod flags rest
        if next.1 = .char 44 then
          let more := scanItems value fuel (lexScan strtod flags next.2)
          (.item item more.1, more.2)
        else if next.1 = .char 93 then (.item item .closed, some next.2)
        else (.item item .broken, none)

/-- The loop of `parse_object` at a token, with the keys read so far. -/
def scanMembers (value : Token × Bytes → Text × Option Bytes) :
    ℕ → List Bytes → Token × Bytes → Members × Option Bytes
  | 0, _, _ => (.broken, none)
  | fuel + 1, keys, cur =>
    match cur.1 with
    | .string key =>
      let colon := lexScan strtod flags cur.2
      if 0 ∈ key ∨ flags.rejectDuplicates ∧ key ∈ keys then (.broken, none)
      else if colon.1 ≠ .char 58 then (.broken, none)
      else
        match value (lexScan strtod flags colon.2) with
        | (member, none) => (.member key member .broken, none)
        | (member, some rest) =>
          let next := lexScan strtod flags rest
          if next.1 = .char 44 then
            let more := scanMembers value fuel (key :: keys) (lexScan strtod flags next.2)
            (.member key member more.1, more.2)
          else if next.1 = .char 125 then (.member key member .closed, some next.2)
          else (.member key member .broken, none)
    | _ => (.broken, none)

/-- `parse_value` at a token; `depth` is what is left of `JSON_PARSER_MAX_DEPTH`. -/
def scanValue : ℕ → Token × Bytes → Text × Option Bytes
  | 0, _ => (.invalid, none)
  | depth + 1, cur =>
    match cur.1 with
    | .string value =>
      if 0 ∈ value ∧ flags.allowNul = false then (.invalid, none) else (.string value, some cur.2)
    | .integer value => (.integer value, some cur.2)
    | .real value => (.real value, some cur.2)
    | .true => (.true, some cur.2)
    | .false => (.false, some cur.2)
    | .null => (.null, some cur.2)
    | .char c =>
      let first := lexScan strtod flags cur.2
      if c = 123 then
        if first.1 = .char 125 then (.object .closed, some first.2)
        else
          let members := scanMembers strtod flags (scanValue depth) cur.2.length [] first
          (.object members.1, members.2)
      else if c = 91 then
        if first.1 = .char 93 then (.array .closed, some first.2)
        else
          let items := scanItems strtod flags (scanValue depth) cur.2.length first
          (.array items.1, items.2)
      else (.invalid, none)
    | .eof => (.invalid, none)
    | .invalid => (.invalid, none)

/-- `JSON_PARSER_MAX_DEPTH`. -/
def jsonParserMaxDepth : ℕ := 2048

/-- `parse_json` on a buffer that is delimited by its length. -/
def jsonLoadb (report : Bytes → JsonError) (buffer : Bytes) : Document :=
  let first := lexScan strtod flags buffer
  if flags.decodeAny = false ∧ first.1 ≠ .char 91 ∧ first.1 ≠ .char 123 then
    ⟨.invalid, false, report buffer⟩
  else
    match scanValue strtod flags jsonParserMaxDepth first with
    | (text, none) => ⟨text, false, report buffer⟩
    | (text, some rest) =>
      ⟨text, flags.disableEofCheck || (lexScan strtod flags rest).1 = .eof, report buffer⟩

end Values

section Longer
variable {strtod : Bytes → Option Double} {flags : LoadFlags} {text rest raw more : Bytes}

theorem keep_eq_some {b : UInt8} {result : Option (Bytes × Bytes)} :
    keep b result = some (raw, rest) ↔ ∃ raw', result = some (raw', rest) ∧ raw = b :: raw' := by
  unfold keep
  rw [Option.map_eq_some_iff]
  constructor
  · rintro ⟨⟨raw', rest'⟩, hr, heq⟩
    cases heq
    exact ⟨raw', hr, rfl⟩
  · rintro ⟨raw', hr, rfl⟩
    exact ⟨(raw', rest), hr, rfl⟩

theorem escapeLength_append {n : ℕ} (h : escapeLength text = some n) :
    escapeLength (text ++ more) = some n := by
  cases text with
  | nil => cases h
  | cons c text =>
    rw [List.cons_append]
    simp only [escapeLength] at h ⊢
    by_cases hu : c = 117
    · rw [if_pos hu] at h ⊢
      split_ifs at h with hhex
      have htake : (text ++ more).take 4 = text.take 4 := by
        apply List.take_append_of_le_length
        have hlen := hhex.1
        rw [List.length_take] at hlen
        omega
      rw [htake, if_pos hhex]
      exact h
    · rw [if_neg hu] at h ⊢
      exact h

/-- A string that ends is read in the same way whatever follows it. -/
theorem lexString_append {skip : ℕ} (h : lexString skip text = some (raw, rest)) :
    lexString skip (text ++ more) = some (raw, rest ++ more) := by
  induction text generalizing skip raw with
  | nil => simp [lexString] at h
  | cons b text ih =>
    rw [List.cons_append]
    cases skip with
    | succ skip =>
      rw [lexString] at h ⊢
      obtain ⟨raw', hr, rfl⟩ := keep_eq_some.mp h
      exact keep_eq_some.mpr ⟨raw', ih hr, rfl⟩
    | zero =>
      rw [lexString] at h ⊢
      by_cases hquote : b = 34
      · rw [if_pos hquote] at h ⊢
        cases h
        rfl
      rw [if_neg hquote] at h ⊢
      by_cases hcontrol : b.toNat < 32
      · rw [if_pos hcontrol] at h
        cases h
      rw [if_neg hcontrol] at h ⊢
      by_cases hescape : b = 92
      · rw [if_pos hescape] at h ⊢
        cases hn : escapeLength text with
        | none =>
          rw [hn] at h
          cases h
        | some n =>
          rw [hn] at h
          rw [escapeLength_append hn]
          obtain ⟨raw', hr, rfl⟩ := keep_eq_some.mp h
          exact keep_eq_some.mpr ⟨raw', ih hr, rfl⟩
      rw [if_neg hescape] at h ⊢
      match hfirst : utf8CheckFirst b with
      | 0 =>
        rw [hfirst] at h
        cases h
      | 1 =>
        rw [hfirst] at h
        obtain ⟨raw', hr, rfl⟩ := keep_eq_some.mp h
        exact keep_eq_some.mpr ⟨raw', ih hr, rfl⟩
      | count + 2 =>
        rw [hfirst] at h
        dsimp only at h ⊢
        split_ifs at h with hbad
        rw [not_or] at hbad
        have htake : (b :: (text ++ more)).take (count + 2) = (b :: text).take (count + 2) := by
          rw [← List.cons_append]
          apply List.take_append_of_le_length
          rw [List.length_cons]
          omega
        have hgood : ¬((text ++ more).length + 1 < count + 2 ∨
            utf8CheckFull ((b :: (text ++ more)).take (count + 2)) (count + 2) = false) := by
          rw [htake, not_or, List.length_append]
          exact ⟨by omega, hbad.2⟩
        rw [if_neg hgood]
        obtain ⟨raw', hr, rfl⟩ := keep_eq_some.mp h
        exact keep_eq_some.mpr ⟨raw', ih hr, rfl⟩

theorem lexScanString_append {value : Bytes} (h : lexScanString text = some (value, rest)) :
    lexScanString (text ++ more) = some (value, rest ++ more) := by
  obtain ⟨⟨raw, rest'⟩, hraw, h⟩ := Option.bind_eq_some_iff.mp h
  obtain ⟨value', hvalue, heq⟩ := Option.map_eq_some_iff.mp h
  cases heq
  rw [lexScanString, lexString_append hraw, Option.bind_some, hvalue, Option.map_some]

/-- A run that ends before the text does is the same run in a longer text. -/
theorem takeWhile_append_of_ends {p : UInt8 → Bool} (more : Bytes) (h : text.dropWhile p ≠ []) :
    (text ++ more).takeWhile p = text.takeWhile p ∧
      (text ++ more).dropWhile p = text.dropWhile p ++ more := by
  have hlen : (text.takeWhile p).length ≠ text.length := by
    have hsum := congrArg List.length (List.takeWhile_append_dropWhile (p := p) (l := text))
    have hpos := List.length_pos_iff.mpr h
    rw [List.length_append] at hsum
    omega
  rw [List.takeWhile_append, if_neg hlen, List.dropWhile_append, if_neg (by simpa using h)]
  exact ⟨rfl, rfl⟩

theorem lexFraction_append {fraction : Bytes} (h : lexFraction text = some (fraction, rest))
    (hrest : rest ≠ []) : lexFraction (text ++ more) = some (fraction, rest ++ more) := by
  cases text with
  | nil =>
    cases h
    exact absurd rfl hrest
  | cons b text =>
    rw [List.cons_append]
    simp only [lexFraction] at h ⊢
    by_cases hpoint : b = 46
    · rw [if_pos hpoint] at h ⊢
      split_ifs at h with hdigits
      cases h
      obtain ⟨htake, hdrop⟩ := takeWhile_append_of_ends more hrest
      rw [htake, hdrop, if_neg hdigits]
    · rw [if_neg hpoint] at h ⊢
      cases h
      rfl

theorem lexExponent_append {exponent : Bytes} (h : lexExponent text = some (exponent, rest))
    (hrest : rest ≠ []) : lexExponent (text ++ more) = some (exponent, rest ++ more) := by
  cases text with
  | nil =>
    cases h
    exact absurd rfl hrest
  | cons b text =>
    rw [List.cons_append]
    simp only [lexExponent] at h ⊢
    by_cases hletter : b = 69 ∨ b = 101
    · rw [if_pos hletter] at h ⊢
      split_ifs at h with hdigits
      cases h
      have htext : text ≠ [] := by
        rintro rfl
        exact hrest rfl
      have hsign : (text ++ more).take 1 = text.take 1 := by
        apply List.take_append_of_le_length
        exact List.length_pos_iff.mpr htext
      have hskip : ((text.take 1).filter fun c => c = 43 ∨ c = 45).length ≤ text.length :=
        (List.length_filter_le _ _).trans (List.take_sublist 1 text).length_le
      obtain ⟨htake, hdrop⟩ := takeWhile_append_of_ends more hrest
      rw [hsign, List.drop_append_of_le_length hskip, htake, hdrop, if_neg hdigits]
    · rw [if_neg hletter] at h ⊢
      cases h
      rfl

theorem lexFraction_suffix {fraction : Bytes} (h : lexFraction text = some (fraction, rest)) :
    rest <:+ text := by
  cases text with
  | nil =>
    cases h
    exact List.suffix_rfl
  | cons b text =>
    simp only [lexFraction] at h
    split_ifs at h
    · cases h
      exact (List.dropWhile_suffix _).trans (List.suffix_cons b text)
    · cases h
      exact List.suffix_rfl

theorem lexExponent_suffix {exponent : Bytes} (h : lexExponent text = some (exponent, rest)) :
    rest <:+ text := by
  cases text with
  | nil =>
    cases h
    exact List.suffix_rfl
  | cons b text =>
    simp only [lexExponent] at h
    split_ifs at h
    · cases h
      exact ((List.dropWhile_suffix _).trans (List.drop_suffix _ _)).trans (List.suffix_cons b text)
    · cases h
      exact List.suffix_rfl

/-- The optional sign of a number. -/
def minus (text : Bytes) : Bytes := (text.take 1).filter fun c => c = 45

/-- What `lex_scan_number` does once the sign and the digits are read. -/
def afterDigits (strtod : Bytes → Option Double) (intAsReal : Bool) (integer tail : Bytes) :
    Option (Number × Bytes) :=
  if intAsReal = false ∧ tail.head?.all fun c => c ≠ 46 ∧ c ≠ 69 ∧ c ≠ 101 then
    match jsonStrtoint integer with
    | (_, true) => none
    | (value, false) => some (.integer value, tail)
  else do
    let (fraction, rest) ← lexFraction tail
    let (exponent, rest) ← lexExponent rest
    let value ← strtod (integer ++ fraction ++ exponent)
    some (.real value, rest)

theorem lexScanNumber_eq (strtod : Bytes → Option Double) (intAsReal : Bool) (text : Bytes) :
    lexScanNumber strtod intAsReal text =
      let digits := (text.drop (minus text).length).takeWhile isDigit
      if digits.isEmpty ∨ digits.head? = some 48 ∧ digits.length ≠ 1 then none
      else afterDigits strtod intAsReal (minus text ++ digits)
        ((text.drop (minus text).length).dropWhile isDigit) := rfl

/-- What follows a number is a part of what follows its digits. -/
theorem afterDigits_suffix {intAsReal : Bool} {number : Number} {integer tail : Bytes}
    (h : afterDigits strtod intAsReal integer tail = some (number, rest)) : rest <:+ tail := by
  unfold afterDigits at h
  split_ifs at h
  · split at h
    · cases h
    · cases h
      exact List.suffix_rfl
  · obtain ⟨⟨fraction, middle⟩, hfraction, h⟩ := Option.bind_eq_some_iff.mp h
    obtain ⟨⟨exponent, rest'⟩, hexponent, h⟩ := Option.bind_eq_some_iff.mp h
    obtain ⟨value, hvalue, h⟩ := Option.bind_eq_some_iff.mp h
    cases h
    exact (lexExponent_suffix hexponent).trans (lexFraction_suffix hfraction)

theorem afterDigits_append {intAsReal : Bool} {number : Number} {integer tail : Bytes}
    (h : afterDigits strtod intAsReal integer tail = some (number, rest)) (hrest : rest ≠ []) :
    afterDigits strtod intAsReal integer (tail ++ more) = some (number, rest ++ more) := by
  have htail : tail ≠ [] := (afterDigits_suffix h).ne_nil hrest
  have hhead : (tail ++ more).head? = tail.head? := List.head?_append_of_ne_nil _ htail
  unfold afterDigits at h ⊢
  rw [hhead]
  split_ifs at h ⊢ with hint
  · split at h
    · cases h
    · cases h
      rfl
  · obtain ⟨⟨fraction, middle⟩, hfraction, h⟩ := Option.bind_eq_some_iff.mp h
    obtain ⟨⟨exponent, rest'⟩, hexponent, h⟩ := Option.bind_eq_some_iff.mp h
    obtain ⟨value, hvalue, h⟩ := Option.bind_eq_some_iff.mp h
    cases h
    have hmiddle : middle ≠ [] := (lexExponent_suffix hexponent).ne_nil hrest
    simp only [lexFraction_append hfraction hmiddle, lexExponent_append hexponent hrest, hvalue,
      Option.bind_eq_bind, Option.bind_some]

theorem lexScanNumber_suffix {intAsReal : Bool} {number : Number}
    (h : lexScanNumber strtod intAsReal text = some (number, rest)) : rest <:+ text := by
  rw [lexScanNumber_eq] at h
  dsimp only at h
  split_ifs at h
  exact (afterDigits_suffix h).trans ((List.dropWhile_suffix _).trans (List.drop_suffix _ _))

/-- A number that ends before the text does is the same number in a longer text. -/
theorem lexScanNumber_append {intAsReal : Bool} {number : Number}
    (h : lexScanNumber strtod intAsReal text = some (number, rest)) (hrest : rest ≠ []) :
    lexScanNumber strtod intAsReal (text ++ more) = some (number, rest ++ more) := by
  have htext : text ≠ [] := (lexScanNumber_suffix h).ne_nil hrest
  have hminus : minus (text ++ more) = minus text := by
    unfold minus
    rw [List.take_append_of_le_length (List.length_pos_iff.mpr htext)]
  have hsign : (minus text).length ≤ text.length :=
    (List.length_filter_le _ _).trans (List.take_sublist 1 text).length_le
  rw [lexScanNumber_eq] at h ⊢
  dsimp only at h ⊢
  rw [hminus, List.drop_append_of_le_length hsign]
  split_ifs at h with hdigits
  obtain ⟨htake, hdrop⟩ :=
    takeWhile_append_of_ends more ((afterDigits_suffix h).ne_nil hrest)
  rw [htake, hdrop, if_neg hdigits]
  exact afterDigits_append h hrest

theorem lexString_suffix {skip : ℕ} (h : lexString skip text = some (raw, rest)) :
    rest <:+ text := by
  induction text generalizing skip raw with
  | nil => simp [lexString] at h
  | cons b text ih =>
    have hkeep {n : ℕ} (hk : keep b (lexString n text) = some (raw, rest)) : rest <:+ b :: text := by
      obtain ⟨raw', hr, -⟩ := keep_eq_some.mp hk
      exact (ih hr).trans (List.suffix_cons b text)
    cases skip with
    | succ skip =>
      rw [lexString] at h
      exact hkeep h
    | zero =>
      rw [lexString] at h
      split_ifs at h
      · cases h
        exact List.suffix_cons b _
      · split at h
        · cases h
        · exact hkeep h
      · split at h
        · cases h
        · exact hkeep h
        · split_ifs at h
          exact hkeep h

theorem lexScanString_suffix {value : Bytes} (h : lexScanString text = some (value, rest)) :
    rest <:+ text := by
  obtain ⟨⟨raw, rest'⟩, hraw, h⟩ := Option.bind_eq_some_iff.mp h
  obtain ⟨value', hvalue, heq⟩ := Option.map_eq_some_iff.mp h
  cases heq
  exact lexString_suffix hraw

theorem unget_suffix (text : Bytes) : unget text <:+ text := by
  cases text with
  | nil => exact List.suffix_rfl
  | cons b text =>
    rw [unget]
    split_ifs
    · exact List.suffix_cons b text
    · exact List.suffix_rfl

theorem unget_append (h : text ≠ []) : unget (text ++ more) = unget text ++ more := by
  cases text with
  | nil => exact absurd rfl h
  | cons b text =>
    rw [List.cons_append, unget, unget]
    split_ifs <;> rfl

/-- The lexer never goes back behind what it has read. -/
theorem lexScan_suffix (strtod : Bytes → Option Double) (flags : LoadFlags) (text : Bytes) :
    (lexScan strtod flags text).2 <:+ text := by
  refine List.IsSuffix.trans ?_ (List.dropWhile_suffix isBlank)
  unfold lexScan
  cases text.dropWhile isBlank with
  | nil => exact List.nil_suffix
  | cons b rest =>
    have hcons : rest <:+ b :: rest := List.suffix_cons b rest
    dsimp only
    split_ifs
    · exact hcons
    · split
      · next value rest' h => exact (lexScanString_suffix h).trans hcons
      · exact List.nil_suffix
    · split
      · next number rest' h => exact (unget_suffix _).trans (lexScanNumber_suffix h)
      · exact List.nil_suffix
    · exact ((unget_suffix _).trans (List.dropWhile_suffix _)).trans hcons
    · exact List.nil_suffix

/-- A token that is complete, because something follows it or because it is one character, is the
same token in a longer text. -/
theorem lexScan_append {tok : Token} (more : Bytes) (h : lexScan strtod flags text = (tok, rest))
    (heof : tok ≠ .eof) (hinvalid : tok ≠ .invalid) (hrest : rest ≠ [] ∨ ∃ c, tok = .char c) :
    lexScan strtod flags (text ++ more) = (tok, rest ++ more) := by
  have hblank : text.dropWhile isBlank ≠ [] := by
    intro hnil
    rw [lexScan, hnil] at h
    cases h
    exact heof rfl
  rw [lexScan, (takeWhile_append_of_ends more hblank).2]
  rw [lexScan] at h
  obtain ⟨b, tail, hcons⟩ := List.exists_cons_of_ne_nil hblank
  rw [hcons] at h ⊢
  dsimp only [List.cons_append] at h ⊢
  split_ifs at h ⊢ with hpunct hquote hnumber halpha
  · cases h
    rfl
  · cases hstring : lexScanString tail with
    | none =>
      rw [hstring] at h
      cases h
      exact absurd rfl hinvalid
    | some r =>
      obtain ⟨value, rest'⟩ := r
      rw [hstring] at h
      cases h
      rw [lexScanString_append hstring]
  · cases hscan : lexScanNumber strtod flags.decodeIntAsReal (b :: tail) with
    | none =>
      rw [hscan] at h
      cases h
      exact absurd rfl hinvalid
    | some r =>
      obtain ⟨number, rest'⟩ := r
      rw [hscan] at h
      cases h
      have hne : unget rest' ≠ [] := by
        refine hrest.resolve_right ?_
        rintro ⟨c, hc⟩
        cases number <;> cases hc
      have hne' : rest' ≠ [] := (unget_suffix rest').ne_nil hne
      rw [← List.cons_append, lexScanNumber_append hscan hne']
      simp only [unget_append hne']
  · cases h
    have hne : unget (tail.dropWhile isAlpha) ≠ [] := by
      refine hrest.resolve_right ?_
      rintro ⟨c, hc⟩
      unfold identifier at hc
      split_ifs at hc
    have hne' : tail.dropWhile isAlpha ≠ [] := (unget_suffix _).ne_nil hne
    obtain ⟨htake, hdrop⟩ := takeWhile_append_of_ends more hne'
    rw [htake, hdrop, unget_append hne']
  · cases h
    exact absurd rfl hinvalid

end Longer

section LongerValues
variable {strtod : Bytes → Option Double} {flags : LoadFlags} {rest : Bytes}
  {value : Token × Bytes → Text × Option Bytes}

/-- What is known of a parser of values: it fails at a token that starts no value, it only goes
forward, and it does not look at what follows the value. -/
structure Sound (value : Token × Bytes → Text × Option Bytes) : Prop where
  starts : ∀ {tok rest t r}, value (tok, rest) = (t, some r) → tok ≠ .eof ∧ tok ≠ .invalid
  suffix : ∀ {tok rest t r}, value (tok, rest) = (t, some r) → r <:+ rest
  append : ∀ {tok rest t r} (more : Bytes), value (tok, rest) = (t, some r) →
    value (tok, rest ++ more) = (t, some (r ++ more))

/-- One round of the loop of `parse_array` that does not fail. -/
theorem scanItems_succ {fuel : ℕ} {cur : Token × Bytes} {items : Items} :
    scanItems strtod flags value (fuel + 1) cur = (items, some rest) ↔
      cur.1 ≠ .eof ∧ ∃ item r, value cur = (item, some r) ∧
        (lexScan strtod flags r = (.char 93, rest) ∧ items = .item item .closed ∨
          ∃ tail more, lexScan strtod flags r = (.char 44, tail) ∧
            scanItems strtod flags value fuel (lexScan strtod flags tail) = (more, some rest) ∧
            items = .item item more) := by
  rw [scanItems]
  constructor
  · intro h
    by_cases heof : cur.1 = .eof
    · rw [if_pos heof] at h
      cases h
    rw [if_neg heof] at h
    refine ⟨heof, ?_⟩
    split at h
    · cases h
    · next item r hvalue =>
      refine ⟨item, r, hvalue, ?_⟩
      cases hnext : lexScan strtod flags r with
      | mk tok tail =>
        rw [hnext] at h
        dsimp only at h
        split_ifs at h with hcomma hclose
        · obtain ⟨hitems, hrest⟩ := Prod.mk.inj h
          exact .inr ⟨tail, _, by rw [hcomma], Prod.ext rfl hrest, hitems.symm⟩
        · cases h
          exact .inl ⟨by rw [hclose], rfl⟩
        · cases h
  · rintro ⟨heof, item, r, hvalue, h⟩
    rw [if_neg heof, hvalue]
    dsimp only
    rcases h with ⟨hclose, rfl⟩ | ⟨tail, more, hcomma, hrest, rfl⟩
    · rw [hclose, if_neg (by simp), if_pos rfl]
    · rw [hcomma, if_pos rfl, hrest]

/-- One round of the loop of `parse_object` that does not fail. -/
theorem scanMembers_succ {fuel : ℕ} {keys : List Bytes} {cur : Token × Bytes} {members : Members} :
    scanMembers strtod flags value (fuel + 1) keys cur = (members, some rest) ↔
      ∃ key r r' member r'', cur = (.string key, r) ∧
        ¬(0 ∈ key ∨ flags.rejectDuplicates ∧ key ∈ keys) ∧
        lexScan strtod flags r = (.char 58, r') ∧
        value (lexScan strtod flags r') = (member, some r'') ∧
        (lexScan strtod flags r'' = (.char 125, rest) ∧ members = .member key member .closed ∨
          ∃ tail more, lexScan strtod flags r'' = (.char 44, tail) ∧
            scanMembers strtod flags value fuel (key :: keys) (lexScan strtod flags tail) =
              (more, some rest) ∧
            members = .member key member more) := by
  obtain ⟨tok, r⟩ := cur
  simp only [scanMembers]
  constructor
  · intro h
    split at h
    · next key =>
      cases hcolon : lexScan strtod flags r with
      | mk tok r' =>
        rw [hcolon] at h
        dsimp only at h
        by_cases hkey : 0 ∈ key ∨ flags.rejectDuplicates ∧ key ∈ keys
        · rw [if_pos hkey] at h
          cases h
        by_cases hchar : tok = .char 58
        swap
        · rw [if_neg hkey, if_pos hchar] at h
          cases h
        rw [if_neg hkey, if_neg (not_not.mpr hchar)] at h
        split at h
        · cases h
        · next member r'' hvalue =>
          refine ⟨key, r, r', member, r'', rfl, hkey, by rw [hcolon, hchar], hvalue, ?_⟩
          cases hnext : lexScan strtod flags r'' with
          | mk tok tail =>
            rw [hnext] at h
            dsimp only at h
            split_ifs at h with hcomma hclose
            · obtain ⟨hmembers, hrest⟩ := Prod.mk.inj h
              exact .inr ⟨tail, _, by rw [hcomma], Prod.ext rfl hrest, hmembers.symm⟩
            · cases h
              exact .inl ⟨by rw [hclose], rfl⟩
            · cases h
    · cases h
  · rintro ⟨key, r, r', member, r'', hcur, hkey, hcolon, hvalue, h⟩
    cases hcur
    dsimp only
    rw [if_neg hkey, hcolon, if_neg (by simp), hvalue]
    dsimp only
    rcases h with ⟨hclose, rfl⟩ | ⟨tail, more, hcomma, hrest, rfl⟩
    · rw [hclose, if_neg (by simp), if_pos rfl]
    · rw [hcomma, if_pos rfl, hrest]

/-- A value that is an array. -/
theorem scanValue_array {depth : ℕ} {r : Bytes} {t : Text} :
    scanValue strtod flags (depth + 1) (.char 91, rest) = (t, some r) ↔
      lexScan strtod flags rest = (.char 93, r) ∧ t = .array .closed ∨
      (lexScan strtod flags rest).1 ≠ .char 93 ∧
        ∃ items, scanItems strtod flags (scanValue strtod flags depth) rest.length
          (lexScan strtod flags rest) = (items, some r) ∧ t = .array items := by
  simp only [scanValue]
  rw [if_neg (by decide), if_pos trivial]
  constructor
  · intro h
    split_ifs at h with hclose
    · cases h
      exact .inl ⟨Prod.ext hclose rfl, rfl⟩
    · obtain ⟨hitems, hrest⟩ := Prod.mk.inj h
      exact .inr ⟨hclose, _, Prod.ext rfl hrest, hitems.symm⟩
  · rintro (⟨hclose, rfl⟩ | ⟨hopen, items, hitems, rfl⟩)
    · rw [hclose, if_pos rfl]
    · rw [if_neg hopen, hitems]

/-- A value that is an object. -/
theorem scanValue_object {depth : ℕ} {r : Bytes} {t : Text} :
    scanValue strtod flags (depth + 1) (.char 123, rest) = (t, some r) ↔
      lexScan strtod flags rest = (.char 125, r) ∧ t = .object .closed ∨
      (lexScan strtod flags rest).1 ≠ .char 125 ∧
        ∃ members, scanMembers strtod flags (scanValue strtod flags depth) rest.length []
          (lexScan strtod flags rest) = (members, some r) ∧ t = .object members := by
  simp only [scanValue]
  rw [if_pos trivial]
  constructor
  · intro h
    split_ifs at h with hclose
    · cases h
      exact .inl ⟨Prod.ext hclose rfl, rfl⟩
    · obtain ⟨hmembers, hrest⟩ := Prod.mk.inj h
      exact .inr ⟨hclose, _, Prod.ext rfl hrest, hmembers.symm⟩
  · rintro (⟨hclose, rfl⟩ | ⟨hopen, members, hmembers, rfl⟩)
    · rw [hclose, if_pos rfl]
    · rw [if_neg hopen, hmembers]

theorem lexScan_char_append {text : Bytes} {c : UInt8} (more : Bytes)
    (h : lexScan strtod flags text = (.char c, rest)) :
    lexScan strtod flags (text ++ more) = (.char c, rest ++ more) :=
  lexScan_append more h (by simp) (by simp) (.inr ⟨c, rfl⟩)

theorem lexScan_char_ne_nil {text : Bytes} {c : UInt8}
    (h : lexScan strtod flags text = (.char c, rest)) : text ≠ [] := by
  rintro rfl
  cases h

/-- The token at which a value starts that is followed by something. -/
theorem Sound.lexScan (hv : Sound value) {text r : Bytes} {t : Text} (more : Bytes)
    (h : value (lexScan strtod flags text) = (t, some r)) (hr : r ≠ []) :
    lexScan strtod flags (text ++ more) =
      ((lexScan strtod flags text).1, (lexScan strtod flags text).2 ++ more) := by
  obtain ⟨heof, hinvalid⟩ := hv.starts h
  exact lexScan_append more rfl heof hinvalid (.inl ((hv.suffix h).ne_nil hr))

theorem scanItems_suffix (hv : Sound value) {fuel : ℕ} {cur : Token × Bytes} {items : Items}
    (h : scanItems strtod flags value fuel cur = (items, some rest)) : rest <:+ cur.2 := by
  induction fuel generalizing cur items with
  | zero => cases h
  | succ fuel ih =>
    obtain ⟨-, item, r, hvalue, hnext⟩ := scanItems_succ.mp h
    refine List.IsSuffix.trans ?_ (hv.suffix hvalue)
    have hlex := lexScan_suffix strtod flags r
    rcases hnext with ⟨hclose, -⟩ | ⟨tail, more, hcomma, hmore, -⟩
    · rw [hclose] at hlex
      exact hlex
    · rw [hcomma] at hlex
      exact ((ih hmore).trans (lexScan_suffix strtod flags tail)).trans hlex

theorem scanMembers_suffix (hv : Sound value) {fuel : ℕ} {keys : List Bytes} {cur : Token × Bytes}
    {members : Members}
    (h : scanMembers strtod flags value fuel keys cur = (members, some rest)) : rest <:+ cur.2 := by
  induction fuel generalizing keys cur members with
  | zero => cases h
  | succ fuel ih =>
    obtain ⟨key, r, r', member, r'', rfl, -, hcolon, hvalue, hnext⟩ := scanMembers_succ.mp h
    have hafter : r'' <:+ r := by
      have hlex := lexScan_suffix strtod flags r
      rw [hcolon] at hlex
      exact ((hv.suffix hvalue).trans (lexScan_suffix strtod flags r')).trans hlex
    refine List.IsSuffix.trans ?_ hafter
    have hlex := lexScan_suffix strtod flags r''
    rcases hnext with ⟨hclose, -⟩ | ⟨tail, more, hcomma, hmore, -⟩
    · rw [hclose] at hlex
      exact hlex
    · rw [hcomma] at hlex
      exact ((ih hmore).trans (lexScan_suffix strtod flags tail)).trans hlex

theorem scanItems_starts (hv : Sound value) {fuel : ℕ} {text : Bytes} {items : Items}
    (more : Bytes)
    (h : scanItems strtod flags value fuel (lexScan strtod flags text) = (items, some rest)) :
    lexScan strtod flags (text ++ more) =
      ((lexScan strtod flags text).1, (lexScan strtod flags text).2 ++ more) := by
  cases fuel with
  | zero => cases h
  | succ fuel =>
    obtain ⟨-, item, r, hvalue, hnext⟩ := scanItems_succ.mp h
    have hr : r ≠ [] := by
      rcases hnext with ⟨hclose, -⟩ | ⟨tail, items', hcomma, -⟩
      · exact lexScan_char_ne_nil hclose
      · exact lexScan_char_ne_nil hcomma
    exact hv.lexScan more hvalue hr

theorem scanMembers_starts {fuel : ℕ} {keys : List Bytes} {text : Bytes} {members : Members}
    (more : Bytes)
    (h : scanMembers strtod flags value fuel keys (lexScan strtod flags text) =
      (members, some rest)) :
    lexScan strtod flags (text ++ more) =
      ((lexScan strtod flags text).1, (lexScan strtod flags text).2 ++ more) := by
  cases fuel with
  | zero => cases h
  | succ fuel =>
    obtain ⟨key, r, r', member, r'', hcur, -, hcolon, -⟩ := scanMembers_succ.mp h
    rw [hcur]
    exact lexScan_append more hcur (by simp) (by simp) (.inl (lexScan_char_ne_nil hcolon))

/-- An array that is closed is read in the same way whatever follows it. -/
theorem scanItems_append (hv : Sound value) {fuel fuel' : ℕ} {text : Bytes} {items : Items}
    (more : Bytes) (hfuel : fuel ≤ fuel')
    (h : scanItems strtod flags value fuel (lexScan strtod flags text) = (items, some rest)) :
    scanItems strtod flags value fuel' (lexScan strtod flags (text ++ more)) =
      (items, some (rest ++ more)) := by
  induction fuel generalizing fuel' text items with
  | zero => cases h
  | succ fuel ih =>
    obtain ⟨fuel', rfl⟩ := Nat.exists_eq_succ_of_ne_zero (by omega : fuel' ≠ 0)
    rw [scanItems_starts hv more h]
    obtain ⟨heof, item, r, hvalue, hnext⟩ := scanItems_succ.mp h
    refine scanItems_succ.mpr ⟨heof, item, r ++ more, hv.append more hvalue, ?_⟩
    rcases hnext with ⟨hclose, rfl⟩ | ⟨tail, items', hcomma, hmore, rfl⟩
    · exact .inl ⟨lexScan_char_append more hclose, rfl⟩
    · exact .inr ⟨tail ++ more, items', lexScan_char_append more hcomma, ih (by omega) hmore, rfl⟩

/-- An object that is closed is read in the same way whatever follows it. -/
theorem scanMembers_append (hv : Sound value) {fuel fuel' : ℕ} {keys : List Bytes} {text : Bytes}
    {members : Members} (more : Bytes) (hfuel : fuel ≤ fuel')
    (h : scanMembers strtod flags value fuel keys (lexScan strtod flags text) =
      (members, some rest)) :
    scanMembers strtod flags value fuel' keys (lexScan strtod flags (text ++ more)) =
      (members, some (rest ++ more)) := by
  induction fuel generalizing fuel' keys text members with
  | zero => cases h
  | succ fuel ih =>
    obtain ⟨fuel', rfl⟩ := Nat.exists_eq_succ_of_ne_zero (by omega : fuel' ≠ 0)
    rw [scanMembers_starts more h]
    obtain ⟨key, r, r', member, r'', hcur, hkey, hcolon, hvalue, hnext⟩ := scanMembers_succ.mp h
    have hr : r'' ≠ [] := by
      rcases hnext with ⟨hclose, -⟩ | ⟨tail, members', hcomma, -⟩
      · exact lexScan_char_ne_nil hclose
      · exact lexScan_char_ne_nil hcomma
    rw [hcur]
    refine scanMembers_succ.mpr ⟨key, r ++ more, r' ++ more, member, r'' ++ more, rfl, hkey,
      lexScan_char_append more hcolon, ?_, ?_⟩
    · rw [hv.lexScan more hvalue hr]
      exact hv.append more hvalue
    · rcases hnext with ⟨hclose, rfl⟩ | ⟨tail, members', hcomma, hmore, rfl⟩
      · exact .inl ⟨lexScan_char_append more hclose, rfl⟩
      · exact .inr ⟨tail ++ more, members', lexScan_char_append more hcomma, ih (by omega) hmore,
          rfl⟩

/-- A value starts with a bracket or is one token. -/
theorem scanValue_cases {depth : ℕ} {tok : Token} {r : Bytes} {t : Text}
    (h : scanValue strtod flags (depth + 1) (tok, rest) = (t, some r)) :
    tok = .char 123 ∨ tok = .char 91 ∨ (tok ≠ .eof ∧ tok ≠ .invalid) ∧ r = rest ∧
      ∀ rest', scanValue strtod flags (depth + 1) (tok, rest') = (t, some rest') := by
  cases tok with
  | eof => cases h
  | invalid => cases h
  | char c =>
    by_cases hobject : c = 123
    · exact .inl (by rw [hobject])
    by_cases harray : c = 91
    · exact .inr (.inl (by rw [harray]))
    simp only [scanValue, if_neg hobject, if_neg harray] at h
    cases h
  | string value =>
    simp only [scanValue] at h ⊢
    split_ifs at h with hnul
    · cases h
    · cases h
      exact .inr (.inr ⟨⟨nofun, nofun⟩, rfl, fun _ => if_neg hnul⟩)
  | integer value =>
    cases h
    exact .inr (.inr ⟨⟨nofun, nofun⟩, rfl, fun _ => rfl⟩)
  | real value =>
    cases h
    exact .inr (.inr ⟨⟨nofun, nofun⟩, rfl, fun _ => rfl⟩)
  | true =>
    cases h
    exact .inr (.inr ⟨⟨nofun, nofun⟩, rfl, fun _ => rfl⟩)
  | false =>
    cases h
    exact .inr (.inr ⟨⟨nofun, nofun⟩, rfl, fun _ => rfl⟩)
  | null =>
    cases h
    exact .inr (.inr ⟨⟨nofun, nofun⟩, rfl, fun _ => rfl⟩)

theorem scanValue_suffix {depth : ℕ} (hv : Sound (scanValue strtod flags depth)) {tok : Token}
    {r : Bytes} {t : Text} (h : scanValue strtod flags (depth + 1) (tok, rest) = (t, some r)) :
    r <:+ rest := by
  have hlex := lexScan_suffix strtod flags rest
  rcases scanValue_cases h with rfl | rfl | ⟨-, rfl, -⟩
  · rcases scanValue_object.mp h with ⟨hclose, -⟩ | ⟨-, members, hmembers, -⟩
    · rw [hclose] at hlex
      exact hlex
    · exact (scanMembers_suffix hv hmembers).trans hlex
  · rcases scanValue_array.mp h with ⟨hclose, -⟩ | ⟨-, items, hitems, -⟩
    · rw [hclose] at hlex
      exact hlex
    · exact (scanItems_suffix hv hitems).trans hlex
  · exact List.suffix_rfl

theorem scanValue_append {depth : ℕ} (hv : Sound (scanValue strtod flags depth)) {tok : Token}
    {r : Bytes} {t : Text} (more : Bytes)
    (h : scanValue strtod flags (depth + 1) (tok, rest) = (t, some r)) :
    scanValue strtod flags (depth + 1) (tok, rest ++ more) = (t, some (r ++ more)) := by
  have hfuel : rest.length ≤ (rest ++ more).length := by simp
  rcases scanValue_cases h with rfl | rfl | ⟨-, rfl, hscalar⟩
  · rcases scanValue_object.mp h with ⟨hclose, rfl⟩ | ⟨hopen, members, hmembers, rfl⟩
    · exact scanValue_object.mpr (.inl ⟨lexScan_char_append more hclose, rfl⟩)
    · refine scanValue_object.mpr (.inr ⟨?_, members, scanMembers_append hv more hfuel hmembers, rfl⟩)
      rw [scanMembers_starts more hmembers]
      exact hopen
  · rcases scanValue_array.mp h with ⟨hclose, rfl⟩ | ⟨hopen, items, hitems, rfl⟩
    · exact scanValue_array.mpr (.inl ⟨lexScan_char_append more hclose, rfl⟩)
    · refine scanValue_array.mpr (.inr ⟨?_, items, scanItems_append hv more hfuel hitems, rfl⟩)
      rw [scanItems_starts hv more hitems]
      exact hopen
  · exact hscalar _

/-- A value is read in the same way whatever follows it. -/
theorem scanValue_sound (strtod : Bytes → Option Double) (flags : LoadFlags) (depth : ℕ) :
    Sound (scanValue strtod flags depth) := by
  induction depth with
  | zero => exact ⟨nofun, nofun, nofun⟩
  | succ depth ih =>
    refine ⟨fun h => ?_, fun h => scanValue_suffix ih h, fun more h => scanValue_append ih more h⟩
    rcases scanValue_cases h with rfl | rfl | ⟨hstart, -⟩
    · exact ⟨nofun, nofun⟩
    · exact ⟨nofun, nofun⟩
    · exact hstart

theorem lexScan_char_length {text : Bytes} {c : UInt8}
    (h : lexScan strtod flags text = (.char c, rest)) : rest.length < text.length := by
  have hle : (text.dropWhile isBlank).length ≤ text.length := (List.dropWhile_suffix _).length_le
  rw [lexScan] at h
  cases hblank : text.dropWhile isBlank with
  | nil =>
    rw [hblank] at h
    cases h
  | cons b tail =>
    rw [hblank] at h hle
    dsimp only at h
    split_ifs at h
    · cases h
      exact hle
    · split at h <;> cases h
    · split at h
      · next number _ _ => cases number <;> cases h
      · cases h
    · unfold identifier at h
      split_ifs at h <;> cases h
    · cases h

/-- Every round of `parse_array` reads a comma, so its fuel lasts. -/
theorem scanItems_fuel (hv : Sound value) {fuel fuel' : ℕ} {cur : Token × Bytes}
    (hfuel : cur.2.length < fuel) (hfuel' : cur.2.length < fuel') :
    scanItems strtod flags value fuel cur = scanItems strtod flags value fuel' cur := by
  induction fuel generalizing fuel' cur with
  | zero => omega
  | succ fuel ih =>
    obtain ⟨fuel', rfl⟩ := Nat.exists_eq_succ_of_ne_zero (by omega : fuel' ≠ 0)
    rw [scanItems, scanItems]
    cases hvalue : value cur with
    | mk item rest =>
      cases rest with
      | none => rfl
      | some rest =>
        have hrest := (hv.suffix hvalue).length_le
        by_cases hcomma : (lexScan strtod flags rest).1 = .char 44
        · have hless : (lexScan strtod flags rest).2.length < rest.length :=
            lexScan_char_length (Prod.ext hcomma rfl)
          have hlex := (lexScan_suffix strtod flags (lexScan strtod flags rest).2).length_le
          have hmore := @ih fuel' (lexScan strtod flags (lexScan strtod flags rest).2) (by omega)
            (by omega)
          simp only [if_pos hcomma, hmore]
        · simp only [if_neg hcomma]

theorem scanMembers_fuel (hv : Sound value) {fuel fuel' : ℕ} {keys : List Bytes}
    {cur : Token × Bytes} (hfuel : cur.2.length < fuel) (hfuel' : cur.2.length < fuel') :
    scanMembers strtod flags value fuel keys cur =
      scanMembers strtod flags value fuel' keys cur := by
  induction fuel generalizing fuel' keys cur with
  | zero => omega
  | succ fuel ih =>
    obtain ⟨fuel', rfl⟩ := Nat.exists_eq_succ_of_ne_zero (by omega : fuel' ≠ 0)
    obtain ⟨tok, r⟩ := cur
    cases tok with
    | string key =>
      simp only [scanMembers]
      have hcolon := (lexScan_suffix strtod flags r).length_le
      have hstart := (lexScan_suffix strtod flags (lexScan strtod flags r).2).length_le
      cases hvalue : value (lexScan strtod flags (lexScan strtod flags r).2) with
      | mk member rest =>
        cases rest with
        | none => rfl
        | some rest =>
          have hrest : rest.length ≤ (lexScan strtod flags (lexScan strtod flags r).2).2.length :=
            List.IsSuffix.length_le (hv.suffix hvalue)
          by_cases hcomma : (lexScan strtod flags rest).1 = .char 44
          · have hless : (lexScan strtod flags rest).2.length < rest.length :=
              lexScan_char_length (Prod.ext hcomma rfl)
            have hlex := (lexScan_suffix strtod flags (lexScan strtod flags rest).2).length_le
            dsimp only at hfuel hfuel'
            have hmore := @ih fuel' (key :: keys)
              (lexScan strtod flags (lexScan strtod flags rest).2) (by omega) (by omega)
            simp only [if_pos hcomma, hmore]
          · simp only [if_neg hcomma]
    | _ => rfl

end LongerValues

end RipExt.Json
