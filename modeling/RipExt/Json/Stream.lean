import RipExt.Json.Encode

/-! The lexer of `load.c` as it is written: a stream that decodes one character at a time and takes
one byte back, the text of the token that is being read, and the first error. -/
namespace RipExt.Json

section Errors

/-- The codes of `json_error_code` that the decoder uses. -/
inductive ErrorCode where
  | unknown | stackOverflow | invalidUtf8 | prematureEndOfInput | endOfInputExpected
  | invalidSyntax | nullCharacter | nullByteInKey | duplicateKey | numericOverflow
  deriving DecidableEq, Repr

/-- What the decoder complains about. -/
inductive Complaint where
  | undecodable (byte : UInt8)
  | prematureEnd
  | newline
  | control (byte : UInt8)
  | invalidEscape
  | invalidUnicodeEscape (escape : Bytes)
  | invalidUnicode (value : ℕ)
  | invalidPair (value value2 : ℕ)
  | tooBigNegative | tooBig | realOverflow
  | keyExpected | nulInKey | duplicateKey | colonExpected | braceExpected | bracketExpected
  | depth | nulInString | invalidToken | unexpectedToken | containerExpected | endExpected
  deriving DecidableEq, Repr

def Complaint.code : Complaint → ErrorCode
  | .undecodable _ => .invalidUtf8
  | .prematureEnd => .prematureEndOfInput
  | .tooBigNegative | .tooBig | .realOverflow => .numericOverflow
  | .nulInKey => .nullByteInKey
  | .duplicateKey => .duplicateKey
  | .depth => .stackOverflow
  | .nulInString => .nullCharacter
  | .endExpected => .endOfInputExpected
  | _ => .invalidSyntax

/-- The characters of a text in ASCII. -/
def chars (text : String) : Bytes := text.toList.map fun c => c.toNat.toUInt8

/-- `%x`. -/
def lowerHex (n : ℕ) : Bytes := (Nat.toDigits 16 n).map fun c => c.toNat.toUInt8

def Complaint.text : Complaint → Bytes
  | .undecodable byte => chars "unable to decode byte 0x" ++ lowerHex byte.toNat
  | .prematureEnd => chars "premature end of input"
  | .newline => chars "unexpected newline"
  | .control byte => chars "control character 0x" ++ lowerHex byte.toNat
  | .invalidEscape => chars "invalid escape"
  | .invalidUnicodeEscape escape => chars "invalid Unicode escape '" ++ escape.take 6 ++ [39]
  | .invalidUnicode value => chars "invalid Unicode '" ++ Dump.unicodeEscape value ++ [39]
  | .invalidPair value value2 =>
    chars "invalid Unicode '" ++ Dump.unicodeEscape value ++ Dump.unicodeEscape value2 ++ [39]
  | .tooBigNegative => chars "too big negative integer"
  | .tooBig => chars "too big integer"
  | .realOverflow => chars "real number overflow"
  | .keyExpected => chars "string or '" ++ [125] ++ chars "' expected"
  | .nulInKey => chars "NUL byte in object key not supported"
  | .duplicateKey => chars "duplicate object key"
  | .colonExpected => chars "':' expected"
  | .braceExpected => [39, 125] ++ chars "' expected"
  | .bracketExpected => chars "']' expected"
  | .depth => chars "maximum parsing depth reached"
  | .nulInString => 92 :: chars "u0000 is not allowed without JSON_ALLOW_NUL"
  | .invalidToken => chars "invalid token"
  | .unexpectedToken => chars "unexpected token"
  | .containerExpected => chars "'[' or '" ++ [123] ++ chars "' expected"
  | .endExpected => chars "end of file expected"

/-- `json_error_t`, without the source. -/
structure Report where
  line : ℤ := -1
  column : ℤ := -1
  position : ℕ := 0
  code : ErrorCode := .unknown
  text : Bytes := []
  deriving DecidableEq, Repr

/-- `jsonp_error_vset`: the first error stays. -/
def Report.set (r : Report) (line column position : ℕ) (code : ErrorCode) (text : Bytes) : Report :=
  if r.text ≠ [] then r else ⟨line, column, position, code, snprintf 159 text⟩

end Errors

section Streams

inductive StreamState where
  | ok | eof | error
  deriving DecidableEq, Repr

/-- `stream_t`. The bytes of the buffer behind `buffer` are zero; `source` is what `get` still
returns. -/
structure Stream where
  source : Bytes
  buffer : Bytes := []
  bufferPos : ℕ := 0
  state : StreamState := .ok
  line : ℕ := 1
  column : ℕ := 0
  lastColumn : ℕ := 0
  position : ℕ := 0
  deriving DecidableEq, Repr

/-- What `stream_get` returns: a byte, or one of the states that are not `STREAM_STATE_OK`. -/
inductive Got where
  | byte (b : UInt8)
  | eof
  | error
  deriving DecidableEq, Repr

/-- `lex_t` without its token, which `lex_scan` returns, and with the error that is passed along. -/
structure Lex where
  stream : Stream
  savedText : Bytes := []
  error : Report := {}
  deriving DecidableEq, Repr

/-- The bytes up to the first zero. -/
def untilZero (text : Bytes) : Bytes := text.takeWhile (· ≠ 0)

/-- The text that `error_set` makes of a message: with the text of the token, if it is short, or
with the end of the file. A token that starts with a zero byte has no text here. -/
def Complaint.describe (c : Complaint) (savedText : Bytes) (state : StreamState) : Bytes :=
  let message := snprintf 160 c.text
  let saved := untilZero savedText
  if saved ≠ [] then
    if savedText.length ≤ 20 then snprintf 160 (message ++ chars " near '" ++ saved ++ [39])
    else message
  else if state = .error then message
  else snprintf 160 (message ++ chars " near end of file")

/-- A syntax error without a token is a premature end of the input. -/
def Complaint.codeAt (c : Complaint) (savedText : Bytes) : ErrorCode :=
  if untilZero savedText = [] ∧ c.code = .invalidSyntax then .prematureEndOfInput else c.code

/-- `error_set`. -/
def Lex.errorSet (c : Complaint) (l : Lex) : Lex :=
  { l with
    error := l.error.set l.stream.line l.stream.column l.stream.position (c.codeAt l.savedText)
      (c.describe l.savedText l.stream.state) }

/-- The next character of the source in the buffer, and whether it is valid UTF-8. The end of the
source is stored as the byte 0xFF. -/
def fillBuffer (c : UInt8) (source : Bytes) : Bool × Bytes × Bytes :=
  if c.toNat < 0x80 then (true, [c], source)
  else
    let count := utf8CheckFirst c
    if count = 0 then (false, [c], source)
    else
      let buffer := c :: (source ++ List.replicate 3 0xFF).take (count - 1)
      (utf8CheckFull buffer count, buffer, source.drop (count - 1))

/-- The end of `stream_get`: the byte at the position in the buffer is passed. -/
def Stream.pass (s : Stream) : UInt8 × Stream :=
  let c := s.buffer.getD s.bufferPos 0
  let s := { s with bufferPos := s.bufferPos + 1, position := s.position + 1 }
  if c = 10 then (c, { s with line := s.line + 1, lastColumn := s.column, column := 0 })
  else if utf8CheckFirst c ≠ 0 then (c, { s with column := s.column + 1 })
  else (c, s)

def Lex.pass (l : Lex) : Got × Lex :=
  (.byte l.stream.pass.1, { l with stream := l.stream.pass.2 })

/-- `stream_get`, and `lex_get`. -/
def Lex.get (l : Lex) : Got × Lex :=
  match l.stream.state with
  | .eof => (.eof, l)
  | .error => (.error, l)
  | .ok =>
    if l.stream.buffer.getD l.stream.bufferPos 0 = 0 then
      match l.stream.source with
      | [] => (.eof, { l with stream := { l.stream with state := .eof } })
      | c :: source =>
        match fillBuffer c source with
        | (true, buffer, source) =>
          Lex.pass { l with stream := { l.stream with buffer, source, bufferPos := 0 } }
        | (false, buffer, source) =>
          (.error, Lex.errorSet (.undecodable c)
            { l with stream := { l.stream with buffer, source, bufferPos := 0, state := .error } })
    else l.pass

/-- `stream_unget`, and `lex_unget`. -/
def Lex.unget (c : Got) (l : Lex) : Lex :=
  match c with
  | .eof | .error => l
  | .byte c =>
    let s := l.stream
    let s := { s with position := s.position - 1, bufferPos := s.bufferPos - 1 }
    if c = 10 then { l with stream := { s with line := s.line - 1, column := s.lastColumn } }
    else if utf8CheckFirst c ≠ 0 then { l with stream := { s with column := s.column - 1 } }
    else { l with stream := s }

/-- `lex_save`. -/
def Lex.save (c : Got) (l : Lex) : Lex :=
  match c with
  | .eof | .error => l
  | .byte c => { l with savedText := l.savedText ++ [c] }

/-- `lex_get_save`. -/
def Lex.getSave (l : Lex) : Got × Lex := (l.get.1, l.get.2.save l.get.1)

/-- `lex_unget_unsave`. -/
def Lex.ungetUnsave (c : Got) (l : Lex) : Lex :=
  match c with
  | .eof | .error => l
  | .byte c => { l.unget (.byte c) with savedText := l.savedText.dropLast }

/-- `lex_save_cached`. -/
def Lex.saveCached : ℕ → Lex → Lex
  | 0, l => l
  | n + 1, l =>
    let c := l.stream.buffer.getD l.stream.bufferPos 0
    if c = 0 then l
    else
      Lex.saveCached n
        { l with
          savedText := l.savedText ++ [c]
          stream :=
            { l.stream with
              bufferPos := l.stream.bufferPos + 1, position := l.stream.position + 1 } }

end Streams

section Strings

/-- `decode_unicode_escape`, after the `u`. -/
def unicodeEscapeValue (str : Bytes) : Option ℕ :=
  (List.range 4).foldlM (fun value i =>
    let c := str.getD i 0
    if isDigit c then some (16 * value + (c.toNat - 48))
    else if 97 ≤ c.toNat ∧ c.toNat ≤ 122 then some (16 * value + (c.toNat - 97 + 10))
    else if 65 ≤ c.toNat ∧ c.toNat ≤ 90 then some (16 * value + (c.toNat - 65 + 10))
    else none) 0

/-- The second loop of `lex_scan_string`, from the character after the opening quote. -/
def decodeLoop : ℕ → Bytes → Except Complaint Bytes
  | 0, _ => .ok []
  | bound + 1, p =>
    match p with
    | [] => .ok []
    | b :: q =>
      if b = 34 then .ok []
      else if b = 92 then
        match q with
        | [] => .ok []
        | c :: rest =>
          if c = 117 then
            match unicodeEscapeValue rest with
            | none => .error (.invalidUnicodeEscape p)
            | some value =>
              let p := rest.drop 4
              if 0xD800 ≤ value ∧ value ≤ 0xDBFF then
                if p.take 2 = [92, 117] then
                  match unicodeEscapeValue (p.drop 2) with
                  | none => .error (.invalidUnicodeEscape p)
                  | some value2 =>
                    if 0xDC00 ≤ value2 ∧ value2 ≤ 0xDFFF then
                      (decodeLoop bound (p.drop 6)).map fun text =>
                        utf8Encode ((value - 0xD800) * 1024 + (value2 - 0xDC00) + 0x10000) ++ text
                    else .error (.invalidPair value value2)
                else .error (.invalidUnicode value)
              else if 0xDC00 ≤ value ∧ value ≤ 0xDFFF then .error (.invalidUnicode value)
              else (decodeLoop bound p).map fun text => utf8Encode value ++ text
          else (decodeLoop bound rest).map fun text => unescape c :: text
      else (decodeLoop bound q).map fun text => b :: text

/-- The hexadecimal digits of an escape: whether all of them are there, and the character behind. -/
def Lex.hexLoop : ℕ → Got → Lex → Bool × Got × Lex
  | 0, c, l => (true, c, l)
  | n + 1, c, l =>
    match c with
    | .byte b => if isXdigit b then Lex.hexLoop n l.getSave.1 l.getSave.2 else (false, c, l)
    | .eof | .error => (false, c, l)

/-- The part of the first loop after a backslash. -/
def Lex.escape (l : Lex) : Bool × Got × Lex :=
  let (c, l) := l.getSave
  match c with
  | .byte b =>
    if b = 117 then
      let (c, l) := l.getSave
      l.hexLoop 4 c
    else if isEscape b then (true, l.getSave)
    else (false, c, l)
  | .eof | .error => (false, c, l)

/-- The first loop of `lex_scan_string` at a character; whether it ends at a quote. -/
def Lex.stringLoop : ℕ → Got → Lex → Bool × Lex
  | 0, _, l => (false, l)
  | bound + 1, c, l =>
    match c with
    | .error => (false, l)
    | .eof => (false, l.errorSet .prematureEnd)
    | .byte b =>
      if b = 34 then (true, l)
      else if b.toNat < 32 then
        (false, (l.ungetUnsave c).errorSet (if b = 10 then .newline else .control b))
      else if b = 92 then
        match l.escape with
        | (true, c, l) => Lex.stringLoop bound c l
        | (false, _, l) => (false, l.errorSet .invalidEscape)
      else Lex.stringLoop bound l.getSave.1 l.getSave.2

/-- `lex_scan_string`. -/
def Lex.scanString (bound : ℕ) (l : Lex) : Token × Lex :=
  match Lex.stringLoop bound l.getSave.1 l.getSave.2 with
  | (false, l) => (.invalid, l)
  | (true, l) =>
    match decodeLoop l.savedText.length (l.savedText.drop 1) with
    | .error c => (.invalid, l.errorSet c)
    | .ok value => (.string value, l)

end Strings

section Numbers
variable (strtod : Bytes → Option Double) (flags : LoadFlags)

/-- `do c = lex_get_save(lex, error); while (p(c));` -/
def Lex.saveWhile (p : UInt8 → Bool) : ℕ → Lex → Got × Lex
  | 0, l => (.eof, l)
  | bound + 1, l =>
    match l.getSave with
    | (.byte b, l) => if p b then Lex.saveWhile p bound l else (.byte b, l)
    | (c, l) => (c, l)

def Got.isDigit (c : Got) : Bool :=
  match c with
  | .byte b => Json.isDigit b
  | .eof | .error => false

/-- The digits before the point, at the first of them. An error stands for `goto out`. -/
def Lex.wholeDigits (bound : ℕ) (c : Got) (l : Lex) : Except Lex (Got × Lex) :=
  if c = .byte 48 then
    let (c, l) := l.getSave
    if c.isDigit then .error (l.ungetUnsave c) else .ok (c, l)
  else if c.isDigit then .ok (l.saveWhile Json.isDigit bound)
  else .error (l.ungetUnsave c)

/-- The fraction, at the character behind the whole digits. -/
def Lex.fraction (bound : ℕ) (c : Got) (l : Lex) : Except Lex (Got × Lex) :=
  if c = .byte 46 then
    let (c, l) := l.get
    if c.isDigit then .ok ((l.save c).saveWhile Json.isDigit bound) else .error (l.unget c)
  else .ok (c, l)

/-- The exponent, at the character behind the fraction. -/
def Lex.exponent (bound : ℕ) (c : Got) (l : Lex) : Except Lex (Got × Lex) :=
  if c = .byte 69 ∨ c = .byte 101 then
    let (c, l) := l.getSave
    let (c, l) := if c = .byte 43 ∨ c = .byte 45 then l.getSave else (c, l)
    if c.isDigit then .ok (l.saveWhile Json.isDigit bound) else .error (l.ungetUnsave c)
  else .ok (c, l)

/-- `lex_scan_number` once the whole digits are read, at the character behind them. -/
def Lex.numberTail (bound : ℕ) (c : Got) (l : Lex) : Token × Lex :=
  if flags.decodeIntAsReal = false ∧ c ≠ .byte 46 ∧ c ≠ .byte 69 ∧ c ≠ .byte 101 then
    let l := l.ungetUnsave c
    match jsonStrtoint l.savedText with
    | (value, true) => (.invalid, l.errorSet (if value < 0 then .tooBigNegative else .tooBig))
    | (value, false) => (.integer value, l)
  else
    match l.fraction bound c with
    | .error l => (.invalid, l)
    | .ok (c, l) =>
      match l.exponent bound c with
      | .error l => (.invalid, l)
      | .ok (c, l) =>
        let l := l.ungetUnsave c
        match strtod l.savedText with
        | none => (.invalid, l.errorSet .realOverflow)
        | some value => (.real value, l)

/-- `lex_scan_number`, at the first character. -/
def Lex.scanNumber (bound : ℕ) (c : Got) (l : Lex) : Token × Lex :=
  let (c, l) := if c = .byte 45 then l.getSave else (c, l)
  match l.wholeDigits bound c with
  | .error l => (.invalid, l)
  | .ok (c, l) => l.numberTail strtod flags bound c

end Numbers

section Scanning
variable (strtod : Bytes → Option Double) (flags : LoadFlags)

/-- `do c = lex_get(lex, error); while (c == ' ' || ...);` -/
def Lex.skipBlanks : ℕ → Lex → Got × Lex
  | 0, l => (.eof, l)
  | bound + 1, l =>
    match l.get with
    | (.byte b, l) => if isBlank b then Lex.skipBlanks bound l else (.byte b, l)
    | (c, l) => (c, l)

/-- `lex_scan`. No loop takes more rounds than `bound`. -/
def Lex.scan (bound : ℕ) (l : Lex) : Token × Lex :=
  match Lex.skipBlanks bound { l with savedText := [] } with
  | (.eof, l) => (.eof, l)
  | (.error, l) => (.invalid, l)
  | (.byte b, l) =>
    let l := l.save (.byte b)
    if isPunctuation b then (.char b, l)
    else if b = 34 then l.scanString bound
    else if Json.isDigit b || b = 45 then l.scanNumber strtod flags bound (.byte b)
    else if isAlpha b then
      let (c, l) := l.saveWhile isAlpha bound
      let l := l.ungetUnsave c
      (identifier l.savedText, l)
    else (.invalid, l.saveCached 5)

end Scanning

end RipExt.Json
