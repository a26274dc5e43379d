import RipExt.Json.Stream

/-! The parser of `load.c` over the lexer as it is written, with the error that each exit
reports. -/
namespace RipExt.Json

section Values
variable (strtod : Bytes → Option Double) (flags : LoadFlags) (bound : ℕ)

/-- The loop of `parse_array` at a token, and whether it reaches the end of the array. -/
def Lex.parseItems (value : Token × Lex → Text × Bool × Lex) : ℕ → Token × Lex → Items × Bool × Lex
  | 0, cur => (.broken, false, cur.2)
  | rounds + 1, cur =>
    if cur.1 = .eof then (.broken, false, cur.2.errorSet .bracketExpected)
    else
      match value cur with
      | (item, false, l) => (.item item .broken, false, l)
      | (item, true, l) =>
        let next := l.scan strtod flags bound
        if next.1 = .char 44 then
          let more := Lex.parseItems value rounds (next.2.scan strtod flags bound)
          (.item item more.1, more.2)
        else if next.1 = .char 93 then (.item item .closed, true, next.2)
        else (.item item .broken, false, next.2.errorSet .bracketExpected)

/-- The loop of `parse_object` at a token, with the keys of the object so far. -/
def Lex.parseMembers (value : Token × Lex → Text × Bool × Lex) :
    ℕ → List Bytes → Token × Lex → Members × Bool × Lex
  | 0, _, cur => (.broken, false, cur.2)
  | rounds + 1, keys, cur =>
    match cur.1 with
    | .string key =>
      if 0 ∈ key then (.broken, false, cur.2.errorSet .nulInKey)
      else if flags.rejectDuplicates ∧ keys.contains key then
        (.broken, false, cur.2.errorSet .duplicateKey)
      else
        let colon := cur.2.scan strtod flags bound
        if colon.1 ≠ .char 58 then (.broken, false, colon.2.errorSet .colonExpected)
        else
          match value (colon.2.scan strtod flags bound) with
          | (member, false, l) => (.member key member .broken, false, l)
          | (member, true, l) =>
            let next := l.scan strtod flags bound
            if next.1 = .char 44 then
              let more :=
                Lex.parseMembers value rounds (key :: keys) (next.2.scan strtod flags bound)
              (.member key member more.1, more.2)
            else if next.1 = .char 125 then (.member key member .closed, true, next.2)
            else (.member key member .broken, false, next.2.errorSet .braceExpected)
    | _ => (.broken, false, cur.2.errorSet .keyExpected)

/-- `parse_value`; `depth` is what is left of `JSON_PARSER_MAX_DEPTH`. -/
def Lex.parseValue : ℕ → Token × Lex → Text × Bool × Lex
  | 0, cur => (.invalid, false, cur.2.errorSet .depth)
  | depth + 1, cur =>
    match cur.1 with
    | .string value =>
      if 0 ∈ value ∧ flags.allowNul = false then (.invalid, false, cur.2.errorSet .nulInString)
      else (.string value, true, cur.2)
    | .integer value => (.integer value, true, cur.2)
    | .real value => (.real value, true, cur.2)
    | .true => (.true, true, cur.2)
    | .false => (.false, true, cur.2)
    | .null => (.null, true, cur.2)
    | .char c =>
      let first := cur.2.scan strtod flags bound
      if c = 123 then
        if first.1 = .char 125 then (.object .closed, true, first.2)
        else
          let members := Lex.parseMembers strtod flags bound (Lex.parseValue depth) bound [] first
          (.object members.1, members.2)
      else if c = 91 then
        if first.1 = .char 93 then (.array .closed, true, first.2)
        else
          let items := Lex.parseItems strtod flags bound (Lex.parseValue depth) bound first
          (.array items.1, items.2)
      else (.invalid, false, cur.2.errorSet .unexpectedToken)
    | .eof => (.invalid, false, cur.2.errorSet .unexpectedToken)
    | .invalid => (.invalid, false, cur.2.errorSet .invalidToken)

/-- `parse_json`: the tree, whether there is a result, and the lexer at the end. -/
def Lex.parseJson (l : Lex) : Text × Bool × Lex :=
  let first := l.scan strtod flags bound
  if flags.decodeAny = false ∧ first.1 ≠ .char 91 ∧ first.1 ≠ .char 123 then
    (.invalid, false, first.2.errorSet .containerExpected)
  else
    match Lex.parseValue strtod flags bound jsonParserMaxDepth first with
    | (text, false, l) => (text, false, l)
    | (text, true, l) =>
      let last := l.scan strtod flags bound
      if flags.disableEofCheck then
        (text, true, { l with error := { l.error with position := l.stream.position } })
      else if last.1 ≠ .eof then (text, false, last.2.errorSet .endExpected)
      else
        (text, true,
          { last.2 with error := { last.2.error with position := last.2.stream.position } })

end Values

section Loading
variable (strtod : Bytes → Option Double) (flags : LoadFlags)

/-- `lex_init`. -/
def Lex.init (source : Bytes) : Lex := { stream := { source } }

/-- `json_loadb`; `json_loads` and `json_loadf` differ in the `get` of the stream. No loop takes
more rounds than there are bytes in the source, and one. -/
def load (source : Bytes) : Text × Bool × Lex :=
  (Lex.init source).parseJson strtod flags (source.length + 1)

/-- What the decoder reports about a source. -/
def loadError (source : Bytes) : Report := (load strtod flags source).2.2.error

/-- The part of a report that the natives read. -/
def Report.jsonError (r : Report) : JsonError := ⟨r.line, r.column, r.text⟩

/-- The document that the natives are given. -/
def loadDocument (source : Bytes) : Document :=
  ⟨(load strtod flags source).1, (load strtod flags source).2.1,
    (loadError strtod flags source).jsonError⟩

end Loading

end RipExt.Json
