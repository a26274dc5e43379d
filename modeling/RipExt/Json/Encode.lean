import RipExt.Json.Scan
import Mathlib.Data.List.Sort

/-! The encoder of `dump.c` with all of its flags, over the callback that takes the text piece by
piece. -/
namespace RipExt.Json

/-- The flags of the encoder. -/
structure DumpFlags where
  indent : ℕ := 0
  compact : Bool := false
  ensureAscii : Bool := false
  sortKeys : Bool := false
  encodeAny : Bool := false
  escapeSlash : Bool := false
  precision : ℕ := 0
  embed : Bool := false
  deriving DecidableEq, Repr

/-- The flags in the bits of an argument. `JSON_PRESERVE_ORDER` is the bit 8, which nothing
reads. -/
def DumpFlags.ofNat (flags : ℕ) : DumpFlags where
  indent := flags % 32
  compact := flags.testBit 5
  ensureAscii := flags.testBit 6
  sortKeys := flags.testBit 7
  encodeAny := flags.testBit 9
  escapeSlash := flags.testBit 10
  precision := flags / 2 ^ 11 % 32
  embed := flags.testBit 16

/-- A `json_dump_callback_t` with its data: it takes some bytes and succeeds or not. -/
abbrev Sink (σ : Type*) := Bytes → σ → σ × Bool

/-- A part of the encoder: it writes to the callback and succeeds or not. There is no result where
it would read freed memory. -/
def Dump (σ : Type*) := σ → Option (σ × Bool)

namespace Dump
variable {σ : Type*}

section Control

def done : Dump σ := fun out => some (out, true)

def fail : Dump σ := fun out => some (out, false)

def emit (dump : Sink σ) (chunk : Bytes) : Dump σ := fun out => some (dump chunk out)

/-- The second part runs if the first one succeeds. -/
def andThen (p q : Dump σ) : Dump σ := fun out =>
  (p out).bind fun r => if r.2 then q r.1 else some r

/-- What a part returns is not looked at. -/
def ignoring (p : Dump σ) : Dump σ := fun out => (p out).map fun r => (r.1, true)

/-- A text that may have come out too long for its buffer. -/
def emitText (dump : Sink σ) : Option Bytes → Dump σ
  | none => fail
  | some text => emit dump text

end Control

section Strings
variable (dump : Sink σ) (flags : DumpFlags)

/-- The loop of `dump_indent`, which writes at most 32 spaces at a time. -/
def dumpSpaces : ℕ → ℕ → Dump σ
  | _, 0 => done
  | 0, _ + 1 => fun _ => none
  | fuel + 1, n + 1 =>
    (emit dump (List.replicate (min (n + 1) 32) 32)).andThen
      (dumpSpaces fuel (n + 1 - min (n + 1) 32))

/-- `dump_indent`; the number of spaces is an `unsigned int`. -/
def dumpIndent (depth : ℕ) (space : Bool) : Dump σ :=
  if 0 < flags.indent then
    (emit dump [10]).andThen
      (dumpSpaces dump (depth * flags.indent % 2 ^ 32) (depth * flags.indent % 2 ^ 32))
  else if space && !flags.compact then emit dump [32]
  else done

/-- The character that `utf8_check_full` stores. -/
def utf8Value (buffer : Bytes) (size : ℕ) : Option ℕ :=
  match buffer with
  | [] => none
  | b :: bs =>
    if utf8CheckFull buffer size then
      utf8Continue (b.toNat % if size = 2 then 32 else if size = 3 then 16 else 8) bs
    else none

/-- `utf8_iterate` on a buffer that is not empty: the character and how many bytes it has. -/
def utf8Iterate (buffer : Bytes) : Option (ℕ × ℕ) :=
  match buffer with
  | [] => none
  | b :: _ =>
    match utf8CheckFirst b with
    | 0 => none
    | 1 => some (b.toNat, 1)
    | count + 2 =>
      if buffer.length < count + 2 then none
      else (utf8Value (buffer.take (count + 2)) (count + 2)).map fun value => (value, count + 2)

/-- The characters that are not written as they are. -/
def escapes (codepoint : ℕ) : Bool :=
  codepoint = 92 || codepoint = 34 || codepoint < 0x20 ||
    (flags.escapeSlash && codepoint = 47) || (flags.ensureAscii && 0x7F < codepoint)

/-- `\u%04X`. -/
def unicodeEscape (value : ℕ) : Bytes :=
  [92, 117, Percent.hexDigit (value / 4096 % 16), Percent.hexDigit (value / 256 % 16),
    Percent.hexDigit (value / 16 % 16), Percent.hexDigit (value % 16)]

/-- The text of a character that is escaped, a surrogate pair outside the BMP. -/
def escapeText (codepoint : ℕ) : Bytes :=
  if codepoint = 92 then [92, 92]
  else if codepoint = 34 then [92, 34]
  else if codepoint = 8 then [92, 98]
  else if codepoint = 12 then [92, 102]
  else if codepoint = 10 then [92, 110]
  else if codepoint = 13 then [92, 114]
  else if codepoint = 9 then [92, 116]
  else if codepoint = 47 then [92, 47]
  else if codepoint < 0x10000 then unicodeEscape codepoint
  else unicodeEscape (0xD800 + (codepoint - 0x10000) / 1024) ++
    unicodeEscape (0xDC00 + (codepoint - 0x10000) % 1024)

/-- What stands between `str` and `pos`. -/
def dumpPending (pending : Bytes) : Dump σ := if pending = [] then done else emit dump pending

/-- The loop of `dump_string` from `pos` on; `pending` is lost if the next sequence is not UTF-8. -/
def dumpChars : ℕ → Bytes → Bytes → Dump σ
  | _, pending, [] => (dumpPending dump pending).andThen (emit dump [34])
  | 0, _, _ :: _ => fun _ => none
  | fuel + 1, pending, b :: bs =>
    match utf8Iterate (b :: bs) with
    | none => fail
    | some (codepoint, count) =>
      if escapes flags codepoint then
        (dumpPending dump pending).andThen
          ((emit dump (escapeText codepoint)).andThen (dumpChars fuel [] ((b :: bs).drop count)))
      else dumpChars fuel (pending ++ (b :: bs).take count) ((b :: bs).drop count)

def dumpString (str : Bytes) : Dump σ :=
  (emit dump [34]).andThen (dumpChars dump flags str.length [] str)

end Strings

section Containers
variable (printf : ℕ → Double → Bytes) (s : Store) (dump : Sink σ) (flags : DumpFlags)

/-- The loop over the children of a container: `last` follows the last one, `comma` the others. -/
def dumpChildren (comma last : Dump σ) : List (Dump σ) → Dump σ
  | [] => done
  | [child] => child.andThen last
  | child :: next :: rest =>
    child.andThen (comma.andThen (dumpChildren comma last (next :: rest)))

/-- What the two kinds of container have in common. -/
def dumpContainer (embed : Bool) (depth : ℕ) (opening closing : UInt8) (children : List (Dump σ)) :
    Dump σ :=
  let bracket (b : UInt8) : Dump σ := if embed then done else emit dump [b]
  let comma := (emit dump [44]).andThen (dumpIndent dump flags (depth + 1) true)
  (bracket opening).andThen <|
    if children.isEmpty then bracket closing
    else (dumpIndent dump flags (depth + 1) false).andThen <|
      (dumpChildren comma (dumpIndent dump flags depth false) children).andThen (bracket closing)

def separator : Bytes := if flags.compact then [58] else [58, 32]

/-- One pair. What `dump_string` returns for the key is not looked at. -/
def dumpMember (value : Ref → Dump σ) (key : Bytes) : Option Ref → Dump σ
  | none => fun _ => none
  | some v => (dumpString dump flags key).ignoring.andThen
      ((emit dump (separator flags)).andThen (value v))

/-- `strcmp` on two keys. -/
def compareKeys (key1 key2 : Bytes) : Prop := key1.map UInt8.toNat ≤ key2.map UInt8.toNat

instance : DecidableRel compareKeys := fun key1 key2 =>
  inferInstanceAs (Decidable (key1.map UInt8.toNat ≤ key2.map UInt8.toNat))

/-- The pairs in the order they are written: as they were inserted, or each key in the order of
`qsort` with what `json_object_get` finds under it. -/
def orderedMembers (entries : List Entry) : List (Bytes × Option Ref) :=
  if flags.sortKeys then
    ((entries.map (·.key)).insertionSort compareKeys).map fun key => (key, hashtableGet key entries)
  else entries.map fun e => (e.key, some e.value)

/-- The precision 0 means 17. -/
def dtostr (value : Double) : Option Bytes :=
  jsonpDtostr (printf (if flags.precision = 0 then 17 else flags.precision)) value

/-- `do_dump`. The flag `JSON_EMBED` holds for the first value only. -/
def doDump : ℕ → Bool → ℕ → List ℕ → Ref → Dump σ
  | 0, _, _, _, _ => fun _ => none
  | _ + 1, _, _, _, .true => emit dump trueText
  | _ + 1, _, _, _, .false => emit dump falseText
  | _ + 1, _, _, _, .null => emit dump nullText
  | fuel + 1, embed, depth, parents, .node n => fun out =>
    (s.cells n).bind fun cell =>
      match cell.payload with
      | .integer value => emitText dump (dumpInteger value) out
      | .real value => emitText dump (dtostr printf flags value) out
      | .string value => dumpString dump flags value out
      | .array table =>
        if n ∈ parents then fail out
        else
          dumpContainer dump flags embed depth 91 93
            (table.map (doDump fuel false (depth + 1) (n :: parents))) out
      | .object entries =>
        if n ∈ parents then fail out
        else
          dumpContainer dump flags embed depth 123 125
            ((orderedMembers flags entries).map fun m =>
              dumpMember dump flags (doDump fuel false (depth + 1) (n :: parents)) m.1 m.2) out

/-- `json_dump_callback`. -/
def jsonDumpCallback (json : Ref) : Dump σ := fun out =>
  (jsonIsContainer s json).bind fun container =>
    if flags.encodeAny = false ∧ container = false then fail out
    else doDump printf s dump flags (s.next + 1) flags.embed 0 [] json out

end Containers

section Callers
variable (printf : ℕ → Double → Bytes) (s : Store) (flags : DumpFlags)

/-- `dump_to_strbuffer`, while there is memory. -/
def dumpToStrbuffer : Sink Bytes := fun chunk buffer => (buffer ++ chunk, true)

/-- `json_dumps`: a C string, or a null pointer. -/
def jsonDumps (json : Ref) : Option (Option Bytes) :=
  (jsonDumpCallback printf s dumpToStrbuffer flags json []).map fun r =>
    if r.2 then some (r.1.takeWhile (· ≠ 0)) else none

/-- What the C library does with a file that is written: whether it opens, what `fwrite` leaves in
it and whether it writes the whole piece, and whether it closes. -/
structure FileHost where
  fopen : Bytes → Bool
  fwrite : Bytes → Bytes → Bytes × Bool
  fclose : Bytes → Bool

/-- `dump_to_file`: a piece is one item, and `fwrite` of an item without a byte returns 0. -/
def dumpToFile (F : FileHost) : Sink Bytes := fun chunk contents =>
  if chunk = [] then (contents, false) else F.fwrite contents chunk

/-- `json_dump_file`, on the contents of all files. -/
def jsonDumpFile (F : FileHost) (files : Bytes → Option Bytes) (path : Bytes) (json : Ref) :
    Option ((Bytes → Option Bytes) × Bool) :=
  if F.fopen path then
    (jsonDumpCallback printf s (dumpToFile F) flags json []).map fun r =>
      (Function.update files path (some r.1), F.fclose path && r.2)
  else some (files, false)

end Callers

end Dump

end RipExt.Json
