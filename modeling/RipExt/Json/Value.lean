import RipExt.Foundation.RefMoves

/-! Jansson's values: `json_t` nodes in a counted heap, and the functions of `value.c`,
`hashtable.c` and `utf.c` that the natives call. A function that would read or write freed
memory has no result. -/
namespace RipExt.Json

/-- A C string, without its terminating zero. -/
abbrev Bytes := List UInt8

/-- A `json_t *` that is not null. The three singletons are static and never counted. -/
inductive Ref where
  | node (id : ℕ)
  | true | false | null
  deriving DecidableEq, Repr

/-- A `json_t *`. -/
abbrev Pointer := Option Ref

/-- A pair of the hashtable. `id` plays the role of its address and is never reused. -/
structure Entry where
  id : ℕ
  key : Bytes
  value : Ref
  deriving DecidableEq, Repr

/-- A finite `double`: the mantissa times a power of two. -/
structure Double where
  negative : Bool
  mantissa : ℕ
  exponent : ℤ
  deriving DecidableEq, Repr

/-- The counted values. The entries of an object are in the order of its `ordered_list`. -/
inductive Payload where
  | object (entries : List Entry)
  | array (table : List Ref)
  | string (value : Bytes)
  | integer (value : ℤ)
  | real (value : Double)
  deriving DecidableEq, Repr

def Ref.node? : Ref → Option ℕ
  | .node n => some n
  | .true | .false | .null => none

/-- The counted nodes behind a pointer: one or none. -/
def Pointer.nodes (json : Pointer) : List ℕ := (json.bind Ref.node?).toList

/-- The order of the bucket list, which `hashtable_do_clear` walks: some permutation of the
entries, depending on the seed of the hash and on the history of the table. -/
structure Hashing where
  bucketOrder : List Entry → List Entry
  perm : ∀ es, (bucketOrder es).Perm es

/-- The slots of a value, in the order in which its deletion drops them. -/
def Hashing.children (H : Hashing) : Payload → List ℕ
  | .object es => (H.bucketOrder es).filterMap (·.value.node?)
  | .array t => t.filterMap Ref.node?
  | .string _ | .integer _ | .real _ => []

abbrev Store := RefCount.Heap Payload

section Utf8

/-- `utf8_check_first`. -/
def utf8CheckFirst (byte : UInt8) : ℕ :=
  let u := byte.toNat
  if u < 0x80 then 1
  else if u ≤ 0xBF then 0
  else if u = 0xC0 ∨ u = 0xC1 then 0
  else if u ≤ 0xDF then 2
  else if u ≤ 0xEF then 3
  else if u ≤ 0xF4 then 4
  else 0

/-- The loop of `utf8_check_full` over the continuation bytes. -/
def utf8Continue (value : ℕ) : Bytes → Option ℕ
  | [] => some value
  | b :: bs =>
    let u := b.toNat
    if u < 0x80 ∨ 0xBF < u then none else utf8Continue (value * 64 + u % 64) bs

/-- `utf8_check_full` on a sequence of `size` bytes. -/
def utf8CheckFull (buffer : Bytes) (size : ℕ) : Bool :=
  match buffer with
  | [] => false
  | b :: bs =>
    let start : Option ℕ :=
      if size = 2 then some (b.toNat % 32)
      else if size = 3 then some (b.toNat % 16)
      else if size = 4 then some (b.toNat % 8)
      else none
    match start.bind (utf8Continue · bs) with
    | none => false
    | some value =>
      if 0x10FFFF < value then false
      else if 0xD800 ≤ value ∧ value ≤ 0xDFFF then false
      else !(size = 2 && value < 0x80 || size = 3 && value < 0x800 ||
        size = 4 && value < 0x10000)

/-- The loop of `utf8_check_string`; `skip` bytes belong to a sequence already checked. -/
def utf8CheckFrom : ℕ → Bytes → Bool
  | _, [] => true
  | skip + 1, _ :: bs => utf8CheckFrom skip bs
  | 0, b :: bs =>
    match utf8CheckFirst b with
    | 0 => false
    | 1 => utf8CheckFrom 0 bs
    | count + 2 =>
      if bs.length + 1 < count + 2 then false
      else utf8CheckFull ((b :: bs).take (count + 2)) (count + 2) && utf8CheckFrom (count + 1) bs

/-- `utf8_check_string`. -/
def utf8CheckString (string : Bytes) : Bool := utf8CheckFrom 0 string

end Utf8

section Entries

/-- The pair with `key` gets a new value; the old value comes back. -/
def replaceValue (key : Bytes) (value : Ref) : List Entry → Option (Ref × List Entry)
  | [] => none
  | e :: es =>
    if e.key = key then some (e.value, { e with value := value } :: es)
    else (replaceValue key value es).map fun r => (r.1, e :: r.2)

/-- The pair with `key` is unlinked. -/
def unlink (key : Bytes) : List Entry → Option (Ref × List Entry)
  | [] => none
  | e :: es =>
    if e.key = key then some (e.value, es)
    else (unlink key es).map fun r => (r.1, e :: r.2)

/-- `hashtable_get`. -/
def hashtableGet (key : Bytes) (es : List Entry) : Pointer :=
  (es.find? fun e => e.key = key).map (·.value)

end Entries

namespace Store

/-- What a pointer points at: nothing readable once the node is freed, and no payload for a
singleton. -/
def read (s : Store) : Ref → Option (Option Payload)
  | .node n => (s.cells n).map fun c => some c.payload
  | .true | .false | .null => some none

def write (s : Store) (n : ℕ) (p : Payload) : Option Store :=
  if (s.cells n).isSome then some (s.setPayload n p) else none

end Store

section Reading
variable (s : Store) (json : Ref)

def jsonObjectSize : Option ℕ := do
  match ← Store.read s json with
  | some (.object es) => some es.length
  | _ => some 0

def jsonObjectGet (key : Bytes) : Option Pointer := do
  match ← Store.read s json with
  | some (.object es) => some (hashtableGet key es)
  | _ => some none

def jsonArraySize : Option ℕ := do
  match ← Store.read s json with
  | some (.array t) => some t.length
  | _ => some 0

def jsonArrayGet (index : ℕ) : Option Pointer := do
  match ← Store.read s json with
  | some (.array t) => some t[index]?
  | _ => some none

def jsonIntegerValue : Option ℤ := do
  match ← Store.read s json with
  | some (.integer v) => some v
  | _ => some 0

def jsonStringValue : Option (Option Bytes) := do
  match ← Store.read s json with
  | some (.string v) => some (some v)
  | _ => some none

def jsonBooleanValue : Option Bool := do
  let _ ← Store.read s json
  some (json = .true)

def jsonIsNull : Option Bool := do
  let _ ← Store.read s json
  some (json = .null)

/-- `json_object_iter`: the first pair of the `ordered_list`, or the end. -/
def jsonObjectIter : Option (Option ℕ) := do
  match ← Store.read s json with
  | some (.object es) => some (es.head?.map (·.id))
  | _ => some none

/-- The pair at an address and those after it, if the pair is still in the table of `json`. -/
def entriesFrom (iter : ℕ) : Option (Entry × List Entry) := do
  match ← Store.read s json with
  | some (.object es) =>
    match es.dropWhile (·.id ≠ iter) with
    | e :: rest => some (e, rest)
    | [] => none
  | _ => none

/-- `json_object_iter_key`, which reads the pair. -/
def jsonObjectIterKey (iter : Option ℕ) : Option (Option Bytes) :=
  match iter with
  | none => some none
  | some id => (entriesFrom s json id).map fun r => some r.1.key

/-- `json_object_iter_next`, which reads the object and the pair. -/
def jsonObjectIterNext (iter : Option ℕ) : Option (Option ℕ) := do
  match iter, ← Store.read s json with
  | some id, some (.object _) => (entriesFrom s json id).map fun r => r.2.head?.map (·.id)
  | _, _ => some none

end Reading

section Creating

def jsonObject (s : Store) : Pointer × Store := (some (.node s.next), s.alloc (.object []))

def jsonArray (s : Store) : Pointer × Store := (some (.node s.next), s.alloc (.array []))

/-- `string_create`, without the check. -/
def jsonStringNocheck (s : Store) (value : Bytes) : Pointer × Store :=
  (some (.node s.next), s.alloc (.string value))

def jsonString (s : Store) (value : Bytes) : Pointer × Store :=
  if utf8CheckString value then jsonStringNocheck s value else (none, s)

def jsonInteger (s : Store) (value : ℤ) : Pointer × Store :=
  (some (.node s.next), s.alloc (.integer value))

/-- A `double` that is not finite gives a null pointer. -/
def jsonReal (s : Store) (value : Option Double) : Pointer × Store :=
  match value with
  | some x => (some (.node s.next), s.alloc (.real x))
  | none => (none, s)

def jsonBoolean (s : Store) (value : Bool) : Pointer × Store :=
  (some (if value then .true else .false), s)

def jsonNull (s : Store) : Pointer × Store := (some .null, s)

end Creating

section Counting
variable (H : Hashing) (s : Store)

def jsonIncref (s : Store) (json : Ref) : Option Store :=
  match json with
  | .node n => s.incref n
  | .true | .false | .null => some s

def jsonDecref (json : Pointer) : Option Store :=
  match json with
  | some (.node n) => s.decref H.children n
  | _ => some s

/-- `json_decref` of several values, one after the other. -/
def jsonDecrefAll (values : List Ref) : Option Store :=
  s.decrefAll H.children (values.filterMap Ref.node?)

/-- A call that gives its argument back and fails. -/
def refuse (value : Pointer) : Option (Bool × Store) :=
  (jsonDecref H s value).map fun s => (false, s)

/-- `hashtable_set`: the old value of the pair is dropped before it is overwritten. -/
def hashtableSet (n : ℕ) (es : List Entry) (key : Bytes) (value : Ref) : Option Store :=
  match replaceValue key value es with
  | some (old, es') => do
    let s ← jsonDecref H s (some old)
    Store.write s n (.object es')
  | none =>
    Store.write { s with next := s.next + 1 } n (.object (es ++ [⟨s.next, key, value⟩]))

def jsonObjectSetNewNocheck (json : Ref) (key : Bytes) (value : Pointer) :
    Option (Bool × Store) :=
  match value with
  | none => some (false, s)
  | some v => do
    match json, ← Store.read s json with
    | .node n, some (.object es) =>
      if json = v then refuse H s value
      else (hashtableSet H s n es key v).map fun s => (true, s)
    | _, _ => refuse H s value

def jsonObjectSetNew (json : Ref) (key : Bytes) (value : Pointer) : Option (Bool × Store) :=
  if utf8CheckString key then jsonObjectSetNewNocheck H s json key value else refuse H s value

def jsonObjectSet (json : Ref) (key : Bytes) (value : Ref) : Option (Bool × Store) := do
  let s ← jsonIncref s value
  jsonObjectSetNew H s json key (some value)

/-- `hashtable_del` unlinks the pair and drops its value afterwards. -/
def jsonObjectDel (json : Ref) (key : Bytes) : Option (Bool × Store) := do
  match json, ← Store.read s json with
  | .node n, some (.object es) =>
    match unlink key es with
    | some (old, es') => do
      let s ← Store.write s n (.object es')
      let s ← jsonDecref H s (some old)
      some (true, s)
    | none => some (false, s)
  | _, _ => some (false, s)

/-- `hashtable_clear` drops every value before it resets the lists. -/
def jsonObjectClear (json : Ref) : Option (Bool × Store) := do
  match json, ← Store.read s json with
  | .node n, some (.object es) => do
    let s ← jsonDecrefAll H s ((H.bucketOrder es).map (·.value))
    let s ← Store.write s n (.object [])
    some (true, s)
  | _, _ => some (false, s)

def jsonArraySetNew (json : Ref) (index : ℕ) (value : Pointer) : Option (Bool × Store) :=
  match value with
  | none => some (false, s)
  | some v => do
    match json, ← Store.read s json with
    | .node n, some (.array t) =>
      if json = v then refuse H s value
      else
        match t[index]? with
        | none => refuse H s value
        | some old => do
          let s ← jsonDecref H s (some old)
          let s ← Store.write s n (.array (t.set index v))
          some (true, s)
    | _, _ => refuse H s value

def jsonArraySet (json : Ref) (index : ℕ) (value : Ref) : Option (Bool × Store) := do
  let s ← jsonIncref s value
  jsonArraySetNew H s json index (some value)

def jsonArrayAppendNew (json : Ref) (value : Pointer) : Option (Bool × Store) :=
  match value with
  | none => some (false, s)
  | some v => do
    match json, ← Store.read s json with
    | .node n, some (.array t) =>
      if json = v then refuse H s value
      else do
        let s ← Store.write s n (.array (t ++ [v]))
        some (true, s)
    | _, _ => refuse H s value

def jsonArrayAppend (json : Ref) (value : Ref) : Option (Bool × Store) := do
  let s ← jsonIncref s value
  jsonArrayAppendNew H s json (some value)

/-- `json_array_remove` drops the value before it closes the gap. -/
def jsonArrayRemove (json : Ref) (index : ℕ) : Option (Bool × Store) := do
  match json, ← Store.read s json with
  | .node n, some (.array t) =>
    match t[index]? with
    | none => some (false, s)
    | some old => do
      let s ← jsonDecref H s (some old)
      let s ← Store.write s n (.array (t.eraseIdx index))
      some (true, s)
  | _, _ => some (false, s)

def jsonArrayClear (json : Ref) : Option (Bool × Store) := do
  match json, ← Store.read s json with
  | .node n, some (.array t) => do
    let s ← jsonDecrefAll H s t
    let s ← Store.write s n (.array [])
    some (true, s)
  | _, _ => some (false, s)

end Counting

end RipExt.Json
