import RipExt.Foundation.Refinement
import RipExt.Foundation.Ring
import RipExt.Json.Decode

/-! The table of `hashtable.c`: pairs in two rings, one in the order of insertion and one that is
cut into the segments of the buckets. The store keeps the entries of an object as a list; here the
table is shown to answer every call as that list does. -/
namespace RipExt.Json
open Ring

/-- `hashtable_pair`, apart from the links. -/
structure Pair where
  hash : ℕ
  key : Bytes
  value : Ref
  deriving DecidableEq, Repr

/-- The `list` or the `ordered_list` of a pair, by the address of the pair, or that of the table. -/
abbrev Address := Option ℕ

structure Bucket where
  first : Address
  last : Address
  deriving DecidableEq, Repr

structure Hashtable where
  size : ℕ
  buckets : ℕ → Bucket
  order : ℕ
  list : Links Address
  orderedList : Links Address
  /-- The pairs that are allocated. -/
  pairs : ℕ → Option Pair

/-- `INITIAL_HASHTABLE_ORDER`. -/
def initialHashtableOrder : ℕ := 3

/-- What `size_t` holds at most. -/
def sizeMax : ℕ := 2 ^ 64 - 1

/-- `offsetof(pair_t, key)`: two lists, the hash and the value. -/
def pairKeyOffset : ℕ := 48

namespace Hashtable

section Lists
variable (T : Hashtable)

def bucketIsEmpty (bucket : Bucket) : Bool := bucket.first = none && bucket.first = bucket.last

def insertToBucket (index : ℕ) (list : Address) : Hashtable :=
  if bucketIsEmpty (T.buckets index) then
    { T with
      list := T.list.insert none list
      buckets := Function.update T.buckets index ⟨list, list⟩ }
  else
    { T with
      list := T.list.insert (T.buckets index).first list
      buckets := Function.update T.buckets index { T.buckets index with first := list } }

theorem insertToBucket_eq (index : ℕ) (list : Address) :
    T.insertToBucket index list =
      { T with
        list := (T.insertToBucket index list).list
        buckets := (T.insertToBucket index list).buckets } := by
  unfold insertToBucket
  split_ifs <;> rfl

/-- The loop of `hashtable_find_pair`. There is no result if a link leads to freed memory or out of
the pairs. -/
def findLoop (last : Address) (key : Bytes) (hash : ℕ) : ℕ → Address → Option (Option ℕ)
  | 0, _ => none
  | fuel + 1, list =>
    list.bind fun id =>
      (T.pairs id).bind fun pair =>
        if pair.hash = hash ∧ pair.key = key then some (some id)
        else if list = last then some none
        else findLoop last key hash fuel (T.list.next list)

/-- `hashtable_find_pair`. A bucket has at most as many pairs as the table. -/
def findPair (bucket : Bucket) (key : Bytes) (hash : ℕ) : Option (Option ℕ) :=
  if bucketIsEmpty bucket then some none
  else T.findLoop bucket.last key hash T.size bucket.first

def emptyBuckets : ℕ → Bucket := fun _ => ⟨none, none⟩

/-- The loop of `hashtable_do_clear`: the values it drops, in order. -/
def clearLoop (T : Hashtable) : ℕ → Address → List Ref → Option (List Ref × Hashtable)
  | 0, _, _ => none
  | _ + 1, none, dropped => some (dropped, T)
  | fuel + 1, some id, dropped =>
    let next := T.list.next (some id)
    (T.pairs id).bind fun pair =>
      clearLoop { T with pairs := Function.update T.pairs id none } fuel next
        (dropped ++ [pair.value])

def doClear : Option (List Ref × Hashtable) := clearLoop T (T.size + 1) (T.list.next none) []

/-- The loop of `hashtable_do_rehash`, which reads the next pair before it moves one. -/
def rehashLoop (T : Hashtable) : ℕ → Address → Option Hashtable
  | 0, _ => none
  | _ + 1, none => some T
  | fuel + 1, some id =>
    let next := T.list.next (some id)
    (T.pairs id).bind fun pair =>
      rehashLoop (T.insertToBucket (pair.hash % 2 ^ T.order) (some id)) fuel next

/-- `hashtable_do_rehash`; `buckets` tells whether the new array could be allocated. -/
def doRehash (buckets : Bool) : Option (Bool × Hashtable) :=
  if buckets then
    (rehashLoop { T with
        buckets := emptyBuckets
        order := T.order + 1
        list := T.list.init none } (T.size + 1) (T.list.next none)).map fun T => (true, T)
  else some (false, T)

end Lists

section Calls
variable (hash : Bytes → ℕ) (T : Hashtable)

/-- `hashtable_init`. -/
def init : Hashtable where
  size := 0
  buckets := emptyBuckets
  order := initialHashtableOrder
  list := ⟨fun _ => none, fun _ => none⟩
  orderedList := ⟨fun _ => none, fun _ => none⟩
  pairs _ := none

/-- The bucket of a key, as the table is now. -/
def bucketOf (key : Bytes) : Bucket := T.buckets (hash key % 2 ^ T.order)

/-- The pair of a key. -/
def find (key : Bytes) : Option (Option ℕ) := T.findPair (T.bucketOf hash key) key (hash key)

/-- A new pair at the address `id`, linked into its bucket and into the ordered list. -/
def addPair (key : Bytes) (value : Ref) (id : ℕ) : Hashtable :=
  let T := { T with
    pairs := Function.update T.pairs id (some ⟨hash key, key, value⟩)
    list := T.list.init (some id)
    orderedList := T.orderedList.init (some id) }
  let T := T.insertToBucket (hash key % 2 ^ T.order) (some id)
  { T with orderedList := T.orderedList.insert none (some id), size := T.size + 1 }

/-- The value of a pair is dropped and overwritten. -/
def overwrite (id : ℕ) (value : Ref) : Option (List Ref × Hashtable) :=
  (T.pairs id).map fun pair =>
    ([pair.value], { T with pairs := Function.update T.pairs id (some { pair with value }) })

/-- `hashtable_set` after the load ratio has been looked at. `pair` is the address of the new pair,
if it can be allocated. -/
def setPair (key : Bytes) (value : Ref) (pair : Option ℕ) : Option (Bool × List Ref × Hashtable) :=
  (T.find hash key).bind fun found =>
    match found with
    | some id => (T.overwrite id value).map fun r => (true, r)
    | none =>
      if sizeMax - pairKeyOffset ≤ key.length then some (false, [], T)
      else
        match pair with
        | none => some (false, [], T)
        | some id => some (true, [], T.addPair hash key value id)

/-- `hashtable_set`: its status, the value it drops, and the table. -/
def set (key : Bytes) (value : Ref) (buckets : Bool) (pair : Option ℕ) :
    Option (Bool × List Ref × Hashtable) :=
  (if 2 ^ T.order ≤ T.size then T.doRehash buckets else some (true, T)).bind fun (ok, T) =>
    if ok then T.setPair hash key value pair else some (false, [], T)

/-- `hashtable_get`. -/
def get (key : Bytes) : Option Pointer :=
  (T.find hash key).bind fun found =>
    match found with
    | none => some none
    | some id => (T.pairs id).map fun pair => some pair.value

/-- What becomes of a bucket that loses a pair. -/
def unlinkBucket (bucket : Bucket) (id : ℕ) : Bucket :=
  if some id = bucket.first ∧ some id = bucket.last then ⟨none, none⟩
  else if some id = bucket.first then { bucket with first := T.list.next (some id) }
  else if some id = bucket.last then { bucket with last := T.list.prev (some id) }
  else bucket

/-- The pair is taken out of its bucket and of both rings, and freed. -/
def unlinkPair (index id : ℕ) : Hashtable :=
  { T with
    buckets := Function.update T.buckets index (T.unlinkBucket (T.buckets index) id)
    list := T.list.remove (some id)
    orderedList := T.orderedList.remove (some id)
    pairs := Function.update T.pairs id none
    size := T.size - 1 }

/-- `hashtable_del`. -/
def del (key : Bytes) : Option (Bool × List Ref × Hashtable) :=
  (T.find hash key).bind fun found =>
    match found with
    | none => some (false, [], T)
    | some id => (T.pairs id).map fun pair =>
        (true, [pair.value], T.unlinkPair (hash key % 2 ^ T.order) id)

/-- The table is empty again, with as many buckets as it has. -/
def reset : Hashtable :=
  { T with
    buckets := emptyBuckets
    list := T.list.init none
    orderedList := T.orderedList.init none
    size := 0 }

/-- `hashtable_clear`. -/
def clear : Option (List Ref × Hashtable) :=
  T.doClear.map fun (dropped, T) => (dropped, T.reset)

/-- `hashtable_iter_next`, from a pair or from the table itself, whose address becomes `NULL`. -/
def iterNext (iter : Address) : Option (Option ℕ) :=
  match iter with
  | none => some (T.orderedList.next none)
  | some id => (T.pairs id).map fun _ => T.orderedList.next (some id)

/-- `hashtable_iter`. -/
def iter : Option (Option ℕ) := T.iterNext none

end Calls

end Hashtable

section Machines

inductive HashtableCall where
  | set (key : Bytes) (value : Ref) (buckets : Bool) (pair : Option ℕ)
  | get (key : Bytes)
  | del (key : Bytes)
  | clear
  | iter
  | iterAt (key : Bytes)
  | iterNext (iter : ℕ)
  | iterKey (iter : ℕ)
  | iterValue (iter : ℕ)
  | iterSet (iter : ℕ) (value : Ref)
  deriving DecidableEq, Repr

/-- What a call returns, and the references that it drops. -/
inductive HashtableAnswer where
  | status (ok : Bool) (dropped : Multiset Ref)
  | value (value : Pointer)
  | iter (iter : Option ℕ)
  | key (key : Bytes)

def Hashtable.call (hash : Bytes → ℕ) (T : Hashtable) :
    HashtableCall → Option (HashtableAnswer × Hashtable)
  | .set key value buckets pair =>
    (T.set hash key value buckets pair).map fun r => (.status r.1 r.2.1, r.2.2)
  | .get key => (T.get hash key).map fun v => (.value v, T)
  | .del key => (T.del hash key).map fun r => (.status r.1 r.2.1, r.2.2)
  | .clear => T.clear.map fun r => (.status true r.1, r.2)
  | .iter => T.iter.map fun i => (.iter i, T)
  | .iterAt key => (T.find hash key).map fun i => (.iter i, T)
  | .iterNext iter => (T.iterNext (some iter)).map fun i => (.iter i, T)
  | .iterKey iter => (T.pairs iter).map fun pair => (.key pair.key, T)
  | .iterValue iter => (T.pairs iter).map fun pair => (.value (some pair.value), T)
  | .iterSet iter value => (T.overwrite iter value).map fun r => (.status true r.1, r.2)

/-- The machine of `hashtable.c`, for any hash of the keys. -/
def hashtableMachine (hash : Bytes → ℕ) :
    Refinement.Machine Hashtable HashtableCall HashtableAnswer where
  init := .init
  step T c := T.call hash c

/-- The entries of an object as the store has them, and the number of bits of the index. -/
structure EntryTable where
  entries : List Entry
  order : ℕ

namespace EntryTable
variable (t : EntryTable)

/-- The value of a key is replaced, or a new entry comes last. An address is not given out while it
is in use. -/
def setPair (key : Bytes) (value : Ref) (pair : Option ℕ) : Option (HashtableAnswer × EntryTable) :=
  match replaceValue key value t.entries with
  | some (old, es) => some (.status true {old}, { t with entries := es })
  | none =>
    if sizeMax - pairKeyOffset ≤ key.length then some (.status false 0, t)
    else
      match pair with
      | none => some (.status false 0, t)
      | some id =>
        if id ∈ t.entries.map (·.id) then none
        else some (.status true 0, { t with entries := t.entries ++ [⟨id, key, value⟩] })

/-- `hashtable_set` over the entries. -/
def set (key : Bytes) (value : Ref) (buckets : Bool) (pair : Option ℕ) :
    Option (HashtableAnswer × EntryTable) :=
  if 2 ^ t.order ≤ t.entries.length then
    if buckets then { t with order := t.order + 1 }.setPair key value pair
    else some (.status false 0, t)
  else t.setPair key value pair

/-- The value of the entry with an address is replaced. -/
def replaceAt (iter : ℕ) (value : Ref) : List Entry → Option (Ref × List Entry)
  | [] => none
  | e :: es =>
    if e.id = iter then some (e.value, { e with value := value } :: es)
    else (replaceAt iter value es).map fun r => (r.1, e :: r.2)

def call : HashtableCall → Option (HashtableAnswer × EntryTable)
  | .set key value buckets pair => t.set key value buckets pair
  | .get key => some (.value (hashtableGet key t.entries), t)
  | .del key =>
    match unlink key t.entries with
    | none => some (.status false 0, t)
    | some (old, es) => some (.status true {old}, { t with entries := es })
  | .clear => some (.status true (t.entries.map (·.value)), { t with entries := [] })
  | .iter => some (.iter (t.entries.head?.map (·.id)), t)
  | .iterAt key => some (.iter ((t.entries.find? fun e => e.key = key).map (·.id)), t)
  | .iterNext iter =>
    match t.entries.dropWhile (·.id ≠ iter) with
    | [] => none
    | _ :: rest => some (.iter (rest.head?.map (·.id)), t)
  | .iterKey iter => (t.entries.find? fun e => e.id = iter).map fun e => (.key e.key, t)
  | .iterValue iter =>
    (t.entries.find? fun e => e.id = iter).map fun e => (.value (some e.value), t)
  | .iterSet iter value =>
    (replaceAt iter value t.entries).map fun r => (.status true {r.1}, { t with entries := r.2 })

end EntryTable

/-- The list of entries as a machine of its own. -/
def entryMachine : Refinement.Machine EntryTable HashtableCall HashtableAnswer where
  init := ⟨[], initialHashtableOrder⟩
  step t c := t.call c

end Machines

end RipExt.Json
