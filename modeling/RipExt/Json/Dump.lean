import RipExt.Foundation.Percent
import RipExt.Json.Effects

/-! The encoder of `dump.c` with the flags 0, as it reads a document in the store. -/
namespace RipExt.Json

/-- What the C library does with a `double`: the text of `%.17g`, and the value that is read from
a text unless it overflows. -/
structure FloatText where
  printf : Double → Bytes
  strtod : Bytes → Option Double

section Scalars

/-- The escape of a byte that cannot stand in a string, `\u%04X` unless it has a shorter one. -/
def escapeByte (b : UInt8) : Option Bytes :=
  if b = 92 then some [92, 92]
  else if b = 34 then some [92, 34]
  else if b = 8 then some [92, 98]
  else if b = 12 then some [92, 102]
  else if b = 10 then some [92, 110]
  else if b = 13 then some [92, 114]
  else if b = 9 then some [92, 116]
  else if b.toNat < 32 then
    some [92, 117, 48, 48, Percent.hexDigit (b.toNat / 16), Percent.hexDigit (b.toNat % 16)]
  else none

/-- The loop of `dump_string`: what it writes, and whether it gets to the end. `pending` is what
stands between `str` and `pos`, which is lost if the next sequence is not UTF-8; `skip` bytes
belong to a sequence already checked. -/
def dumpChars : ℕ → Bytes → Bytes → Bytes × Bool
  | _, pending, [] => (pending ++ [34], true)
  | skip + 1, pending, b :: bs => dumpChars skip (pending ++ [b]) bs
  | 0, pending, b :: bs =>
    match utf8CheckFirst b with
    | 0 => ([], false)
    | 1 =>
      match escapeByte b with
      | none => dumpChars 0 (pending ++ [b]) bs
      | some text =>
        let rest := dumpChars 0 [] bs
        (pending ++ text ++ rest.1, rest.2)
    | count + 2 =>
      if bs.length + 1 < count + 2 ∨ utf8CheckFull ((b :: bs).take (count + 2)) (count + 2) = false
      then ([], false)
      else dumpChars (count + 1) (pending ++ [b]) bs

/-- `dump_string`. -/
def dumpString (str : Bytes) : Bytes × Bool :=
  let rest := dumpChars 0 [] str
  (34 :: rest.1, rest.2)

/-- `MAX_INTEGER_STR_LENGTH` and `MAX_REAL_STR_LENGTH`. -/
def maxNumberStrLength : ℕ := 100

def dumpInteger (value : ℤ) : Option Bytes :=
  if maxNumberStrLength ≤ (decimal value).length then none else some (decimal value)

/-- The sign `+` and the leading zeros of an exponent are removed. -/
def trimExponent (text : Bytes) : Bytes :=
  match text.dropWhile (· ≠ 101) with
  | e :: sign :: digits => text.takeWhile (· ≠ 101) ++ e :: (if sign = 45 then [45] else []) ++
      digits.dropWhile (· = 48)
  | _ => text

/-- `jsonp_dtostr` with the precision 17. -/
def jsonpDtostr (printf : Double → Bytes) (value : Double) : Option Bytes :=
  let text := printf value
  if maxNumberStrLength ≤ text.length then none
  else if 46 ∉ text ∧ 101 ∉ text then
    if maxNumberStrLength ≤ text.length + 3 then none else some (trimExponent (text ++ [46, 48]))
  else some (trimExponent text)

end Scalars

section Containers

/-- The identifiers of JSON. -/
def trueText : Bytes := [116, 114, 117, 101]

def falseText : Bytes := [102, 97, 108, 115, 101]

def nullText : Bytes := [110, 117, 108, 108]

/-- The texts of the children, separated by `", "`. The first one that fails decides. -/
def joinDumps : List (Option (Option Bytes)) → Option (Option Bytes)
  | [] => some (some [])
  | [result] => result
  | none :: _ => none
  | some none :: _ => some none
  | some (some text) :: rest =>
    (joinDumps rest).map (Option.map fun more => text ++ 44 :: 32 :: more)

/-- `do_dump`: it fails at a container that is one of its own parents. What `dump_string` returns
for a key is not looked at. -/
def doDump (printf : Double → Bytes) (s : Store) : ℕ → List ℕ → Ref → Option (Option Bytes)
  | 0, _, _ => none
  | _ + 1, _, .true => some (some trueText)
  | _ + 1, _, .false => some (some falseText)
  | _ + 1, _, .null => some (some nullText)
  | fuel + 1, parents, .node n =>
    (s.cells n).bind fun cell =>
      match cell.payload with
      | .integer value => some (dumpInteger value)
      | .real value => some (jsonpDtostr printf value)
      | .string value =>
        some (if (dumpString value).2 then some (dumpString value).1 else none)
      | .array table =>
        if n ∈ parents then some none
        else
          (joinDumps (table.map fun value => doDump printf s fuel (n :: parents) value)).map
            (Option.map fun text => 91 :: text ++ [93])
      | .object entries =>
        if n ∈ parents then some none
        else
          (joinDumps (entries.map fun e =>
            (doDump printf s fuel (n :: parents) e.value).map
              (Option.map fun text => (dumpString e.key).1 ++ 58 :: 32 :: text))).map
            (Option.map fun text => 123 :: text ++ [125])

def jsonIsContainer (s : Store) (json : Ref) : Option Bool := do
  match ← Store.read s json with
  | some (.object _) => some true
  | some (.array _) => some true
  | _ => some false

/-- `json_dumps` with the flags 0: a C string, or a null pointer. A path through the document
without repetition is at most as long as there are nodes. -/
def jsonDumps (printf : Double → Bytes) (s : Store) (json : Ref) : Option (Option Bytes) :=
  (jsonIsContainer s json).bind fun container =>
    if container then
      (doDump printf s (s.next + 1) [] json).map (Option.map fun text => text.takeWhile (· ≠ 0))
    else some none

end Containers

section Total
open RefCount
variable {printf : Double → Bytes} {H : Hashing} {s : Store} {R : Multiset ℕ} {parents : List ℕ}

theorem joinDumps_isSome {results : List (Option (Option Bytes))}
    (h : ∀ r ∈ results, r.isSome) : (joinDumps results).isSome := by
  induction results with
  | nil => rfl
  | cons result rest ih =>
    have hresult := h result (List.mem_cons_self ..)
    have hrest := ih fun r hr => h r (List.mem_cons_of_mem _ hr)
    cases rest with
    | nil => exact hresult
    | cons next rest =>
      match result with
      | some none => rfl
      | some (some text) => simpa [joinDumps] using hrest

/-- The nodes above the current one are different live nodes. -/
structure Path (s : Store) (parents : List ℕ) : Prop where
  nodup : parents.Nodup
  lt_next : ∀ n ∈ parents, n < s.next

theorem Path.length_le (h : Path s parents) : parents.length ≤ s.next := by
  have hsub : parents.toFinset ⊆ Finset.range s.next := by
    intro n hn
    exact Finset.mem_range.mpr (h.lt_next n (List.mem_toFinset.mp hn))
  have hcard := Finset.card_le_card hsub
  rwa [List.toFinset_card_of_nodup h.nodup, Finset.card_range] at hcard

theorem Path.cons {n : ℕ} (h : Path s parents) (hn : n ∉ parents) (hlt : n < s.next) :
    Path s (n :: parents) where
  nodup := List.nodup_cons.mpr ⟨hn, h.nodup⟩
  lt_next m hm := by
    rcases List.mem_cons.mp hm with rfl | hm
    · exact hlt
    · exact h.lt_next m hm

/-- The encoder reads live memory only, and its fuel lasts. -/
theorem doDump_isSome (hb : Balanced H.children s R []) (fuel : ℕ) {json : Ref}
    (hpath : Path s parents) (hfuel : fuel + parents.length = s.next + 1) (hlive : Live s json) :
    (doDump printf s fuel parents json).isSome := by
  induction fuel generalizing parents json with
  | zero =>
    have hlen := hpath.length_le
    omega
  | succ fuel ih =>
    match json with
    | .true => rfl
    | .false => rfl
    | .null => rfl
    | .node n =>
      obtain ⟨c, hc⟩ := Option.ne_none_iff_exists'.mp (hlive n rfl)
      have hlt : n < s.next := hb.lt_next hc
      have hchild : n ∉ parents → ∀ v, (∀ m, v = .node m → m ∈ H.children c.payload) →
          (doDump printf s fuel (n :: parents) v).isSome := by
        intro hn v hv
        refine ih (hpath.cons hn hlt) (by simp only [List.length_cons]; omega) fun m hm => ?_
        exact live_slot hb hc (hv m hm)
      rw [doDump, hc, Option.bind_some]
      cases hp : c.payload with
      | integer value => rfl
      | real value => rfl
      | string value => rfl
      | array table =>
        dsimp only
        split_ifs with hn
        · rfl
        · rw [Option.isSome_map]
          apply joinDumps_isSome
          intro r hr
          obtain ⟨v, hv, rfl⟩ := List.mem_map.mp hr
          refine hchild hn v fun m hm => ?_
          rw [hp]
          exact mem_slots_of_mem hv hm
      | object entries =>
        dsimp only
        split_ifs with hn
        · rfl
        · rw [Option.isSome_map]
          apply joinDumps_isSome
          intro r hr
          obtain ⟨e, he, rfl⟩ := List.mem_map.mp hr
          rw [Option.isSome_map]
          refine hchild hn e.value fun m hm => ?_
          rw [hp]
          exact mem_children_object H he hm

theorem jsonDumps_isSome (printf : Double → Bytes) (hb : Balanced H.children s R []) {json : Ref}
    (hlive : Live s json) : (jsonDumps printf s json).isSome := by
  obtain ⟨p, hp⟩ := hlive.read
  have hcontainer : ∃ container, jsonIsContainer s json = some container := by
    unfold jsonIsContainer
    rw [hp]
    cases p with
    | none => exact ⟨_, rfl⟩
    | some p => cases p <;> exact ⟨_, rfl⟩
  obtain ⟨container, hcontainer⟩ := hcontainer
  rw [jsonDumps, hcontainer, Option.bind_some]
  split_ifs
  · rw [Option.isSome_map]
    exact doDump_isSome hb _ ⟨List.nodup_nil, by simp⟩ (by simp) hlive
  · rfl

end Total

end RipExt.Json
