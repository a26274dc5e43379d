import RipExt.Json.Handles
import RipExt.Json.Tables

/-! Calls that fail. Whatever a native has made before it fails is given back, so that the
documents, the counts and the open handles are those from before the call. -/
namespace RipExt.Json
open RefCount

/-- `json_dumps` and `json_dump_file` with any flags. They only read the store; there is no text
where they return an error. -/
structure Encoder where
  jsonDumps : ℕ → Store → Ref → Option Bytes
  jsonDumpFile : ℕ → Store → Ref → Bytes → Bool

section Natives

/-- A native of `json_natives.cpp`, unlike the closing of a handle and what happens to a
response. -/
def Call.isNative : Call → Bool
  | .closeKeys _ | .closeHandle _ | .openResponse _ | .getResponseData .. | .closeResponse _ => false
  | _ => true

/-- All natives of `json_natives.cpp`. -/
inductive Native where
  | call (c : Call) (h : c.isNative = true)
  | toString (hndl maxlength flags : ℕ)
  | toFile (hndl : ℕ) (path : Bytes) (flags : ℕ)

variable (E : Host) (D : Encoder) (s : State)

def toString (hndl maxlength flags : ℕ) : Result :=
  getJSONFromHandle E s hndl fun object =>
    match D.jsonDumps flags s.heap object with
    | none => some (s, .cell 0)
    | some result => some (s, .text (E.stringToLocalUTF8 maxlength result))

def toFile (hndl : ℕ) (path : Bytes) (flags : ℕ) : Result :=
  getJSONFromHandle E s hndl fun object =>
    some (s, .bool (D.jsonDumpFile flags s.heap object path))

def Native.perform : Native → Result
  | .call c _ => Json.call E s c
  | .toString hndl maxlength flags => Json.toString E D s hndl maxlength flags
  | .toFile hndl path flags => Json.toFile E D s hndl path flags

end Natives

section Law

/-- The native throws, or returns 0, `false` or a null handle. -/
def Outcome.Failed : Outcome → Prop
  | .cell value => value = 0
  | .handle hndl => hndl = 0
  | .text _ => False
  | .error _ => True

/-- The same nodes with the same contents and counts, and the same handles. -/
structure Unchanged (s s' : State) : Prop where
  cells : s'.heap.cells = s.heap.cells
  handles : s'.handles = s.handles
  keys : s'.keys = s.keys
  responses : s'.responses = s.responses

/-- The array handle and the index of an indexed native. -/
def Call.index : Call → Option (ℕ × Int32)
  | .getArray _ hndl index | .setArray hndl index _ | .removeFromArray hndl index =>
    some (hndl, index)
  | _ => none

/-- The outcome of an indexed native that gets past the check of its index; a value that is found
may still get no handle. -/
def Call.PassesIndex (o : Outcome) : Call → Prop
  | .getArray .. => ∀ error, o = .error error → ∃ err, error = .noValueHandle err
  | _ => o = .bool true

/-- The value of a Set native, if it has one: not a null pointer, and not the array itself. -/
def Call.GivesValue (s : State) (json : Ref) : Call → Prop
  | .setArray _ _ value => ∃ v, value.pointer s = some v ∧ json ≠ v
  | _ => True

/-- The handle is that of an array, and the index is one of its positions. -/
def InArray (s : State) (json : Ref) (index : Int32) : Prop :=
  ∃ table, Store.read s.heap json = some (some (.array table)) ∧ 0 ≤ index.toInt ∧
    index.toInt < table.length

/-- The pointers of every array are in memory. -/
def State.FitsMemory (s : State) : Prop :=
  ∀ n c table, s.heap.cells n = some c → c.payload = .array table → 8 * table.length ≤ 2 ^ 64

end Law

section Unchanged
variable {E : Host} {s s' : State} {c : Call} {o : Outcome}

theorem Unchanged.refl (s : State) : Unchanged s s := ⟨rfl, rfl, rfl, rfl⟩

theorem nextHandle_pos (h : (system E).Reachable s) : 0 < s.nextHandle := by
  refine Transition.System.reachable_invariant (I := fun s => 0 < s.nextHandle) Nat.one_pos ?_ h
  intro s c t hs ht
  obtain ⟨⟨t, o⟩, hcall, rfl⟩ := Option.map_eq_some_iff.mp ht
  exact hs.trans_le (call_advances E s c t o hcall)

theorem bool_failed {b : Bool} (h : (Outcome.bool b).Failed) : b = false := by
  cases b with
  | false => rfl
  | true => exact absurd (show (1 : Int32) = 0 from h) (by decide)

theorem closes_of_isPlain (s : State) (hc : c.isPlain = true) : c.closes s = none := by
  cases c <;> first | rfl | cases hc

/-- Where the tables are as before, a failed call has given back all that it made. -/
theorem effect_unchanged (hs : s.Counted E) (hc : c.isPlain = true) (he : Effect E s c s' o)
    (hsame : s' = { s with heap := s'.heap }) (ho : o.Failed) : Unchanged s s' := by
  have hhandles : s'.handles = s.handles := by rw [hsame]
  have hroots : s'.roots = s.roots := by rw [State.roots, hhandles, State.roots]
  have hcells : s'.heap.cells = s.heap.cells := by
    cases he with
    | builds hx =>
      have hm := hx.moves
      rw [hroots] at hm
      exact hm.cells_eq hs
    | rewrites hcontainer hj hs' hbool hchanged =>
      subst hs' hbool
      rcases hchanged with ⟨-, hm⟩ | ⟨hr, -⟩
      · exact (hm.mono le_rfl fun _ _ _ h => h.elim).cells_eq hs
      · rw [bool_failed ho] at hr
        cases hr
    | closes hcloses =>
      rw [closes_of_isPlain s hc] at hcloses
      cases hcloses
    | iterates hheap => rw [hheap]
  exact ⟨hcells, hhandles, by rw [hsame], by rw [hsame]⟩

theorem call_unchanged (hreach : (system E).Reachable s) (hc : c.isNative = true)
    (h : call E s c = some (s', o)) (ho : o.Failed) : Unchanged s s' := by
  have hs := reachable_balanced hreach
  have hnext := nextHandle_pos hreach
  by_cases hplain : c.isPlain = true
  · cases call_tabled hplain h with
    | same hsame => exact effect_unchanged hs hplain (call_effect hs h) hsame ho
    | opened json _ hhandle =>
      rw [hhandle] at ho
      exact absurd ho hnext.ne'
  · cases call_table hplain h with
    | refused | nothing => exact .refl s
    | keysCreated => exact absurd ho hnext.ne'
    | keyRead => exact ho.elim
    | _ => cases hc

theorem perform_unchanged (D : Encoder) (n : Native) (hreach : (system E).Reachable s)
    (h : n.perform E D s = some (s', o)) (ho : o.Failed) : Unchanged s s' := by
  cases n with
  | call c hc => exact call_unchanged hreach hc h ho
  | toString hndl maxlength flags =>
    simp only [Native.perform, toString, getJSONFromHandle] at h
    split at h
    · split at h <;> cases h <;> exact .refl s
    · cases h
      exact .refl s
  | toFile hndl path flags =>
    simp only [Native.perform, toFile, getJSONFromHandle] at h
    split at h <;> cases h <;> exact .refl s

end Unchanged

section Indexed
variable {E : Host} {s s' : State} {c : Call} {o : Outcome} {hndl : ℕ} {json : Ref} {index : Int32}

/-- A negative cell becomes a position that no array in memory has. -/
theorem toSize_lt_iff {n : ℕ} (hn : 8 * n ≤ 2 ^ 64) :
    toSize index < n ↔ 0 ≤ index.toInt ∧ index.toInt < n := by
  have hlow := index.le_toInt
  have hhigh := index.toInt_lt
  unfold toSize
  omega

theorem inArray_iff (hfits : s.FitsMemory) : InArray s json index ↔
    ∃ table, Store.read s.heap json = some (some (.array table)) ∧ toSize index < table.length := by
  unfold InArray
  refine exists_congr fun table => and_congr_right fun hread => ?_
  cases json with
  | node n =>
    obtain ⟨c, hc, hpayload⟩ := Option.map_eq_some_iff.mp hread
    exact (toSize_lt_iff (hfits n c table hc (Option.some.inj hpayload))).symm
  | _ => cases hread

theorem jsonArrayGet_isSome_iff {heap : Store} {i : ℕ} {value : Pointer}
    (h : jsonArrayGet heap json i = some value) : value.isSome ↔
      ∃ table, Store.read heap json = some (some (.array table)) ∧ i < table.length := by
  obtain ⟨p, hp, h⟩ := Option.bind_eq_some_iff.mp h
  rw [hp]
  split at h
  · cases h
    simp
  · next hne =>
    cases h
    refine iff_of_false (by simp) ?_
    rintro ⟨table, heq, -⟩
    exact hne table (Option.some.inj heq)

/-- What a getter does with the value it finds. -/
theorem withIndex_passes {found : Ref → Result} (hfits : s.FitsMemory)
    (hfound : ∀ v s' o, found v = some (s', o) → ∀ error, o = .error error →
      ∃ err, error = .noValueHandle err)
    (h : withIndex E s found hndl index = some (s', o)) :
    (∀ error, o = .error error → ∃ err, error = .noValueHandle err) ↔
      ∃ json, readHandle hndl s.handles = some json ∧ InArray s json index := by
  unfold withIndex getJSONFromHandle at h
  cases hj : readHandle hndl s.handles with
  | none =>
    rw [hj] at h
    cases h
    refine iff_of_false (fun herror => ?_) (by simp)
    obtain ⟨err, heq⟩ := herror _ rfl
    cases heq
  | some json =>
    rw [hj] at h
    obtain ⟨value, hget, h⟩ := Option.bind_eq_some_iff.mp h
    have hin : (∃ json', some json = some json' ∧ InArray s json' index) ↔ value.isSome := by
      rw [jsonArrayGet_isSome_iff hget, ← inArray_iff hfits]
      simp
    rw [hin]
    cases value with
    | none =>
      cases h
      refine iff_of_false (fun herror => ?_) (by simp)
      obtain ⟨err, heq⟩ := herror _ rfl
      cases heq
    | some v => exact iff_of_true (hfound v s' o h) rfl

theorem answer_error {α : Type*} {x : Option α} {f : α → Outcome}
    (hf : ∀ a error, f a ≠ .error error) (h : s.answer (x.map f) = some (s', o))
    (error : NativeError) (ho : o = .error error) : ∃ err, error = .noValueHandle err := by
  obtain ⟨o', ho', heq⟩ := Option.map_eq_some_iff.mp h
  obtain ⟨a, -, ha⟩ := Option.map_eq_some_iff.mp ho'
  cases heq
  exact absurd (ha.trans ho) (hf a error)

theorem getValue_error {refused : Option ℕ} {v : Ref} (h : getValue s refused v = some (s', o))
    (error : NativeError) (ho : o = .error error) : ∃ err, error = .noValueHandle err := by
  subst ho
  cases refused with
  | none =>
    obtain ⟨heap, -, heq⟩ := Option.map_eq_some_iff.mp h
    cases heq
  | some err =>
    cases h
    exact ⟨err, rfl⟩

theorem getArray_passes {getter : Getter} (hfits : s.FitsMemory)
    (h : getArray E s hndl index getter = some (s', o)) :
    (∀ error, o = .error error → ∃ err, error = .noValueHandle err) ↔
      ∃ json, readHandle hndl s.handles = some json ∧ InArray s json index := by
  cases getter with
  | value refused => exact withIndex_passes hfits (fun v s' o => getValue_error) h
  | bool | float | int | int64 maxlength | isNull =>
    refine withIndex_passes hfits (fun v s' o => answer_error ?_) h
    intro a error heq
    cases heq
  | string maxlength =>
    refine withIndex_passes hfits (fun v s' o => answer_error ?_) h
    intro text error heq
    cases text <;> cases heq

theorem refuse_false {H : Hashing} {heap : Store} {value : Pointer} {r : Bool × Store}
    (h : refuse H heap value = some r) : r.1 = false := by
  obtain ⟨heap', -, rfl⟩ := Option.map_eq_some_iff.mp h
  rfl

theorem read_array_node {heap : Store} {table : List Ref}
    (h : Store.read heap json = some (some (.array table))) : ∃ n, json = .node n := by
  cases json with
  | node n => exact ⟨n, rfl⟩
  | _ => cases h

/-- `json_array_set_new` returns success exactly for a position of an array, and for a value that
is not the array itself. -/
theorem jsonArraySetNew_flag {H : Hashing} {heap : Store} {i : ℕ} {value : Pointer}
    {r : Bool × Store} (h : jsonArraySetNew H heap json i value = some r) :
    r.1 = true ↔ (∃ v, value = some v ∧ json ≠ v) ∧
      ∃ table, Store.read heap json = some (some (.array table)) ∧ i < table.length := by
  cases value with
  | none =>
    cases h
    simp
  | some v =>
    by_cases harray : ∃ table, Store.read heap json = some (some (.array table))
    · obtain ⟨table, hread⟩ := harray
      obtain ⟨n, rfl⟩ := read_array_node hread
      simp only [jsonArraySetNew, hread, Option.bind_eq_bind, Option.bind_some] at h
      split_ifs at h with heq
      · simp [refuse_false h, heq]
      · cases hold : table[i]? with
        | none =>
          rw [hold] at h
          simp [refuse_false h, hread, List.getElem?_eq_none_iff.mp hold]
        | some old =>
          rw [hold] at h
          obtain ⟨heap₁, -, h⟩ := Option.bind_eq_some_iff.mp h
          obtain ⟨heap₂, -, h⟩ := Option.bind_eq_some_iff.mp h
          cases h
          simp [heq, hread, (List.getElem?_eq_some_iff.mp hold).1]
    · have hfalse : r.1 = false := by
        obtain ⟨p, hp, h'⟩ := Option.bind_eq_some_iff.mp h
        split at h'
        · exact absurd ⟨_, hp⟩ harray
        · exact refuse_false h'
      rw [hfalse]
      exact iff_of_false (by simp) fun hright => harray (hright.2.imp fun _ => And.left)

theorem jsonArrayRemove_flag {H : Hashing} {heap : Store} {i : ℕ} {r : Bool × Store}
    (h : jsonArrayRemove H heap json i = some r) :
    r.1 = true ↔ ∃ table, Store.read heap json = some (some (.array table)) ∧ i < table.length := by
  by_cases harray : ∃ table, Store.read heap json = some (some (.array table))
  · obtain ⟨table, hread⟩ := harray
    obtain ⟨n, rfl⟩ := read_array_node hread
    simp only [jsonArrayRemove, hread, Option.bind_eq_bind, Option.bind_some] at h
    cases hold : table[i]? with
    | none =>
      rw [hold] at h
      cases h
      simp [hread, List.getElem?_eq_none_iff.mp hold]
    | some old =>
      rw [hold] at h
      obtain ⟨heap₁, -, h⟩ := Option.bind_eq_some_iff.mp h
      obtain ⟨heap₂, -, h⟩ := Option.bind_eq_some_iff.mp h
      cases h
      simp [hread, (List.getElem?_eq_some_iff.mp hold).1]
  · have hfalse : r.1 = false := by
      obtain ⟨p, hp, h'⟩ := Option.bind_eq_some_iff.mp h
      split at h'
      · exact absurd ⟨_, hp⟩ harray
      · cases h'
        rfl
    rw [hfalse]
    exact iff_of_false (by simp) fun hright => harray (hright.imp fun _ => And.left)

theorem bool_eq_true {b : Bool} : Outcome.bool b = .bool true ↔ b = true := by
  cases b <;> decide

theorem error_ne_bool (error : NativeError) : Outcome.error error ≠ .bool true := by
  intro h
  cases h

/-- Making a value, or taking a reference to one, leaves the array as it is. -/
theorem read_of_moves {heap : Store} {V : Multiset ℕ} (hs : s.Counted E) (hj : Live s.heap json)
    (hm : Moves E.children s.roots NoEdit (s.heap, s.roots) (heap, V)) :
    Store.read heap json = Store.read s.heap json := by
  cases json with
  | node n => exact read_of_samePayload (hm.live_kept hs rfl (fun _ _ _ h => h.elim) (hj n rfl))
  | _ => rfl

theorem finish_flag {result : Option (Bool × Store)} (h : finish s result = some (s', o)) :
    ∃ r, result = some r ∧ o = .bool r.1 := by
  obtain ⟨r, hr, heq⟩ := Option.map_eq_some_iff.mp h
  cases heq
  exact ⟨r, hr, rfl⟩

/-- A native returns true if its handle is open and what it does with the value succeeds. -/
theorem getJSONFromHandle_flag {rest : Ref → Result} {P : Ref → Prop}
    (hrest : ∀ json, readHandle hndl s.handles = some json → rest json = some (s', o) →
      (o = .bool true ↔ P json))
    (h : getJSONFromHandle E s hndl rest = some (s', o)) :
    o = .bool true ↔ ∃ json, readHandle hndl s.handles = some json ∧ P json := by
  unfold getJSONFromHandle at h
  cases hj : readHandle hndl s.handles with
  | none =>
    rw [hj] at h
    cases h
    exact iff_of_false (error_ne_bool _) (by simp)
  | some json =>
    rw [hj] at h
    rw [hrest json hj h]
    simp

/-- A native that sets a value in the store that holds it. -/
theorem set_passes {heap : Store} {value : Pointer} (hs : s.Counted E) (hfits : s.FitsMemory)
    (hj : readHandle hndl s.handles = some json)
    (hm : Moves E.children s.roots NoEdit (s.heap, s.roots) (heap, ↑value.nodes + s.roots))
    (h : finish s (jsonArraySetNew E.toHashing heap json (toSize index) value) = some (s', o)) :
    o = .bool true ↔ InArray s json index ∧ ∃ v, value = some v ∧ json ≠ v := by
  obtain ⟨r, hr, rfl⟩ := finish_flag h
  rw [bool_eq_true, jsonArraySetNew_flag hr, read_of_moves hs (hs.live_handle hj) hm,
    ← inArray_iff hfits, and_comm]

theorem setArrayNew_passes {value : Value} {make : Store → Pointer × Store} (hs : s.Counted E)
    (hfits : s.FitsMemory) (hmake : Made E s value make)
    (h : setArrayNew E s make hndl index = some (s', o)) :
    o = .bool true ↔ ∃ json, readHandle hndl s.handles = some json ∧ InArray s json index ∧
      ∃ v, value.pointer s = some v ∧ json ≠ v := by
  refine getJSONFromHandle_flag (fun json hj h => ?_) h
  rw [hmake.pointer]
  exact set_passes hs hfits hj (hmake.moves s.roots) h

theorem setArrayValue_passes {hndlValue : ℕ} (hs : s.Counted E) (hfits : s.FitsMemory)
    (h : setArrayValue E s hndl index hndlValue = some (s', o)) :
    o = .bool true ↔ ∃ json, readHandle hndl s.handles = some json ∧ InArray s json index ∧
      ∃ v, readHandle hndlValue s.handles = some v ∧ json ≠ v := by
  refine getJSONFromHandle_flag (fun json hj h => ?_) h
  have hset : o = .bool true ↔ ∃ v, readHandle hndlValue s.handles = some v ∧
      InArray s json index ∧ json ≠ v := by
    refine getJSONFromHandle_flag (fun v hv h => ?_) h
    obtain ⟨heap, hi, hm⟩ := jsonIncref_moves (H := E.toHashing) (K := s.roots) (L := NoEdit)
      (R := s.roots) (hs.live_handle hv)
    simp only [jsonArraySet, hi, Option.bind_eq_bind, Option.bind_some] at h
    rw [set_passes hs hfits hj hm h]
    simp
  rw [hset]
  tauto

theorem setArray_passes {value : Value} (hs : s.Counted E) (hfits : s.FitsMemory)
    (h : setArray E s hndl index value = some (s', o)) :
    o = .bool true ↔ ∃ json, readHandle hndl s.handles = some json ∧ InArray s json index ∧
      ∃ v, value.pointer s = some v ∧ json ≠ v := by
  cases value with
  | handle hndlValue => exact setArrayValue_passes hs hfits h
  | bool value => exact setArrayNew_passes hs hfits (made_bool value) h
  | float value => exact setArrayNew_passes hs hfits (made_float value) h
  | int value => exact setArrayNew_passes hs hfits (made_int value) h
  | int64 val => exact setArrayNew_passes hs hfits (made_int64 val) h
  | null => exact setArrayNew_passes hs hfits made_null h
  | string val => exact setArrayNew_passes hs hfits (made_string val) h

theorem removeFromArray_passes (hfits : s.FitsMemory)
    (h : removeFromArray E s hndl index = some (s', o)) :
    o = .bool true ↔ ∃ json, readHandle hndl s.handles = some json ∧ InArray s json index := by
  refine getJSONFromHandle_flag (fun json hj h => ?_) h
  obtain ⟨r, hr, rfl⟩ := finish_flag h
  rw [bool_eq_true, jsonArrayRemove_flag hr, ← inArray_iff hfits]

/-- An indexed native gets past the check of its index exactly for the positions of an array. -/
theorem call_passesIndex (hs : s.Counted E) (hfits : s.FitsMemory)
    (hc : c.index = some (hndl, index)) (h : call E s c = some (s', o)) :
    c.PassesIndex o ↔ ∃ json, readHandle hndl s.handles = some json ∧ InArray s json index ∧
      c.GivesValue s json := by
  cases c with
  | getArray getter hndl' index' =>
    cases hc
    refine (getArray_passes hfits h).trans ?_
    simp [Call.GivesValue]
  | setArray hndl' index' value =>
    cases hc
    exact setArray_passes hs hfits h
  | removeFromArray hndl' index' =>
    cases hc
    refine (removeFromArray_passes hfits h).trans ?_
    simp [Call.GivesValue]
  | _ => cases hc

end Indexed

/-- In every reachable state, a native that throws or returns 0, `false` or null leaves every
document, every count and every handle as it was, and an indexed native gets past the check of its
index exactly when the handle is that of an array and the index one of its positions. -/
theorem failed_calls_change_nothing (E : Host) (D : Encoder) {s : State}
    (hreach : (system E).Reachable s) :
    (∀ (n : Native) s' o, n.perform E D s = some (s', o) → o.Failed → Unchanged s s') ∧
    (s.FitsMemory → ∀ (c : Call) hndl index s' o, c.index = some (hndl, index) →
      call E s c = some (s', o) →
        (c.PassesIndex o ↔ ∃ json, readHandle hndl s.handles = some json ∧
          InArray s json index ∧ c.GivesValue s json)) := by
  constructor
  · intro n s' o h ho
    exact perform_unchanged D n hreach h ho
  · intro hfits c hndl index s' o hc h
    exact call_passesIndex (reachable_balanced hreach) hfits hc h

/-- An array with one value. -/
def singletonRun : List Call := [.createArray none, .pushArray 1 (.bool 1)]

/-- An encoder that writes nothing. -/
def noEncoder : Encoder := ⟨fun _ _ _ => none, fun _ _ _ _ => false⟩

/-- A value is set at the index -1 of that array. -/
theorem negative_index_changes_nothing : ∃ s s', (system plainHost).run .empty singletonRun = some s ∧
    (Native.call (.setArray 1 (-1) (.int 7)) rfl).perform plainHost noEncoder s =
      some (s', .bool false) ∧ Unchanged s s' ∧ s.FitsMemory ∧
    ¬∃ json, readHandle 1 s.handles = some json ∧ InArray s json (-1) ∧
      (Call.setArray 1 (-1) (.int 7)).GivesValue s json := by
  have hview : ((system plainHost).run .empty singletonRun).map (fun s => (s.heap.next,
      (s.heap.cells 0).map Cell.payload,
      (call plainHost s (.setArray 1 (-1) (.int 7))).map (·.2))) =
      some (1, some (.array [.true]), some (.bool false)) := by decide
  obtain ⟨s, hs, hstate⟩ := Option.map_eq_some_iff.mp hview
  simp only [Prod.mk.injEq] at hstate
  obtain ⟨hnext, harray, hcall⟩ := hstate
  obtain ⟨⟨s', o⟩, hset, rfl⟩ := Option.map_eq_some_iff.mp hcall
  have hreach : (system plainHost).Reachable s := ⟨_, hs⟩
  have hfits : s.FitsMemory := by
    intro n c table hc htable
    have hlt := (reachable_balanced hreach).lt_next hc
    obtain rfl : n = 0 := by omega
    rw [hc, Option.map_some, htable] at harray
    cases harray
    decide
  obtain ⟨hunchanged, hindex⟩ := failed_calls_change_nothing plainHost noEncoder hreach
  refine ⟨s, s', hs, hset, hunchanged (.call (.setArray 1 (-1) (.int 7)) rfl) s' _ hset rfl, hfits,
    ?_⟩
  intro hpasses
  have htrue := (hindex hfits (.setArray 1 (-1) (.int 7)) 1 (-1) s' _ rfl hset).mpr hpasses
  cases htrue

end RipExt.Json
