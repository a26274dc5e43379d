import RipExt.Json.Natives

/-! What each native does to the store and to the handles: it builds something new, rewrites
one container, gives up one handle, or moves a key iterator. -/
namespace RipExt.Json
open RefCount

/-- The nodes that the open handles name, once for each handle. -/
def State.roots (s : State) : Multiset ℕ := ↑(s.handles.filterMap (·.2.node?))

/-- Every count is right between calls. -/
def State.Counted (E : Host) (s : State) : Prop := Balanced E.children s.heap s.roots []

section Tables
variable {α : Type*} {hndl : ℕ} {table rest : List (ℕ × α)} {x : α}

theorem takeHandle_perm (h : takeHandle hndl table = some (x, rest)) :
    table.Perm ((hndl, x) :: rest) := by
  induction table generalizing rest with
  | nil => cases h
  | cons y ys ih =>
    unfold takeHandle at h
    split_ifs at h with hy
    · cases h
      rw [← hy]
    · obtain ⟨⟨z, zs⟩, hz, heq⟩ := Option.map_eq_some_iff.mp h
      cases heq
      exact ((ih hz).cons y).trans (.swap ..)

theorem mem_of_readHandle (h : readHandle hndl table = some x) : (hndl, x) ∈ table := by
  obtain ⟨⟨y, ys⟩, hy, rfl⟩ := Option.map_eq_some_iff.mp h
  exact (takeHandle_perm hy).mem_iff.mpr (List.mem_cons_self ..)

theorem mem_updateHandle {z : ℕ × α} (h : z ∈ updateHandle hndl x table) :
    z = (hndl, x) ∨ z ∈ table := by
  induction table with
  | nil => cases h
  | cons y ys ih =>
    unfold updateHandle at h
    split_ifs at h with hy
    · rcases List.mem_cons.mp h with rfl | h
      · exact .inl rfl
      · exact .inr (List.mem_cons_of_mem _ h)
    · rcases List.mem_cons.mp h with rfl | h
      · exact .inr (List.mem_cons_self ..)
      · exact (ih h).imp_right (List.mem_cons_of_mem _)

end Tables

section Roots
variable {s : State} {hndl : ℕ} {json : Ref}

theorem roots_cons (s : State) (hndl : ℕ) (json : Ref) :
    (↑(((hndl, json) :: s.handles).filterMap (·.2.node?)) : Multiset ℕ) =
      ↑(Pointer.nodes (some json)) + s.roots := by
  cases json <;> rfl

theorem openHandle_roots (s : State) (json : Ref) :
    (s.openHandle json).1.roots = ↑(Pointer.nodes (some json)) + s.roots :=
  roots_cons s s.nextHandle json

theorem takeHandle_roots {handles : List (ℕ × Ref)}
    (h : takeHandle hndl s.handles = some (json, handles)) :
    s.roots = ↑(Pointer.nodes (some json)) + State.roots { s with handles } := by
  rw [← roots_cons { s with handles } hndl json]
  exact Multiset.coe_eq_coe.mpr ((takeHandle_perm h).filterMap _)

theorem mem_roots_iff {n : ℕ} : n ∈ s.roots ↔ ∃ hndl, (hndl, Ref.node n) ∈ s.handles := by
  simp only [State.roots, Multiset.mem_coe, List.mem_filterMap]
  constructor
  · rintro ⟨⟨hndl, json⟩, hx, hn⟩
    cases json with
    | node m =>
      obtain rfl : m = n := Option.some.inj hn
      exact ⟨hndl, hx⟩
    | _ => cases hn
  · rintro ⟨hndl, hx⟩
    exact ⟨_, hx, rfl⟩

theorem readHandle_root (h : readHandle hndl s.handles = some json) (n : ℕ) (hn : json = .node n) :
    n ∈ s.roots := mem_roots_iff.mpr ⟨hndl, hn ▸ mem_of_readHandle h⟩

end Roots

section Reading
variable {E : Host} {s : State} {hndl n : ℕ} {json : Ref}

/-- A pointer to memory that is not freed. -/
def Live (heap : Store) (json : Ref) : Prop := ∀ n, json = .node n → heap.cells n ≠ none

theorem Live.read {heap : Store} (h : Live heap json) : ∃ p, Store.read heap json = some p := by
  cases json with
  | node n =>
    obtain ⟨c, hc⟩ := Option.ne_none_iff_exists'.mp (h n rfl)
    exact ⟨some c.payload, by simp [Store.read, hc]⟩
  | _ => exact ⟨none, rfl⟩

theorem State.Counted.live_root (hs : s.Counted E) (hn : n ∈ s.roots) : s.heap.cells n ≠ none := by
  obtain ⟨c, hc⟩ := live_of_mem hs hn
  simp [hc]

theorem State.Counted.live_handle (hs : s.Counted E)
    (h : readHandle hndl s.handles = some json) : Live s.heap json :=
  fun n hn => hs.live_root (readHandle_root h n hn)

/-- What a live container holds is live. -/
theorem live_slot {H : Hashing} {heap : Store} {R : Multiset ℕ} {c : Cell Payload} {m : ℕ}
    (hb : Balanced H.children heap R []) (hc : heap.cells n = some c)
    (hm : m ∈ H.children c.payload) : heap.cells m ≠ none := by
  have hlive : heap.cells n ≠ none := by simp [hc]
  rw [hb.live_iff_held] at hlive ⊢
  refine hlive.own ?_
  rw [Owns, Heap.edges_of_alive hc (hb.alive hc)]
  exact hm

theorem State.Counted.live_child (hs : s.Counted E) {c : Cell Payload} {m : ℕ}
    (hc : s.heap.cells n = some c) (hm : m ∈ E.children c.payload) : s.heap.cells m ≠ none :=
  live_slot hs hc hm

theorem State.Counted.objectGet (hs : s.Counted E) (hj : Live s.heap json) (key : Bytes) :
    ∃ value, jsonObjectGet s.heap json key = some value ∧ ∀ v, value = some v → Live s.heap v := by
  obtain ⟨p, hp⟩ := hj.read
  cases p with
  | none => exact ⟨none, by simp [jsonObjectGet, hp], by simp⟩
  | some p =>
    cases p with
    | object es =>
      refine ⟨hashtableGet key es, by simp [jsonObjectGet, hp], fun v hv n hn => ?_⟩
      obtain ⟨e, he, rfl⟩ := Option.map_eq_some_iff.mp hv
      cases json with
      | node m =>
        obtain ⟨c, hc, hpay⟩ := Option.map_eq_some_iff.mp hp
        refine hs.live_child hc ?_
        rw [Option.some.inj hpay]
        exact mem_children_object _ (List.mem_of_find?_eq_some he) hn
      | _ => simp [Store.read] at hp
    | _ => exact ⟨none, by simp [jsonObjectGet, hp], by simp⟩

theorem State.Counted.arrayGet (hs : s.Counted E) (hj : Live s.heap json) (index : ℕ) :
    ∃ value, jsonArrayGet s.heap json index = some value ∧
      ∀ v, value = some v → Live s.heap v := by
  obtain ⟨p, hp⟩ := hj.read
  cases p with
  | none => exact ⟨none, by simp [jsonArrayGet, hp], by simp⟩
  | some p =>
    cases p with
    | array t =>
      refine ⟨t[index]?, by simp [jsonArrayGet, hp], fun v hv n hn => ?_⟩
      cases json with
      | node m =>
        obtain ⟨c, hc, hpay⟩ := Option.map_eq_some_iff.mp hp
        refine hs.live_child hc ?_
        rw [Option.some.inj hpay]
        exact mem_slots_of_mem (List.mem_of_getElem? hv) hn
      | _ => simp [Store.read] at hp
    | _ => exact ⟨none, by simp [jsonArrayGet, hp], by simp⟩

end Reading

/-- The pointer that a Set or Push native passes on. -/
def Value.pointer (s : State) : Value → Pointer
  | .handle hndl => readHandle hndl s.handles
  | .bool value => (boolOf value s.heap).1
  | .float value => (floatOf value s.heap).1
  | .int value => (intOf value s.heap).1
  | .int64 val => (jsonInteger s.heap (strtoll val).1).1
  | .null => (jsonNull s.heap).1
  | .string val => (stringOf val s.heap).1

/-- The handle of the container that a call may rewrite. -/
def Call.container : Call → Option ℕ
  | .setObject hndl _ _ | .setArray hndl _ _ | .pushArray hndl _ | .removeFromObject hndl _
  | .clearObject hndl | .removeFromArray hndl _ | .clearArray hndl => some hndl
  | _ => none

/-- The value that a call may put into the container. -/
def Call.inserted (s : State) : Call → Pointer
  | .setObject _ _ value | .setArray _ _ value | .pushArray _ value => value.pointer s
  | _ => none

/-- What a call makes of the contents of the container `json`. -/
def Call.Rewrites (s : State) (json : Ref) : Call → Payload → Payload → Prop
  | .setObject _ key value => fun p p' => utf8CheckString key = true ∧
      ∃ id v, value.pointer s = some v ∧ json ≠ v ∧ p.put id key v = some p'
  | .setArray _ index value => fun p p' =>
      ∃ v, value.pointer s = some v ∧ json ≠ v ∧ p.putAt (toSize index) v = some p'
  | .pushArray _ value => fun p p' =>
      ∃ v, value.pointer s = some v ∧ json ≠ v ∧ p.push v = some p'
  | .removeFromObject _ key => fun p p' => p.del key = some p'
  | .clearObject _ => fun p p' => p.clearObject = some p'
  | .removeFromArray _ index => fun p p' => p.removeAt (toSize index) = some p'
  | .clearArray _ => fun p p' => p.clearArray = some p'
  | _ => fun _ _ => False

/-- The htJSON handle that a call closes, if it is open. -/
def Call.closes (s : State) : Call → Option ℕ
  | .closeHandle hndl => some hndl
  | .closeResponse hndl => (readHandle hndl s.responses).bind (·.hndlData)
  | _ => none

/-- The cached object is live, and the cached pair is one of its own. -/
def JSONObjectKeys.Valid (heap : Store) (k : JSONObjectKeys) : Prop :=
  Live heap k.object ∧ ∀ id, k.iter = some id →
    ∃ es, Store.read heap k.object = some (some (.object es)) ∧ id ∈ es.map (·.id)

/-- New nodes and new handles: nothing that the plugin held is touched. -/
structure Extends (E : Host) (s s' : State) : Prop where
  moves : Moves E.children s.roots (Builds E.children s.heap.next) (s.heap, s.roots)
    (s'.heap, s'.roots)
  keys : s'.keys = s.keys

/-- What one call can do. -/
inductive Effect (E : Host) (s : State) (c : Call) (s' : State) (o : Outcome) : Prop
  | builds (h : Extends E s s')
  | rewrites {hndl : ℕ} {json : Ref} {r : Bool × Store} (hc : c.container = some hndl)
      (hj : readHandle hndl s.handles = some json) (hs' : s' = { s with heap := r.2 })
      (ho : o = .bool r.1)
      (h : Changed E.toHashing s.heap s.roots (c.inserted s).nodes s.roots json
        (c.Rewrites s json) r)
  | closes {hndl : ℕ} {json : Ref} (hc : c.closes s = some hndl)
      (hj : takeHandle hndl s.handles = some (json, s'.handles))
      (hd : jsonDecref E.toHashing s.heap (some json) = some s'.heap) (hkeys : s'.keys = s.keys)
  | iterates (hheap : s'.heap = s.heap) (hhandles : s'.handles = s.handles)
      (hkeys : ∀ k ∈ s'.keys, k ∈ s.keys ∨ k.2.Valid s.heap)

/-- A call that has a result, with the effect it says. -/
def Acts (E : Host) (s : State) (c : Call) (result : Result) : Prop :=
  ∃ s' o, result = some (s', o) ∧ Effect E s c s' o

section Extending
variable {E : Host} {s : State} {c : Call}

theorem Extends.refl (E : Host) (s : State) : Extends E s s := ⟨.refl, rfl⟩

theorem acts_extends {s' : State} {o : Outcome} (h : Extends E s s') :
    Acts E s c (some (s', o)) := ⟨s', o, rfl, .builds h⟩

theorem acts_fail (e : NativeError) : Acts E s c (s.fail e) := acts_extends (.refl E s)

theorem acts_getJSONFromHandle {hndl : ℕ} {rest : Ref → Result}
    (h : ∀ json, readHandle hndl s.handles = some json → Acts E s c (rest json)) :
    Acts E s c (getJSONFromHandle E s hndl rest) := by
  unfold getJSONFromHandle
  cases hj : readHandle hndl s.handles with
  | none => exact acts_fail _
  | some json => exact h json hj

theorem acts_answer {outcome : Option Outcome} (h : outcome.isSome) :
    Acts E s c (s.answer outcome) := by
  obtain ⟨o, rfl⟩ := Option.isSome_iff_exists.mp h
  exact acts_extends (.refl E s)

/-- A decoder that fails has given everything back. -/
theorem extends_of_failed {heap : Store}
    (hm : Moves E.children s.roots (Builds E.children s.heap.next) (s.heap, s.roots)
      (heap, ↑(Pointer.nodes none) + s.roots)) : Extends E s { s with heap } := by
  rw [nodes_none, Multiset.coe_nil, zero_add] at hm
  exact ⟨hm, rfl⟩

theorem openHandle_extends {heap : Store} {json : Ref}
    (hm : Moves E.children s.roots (Builds E.children s.heap.next) (s.heap, s.roots)
      (heap, ↑(Pointer.nodes (some json)) + s.roots)) :
    Extends E s (State.openHandle { s with heap } json).1 := by
  constructor
  · rw [openHandle_roots]
    exact hm
  · rfl

theorem createHandle_extends {heap : Store} (json : Ref) (refused : Option ℕ)
    (error : ℕ → NativeError) (hs : s.Counted E)
    (hm : Moves E.children s.roots (Builds E.children s.heap.next) (s.heap, s.roots)
      (heap, ↑(Pointer.nodes (some json)) + s.roots)) :
    ∃ s' o, createHandle E { s with heap } refused error json = some (s', o) ∧ Extends E s s' := by
  cases refused with
  | none => exact ⟨_, _, rfl, openHandle_extends hm⟩
  | some err =>
    obtain ⟨heap', hd, hm'⟩ := jsonDecref_moves (L := Builds E.children s.heap.next)
      (hm.balanced hs) (le_refl s.roots)
    exact ⟨{ s with heap := heap' }, .error (error err), by simp [createHandle, hd, State.fail],
      hm.trans hm', rfl⟩

theorem create_acts (container : Store → Pointer × Store) (p : Payload) (hs : s.Counted E)
    (hcontainer : container s.heap = (some (.node s.heap.next), s.heap.alloc p))
    (hp : E.children p = []) (error : ℕ → NativeError) (refused : Option ℕ) :
    Acts E s c (create E s container error refused) := by
  obtain ⟨s', o, hr, hx⟩ := createHandle_extends (.node s.heap.next) refused error hs
    (alloc_moves hp)
  exact ⟨s', o, by simp [create, hcontainer, hr], .builds hx⟩

theorem fromText_acts (hs : s.Counted E) (d : Document) (error : ℕ → NativeError)
    (refused : Option ℕ) : Acts E s c (fromText E s d error refused) := by
  obtain ⟨v, heap, hl, hm⟩ := jsonLoads_moves d hs
  cases v with
  | none =>
    exact ⟨{ s with heap }, .error (.syntaxError d.error), by simp [fromText, hl, State.fail],
      .builds (extends_of_failed hm)⟩
  | some json =>
    obtain ⟨s', o, hr, hx⟩ := createHandle_extends json refused error hs hm
    exact ⟨s', o, by simp [fromText, hl, hr], .builds hx⟩

theorem getResponseData_acts (hs : s.Counted E) (hndl : ℕ) (refused : Option ℕ) :
    Acts E s c (getResponseData E s hndl refused) := by
  cases hresponse : readHandle hndl s.responses with
  | none =>
    exact ⟨s, .error (.invalidResponse hndl (E.readError hndl)),
      by simp [getResponseData, hresponse, State.fail], .builds (.refl E s)⟩
  | some response =>
    cases hdata : response.hndlData with
    | some hndlData =>
      exact ⟨s, .handle hndlData, by simp [getResponseData, hresponse, hdata],
        .builds (.refl E s)⟩
    | none =>
      obtain ⟨v, heap, hl, hm⟩ := jsonLoads_moves response.body hs
      cases v with
      | none =>
        exact ⟨{ s with heap }, .error (.syntaxError response.body.error),
          by simp [getResponseData, hresponse, hdata, hl, State.fail],
          .builds (extends_of_failed hm)⟩
      | some json =>
        obtain ⟨s', o, hr, hx⟩ := createHandle_extends json refused .noDataHandle hs hm
        refine ⟨{ s' with
          responses := updateHandle hndl { response with hndlData := o.handle? } s'.responses },
          o, ?_, .builds ⟨hx.moves, hx.keys⟩⟩
        simp [getResponseData, hresponse, hdata, hl, hr]

end Extending

section Getting
variable {E : Host} {s : State} {c : Call} {v : Ref}

theorem acts_withKey (missing : Bytes → Outcome) {found : Ref → Result} (hs : s.Counted E)
    (hfound : ∀ v, Live s.heap v → Acts E s c (found v)) (hndl : ℕ) (key : Bytes) :
    Acts E s c (withKey E s missing found hndl key) := by
  apply acts_getJSONFromHandle
  intro json hj
  obtain ⟨value, hget, hlive⟩ := hs.objectGet (hs.live_handle hj) key
  rw [hget, Option.bind_some]
  cases value with
  | none => exact acts_extends (.refl E s)
  | some v => exact hfound v (hlive v rfl)

theorem acts_withIndex {found : Ref → Result} (hs : s.Counted E)
    (hfound : ∀ v, Live s.heap v → Acts E s c (found v)) (hndl : ℕ) (index : Int32) :
    Acts E s c (withIndex E s found hndl index) := by
  apply acts_getJSONFromHandle
  intro json hj
  obtain ⟨value, hget, hlive⟩ := hs.arrayGet (hs.live_handle hj) (toSize index)
  rw [hget, Option.bind_some]
  cases value with
  | none => exact acts_fail _
  | some v => exact hfound v (hlive v rfl)

theorem getValue_acts (refused : Option ℕ) (hv : Live s.heap v) :
    Acts E s c (getValue s refused v) := by
  cases refused with
  | some err => exact acts_fail _
  | none =>
    obtain ⟨heap, hi, hm⟩ := jsonIncref_moves (H := E.toHashing) (K := s.roots)
      (L := Builds E.children s.heap.next) (R := s.roots) hv
    exact ⟨_, .handle s.nextHandle, by simp only [getValue, hi, Option.map_some]; rfl,
      .builds (openHandle_extends hm)⟩

theorem boolValue_acts (hv : Live s.heap v) : Acts E s c (boolValue s v) := by
  obtain ⟨p, hp⟩ := hv.read
  exact acts_answer (by simp [jsonBooleanValue, hp])

theorem isNullValue_acts (hv : Live s.heap v) : Acts E s c (isNullValue s v) := by
  obtain ⟨p, hp⟩ := hv.read
  exact acts_answer (by simp [jsonIsNull, hp])

theorem jsonIntegerValue_isSome (hv : Live s.heap v) : (jsonIntegerValue s.heap v).isSome := by
  obtain ⟨p, hp⟩ := hv.read
  rw [jsonIntegerValue, hp, Option.bind_eq_bind, Option.bind_some]
  split <;> rfl

theorem floatValue_acts (hv : Live s.heap v) : Acts E s c (floatValue s v) := by
  obtain ⟨p, hp⟩ := hv.read
  apply acts_answer
  rw [Option.isSome_map, jsonNumberValue, hp, Option.bind_eq_bind, Option.bind_some]
  split <;> rfl

theorem intValue_acts (hv : Live s.heap v) : Acts E s c (intValue s v) :=
  acts_answer (by rw [Option.isSome_map]; exact jsonIntegerValue_isSome hv)

theorem int64Value_acts (maxlength : ℕ) (hv : Live s.heap v) :
    Acts E s c (int64Value E s maxlength v) :=
  acts_answer (by rw [Option.isSome_map]; exact jsonIntegerValue_isSome hv)

theorem stringValue_acts (maxlength : ℕ) (hv : Live s.heap v) :
    Acts E s c (stringValue E s maxlength v) := by
  obtain ⟨p, hp⟩ := hv.read
  apply acts_answer
  rw [Option.isSome_map, jsonStringValue, hp, Option.bind_eq_bind, Option.bind_some]
  split <;> rfl

theorem getObject_acts (hs : s.Counted E) (g : Getter) (hndl : ℕ) (key : Bytes) :
    Acts E s c (getObject E s hndl key g) := by
  cases g with
  | value refused => exact acts_withKey noKey hs (fun _ => getValue_acts refused) hndl key
  | bool => exact acts_withKey noKey hs (fun _ => boolValue_acts) hndl key
  | float => exact acts_withKey noKey hs (fun _ => floatValue_acts) hndl key
  | int => exact acts_withKey noKey hs (fun _ => intValue_acts) hndl key
  | int64 maxlength =>
    exact acts_withKey (fun _ => .cell 0) hs (fun _ => int64Value_acts maxlength) hndl key
  | string maxlength =>
    exact acts_withKey (fun _ => .cell 0) hs (fun _ => stringValue_acts maxlength) hndl key
  | isNull => exact acts_withKey noKey hs (fun _ => isNullValue_acts) hndl key

theorem getArray_acts (hs : s.Counted E) (g : Getter) (hndl : ℕ) (index : Int32) :
    Acts E s c (getArray E s hndl index g) := by
  cases g with
  | value refused => exact acts_withIndex hs (fun _ => getValue_acts refused) hndl index
  | bool => exact acts_withIndex hs (fun _ => boolValue_acts) hndl index
  | float => exact acts_withIndex hs (fun _ => floatValue_acts) hndl index
  | int => exact acts_withIndex hs (fun _ => intValue_acts) hndl index
  | int64 maxlength => exact acts_withIndex hs (fun _ => int64Value_acts maxlength) hndl index
  | string maxlength => exact acts_withIndex hs (fun _ => stringValue_acts maxlength) hndl index
  | isNull => exact acts_withIndex hs (fun _ => isNullValue_acts) hndl index

theorem getObjectSize_acts (hs : s.Counted E) (hndl : ℕ) : Acts E s c (getObjectSize E s hndl) := by
  apply acts_getJSONFromHandle
  intro json hj
  obtain ⟨p, hp⟩ := (hs.live_handle hj).read
  apply acts_answer
  rw [Option.isSome_map, jsonObjectSize, hp, Option.bind_eq_bind, Option.bind_some]
  split <;> rfl

theorem getArraySize_acts (hs : s.Counted E) (hndl : ℕ) : Acts E s c (getArraySize E s hndl) := by
  apply acts_getJSONFromHandle
  intro json hj
  obtain ⟨p, hp⟩ := (hs.live_handle hj).read
  apply acts_answer
  rw [Option.isSome_map, jsonArraySize, hp, Option.bind_eq_bind, Option.bind_some]
  split <;> rfl

end Getting

section Setting
variable {E : Host} {s : State} {c : Call} {hndl : ℕ}

/-- A value that a native makes from its arguments: a new node without slots, a singleton, or
nothing. -/
structure Made (E : Host) (s : State) (value : Value) (make : Store → Pointer × Store) : Prop where
  pointer : value.pointer s = (make s.heap).1
  moves : ∀ R, Moves E.children R NoEdit (s.heap, R)
    ((make s.heap).2, ↑(make s.heap).1.nodes + R)

theorem made_of_alloc {value : Value} {make : Store → Pointer × Store} {p : Payload}
    (hpointer : value.pointer s = (make s.heap).1) (hp : E.children p = [])
    (hmake : make s.heap = (some (.node s.heap.next), s.heap.alloc p)) :
    Made E s value make := by
  refine ⟨hpointer, fun R => ?_⟩
  rw [hmake]
  exact alloc_moves hp

theorem made_of_static {value : Value} {make : Store → Pointer × Store}
    (hpointer : value.pointer s = (make s.heap).1) (hnodes : (make s.heap).1.nodes = [])
    (hheap : (make s.heap).2 = s.heap) : Made E s value make := by
  refine ⟨hpointer, fun R => ?_⟩
  rw [hnodes, hheap, Multiset.coe_nil, zero_add]
  exact .refl

theorem made_bool (value : Int32) : Made E s (.bool value) (boolOf value) := by
  apply made_of_static rfl _ rfl
  by_cases h : value = 0 <;> simp [boolOf, jsonBoolean, h, Pointer.nodes, Ref.node?]

theorem made_float (value : UInt32) : Made E s (.float value) (floatOf value) := by
  cases h : spCtof value with
  | none => exact made_of_static rfl (by simp [floatOf, jsonReal, h]) (by simp [floatOf, jsonReal, h])
  | some x =>
    have hmake : floatOf value s.heap = (some (.node s.heap.next), s.heap.alloc (.real x)) := by
      simp [floatOf, jsonReal, h]
    exact made_of_alloc rfl rfl hmake

theorem made_int (value : Int32) : Made E s (.int value) (intOf value) :=
  made_of_alloc (p := .integer value.toInt) rfl rfl rfl

theorem made_int64 (val : Bytes) : Made E s (.int64 val) (jsonInteger · (strtoll val).1) :=
  made_of_alloc (p := .integer (strtoll val).1) rfl rfl rfl

theorem made_null : Made E s .null jsonNull := made_of_static rfl rfl rfl

theorem made_string (val : Bytes) : Made E s (.string val) (stringOf val) := by
  by_cases h : utf8CheckString val = true
  · have hmake : stringOf val s.heap = (some (.node s.heap.next), s.heap.alloc (.string val)) := by
      simp [stringOf, jsonString, jsonStringNocheck, h]
    exact made_of_alloc rfl rfl hmake
  · exact made_of_static rfl (by simp [stringOf, jsonString, h]) (by simp [stringOf, jsonString, h])

/-- A native that rewrites its container through a function of `value.c`. -/
theorem finish_acts {f : Ref → Option (Bool × Store)} (hc : c.container = some hndl)
    (hf : ∀ json, readHandle hndl s.handles = some json → ∃ r, f json = some r ∧
      Changed E.toHashing s.heap s.roots (c.inserted s).nodes s.roots json (c.Rewrites s json) r) :
    Acts E s c (getJSONFromHandle E s hndl fun json => finish s (f json)) := by
  apply acts_getJSONFromHandle
  intro json hj
  obtain ⟨r, hr, hch⟩ := hf json hj
  exact ⟨{ s with heap := r.2 }, .bool r.1, by simp [finish, hr], .rewrites hc hj rfl rfl hch⟩

variable {value : Value} {make : Store → Pointer × Store}

theorem setObjectNew_acts (hs : s.Counted E) (hmake : Made E s value make) (key : Bytes) :
    Acts E s (.setObject hndl key value) (setObjectNew E s make hndl key) := by
  refine finish_acts rfl fun json hj => ?_
  obtain ⟨r, hr, hc⟩ := jsonObjectSetNew_changed json key ((hmake.moves s.roots).balanced hs)
    (readHandle_root hj)
  refine ⟨r, hr, ?_⟩
  simp only [Call.inserted, Call.Rewrites, hmake.pointer]
  exact hc.prepend (hmake.moves s.roots)

theorem setArrayNew_acts (hs : s.Counted E) (hmake : Made E s value make) (index : Int32) :
    Acts E s (.setArray hndl index value) (setArrayNew E s make hndl index) := by
  refine finish_acts rfl fun json hj => ?_
  obtain ⟨r, hr, hc⟩ := jsonArraySetNew_changed json (toSize index)
    ((hmake.moves s.roots).balanced hs) (readHandle_root hj)
  refine ⟨r, hr, ?_⟩
  simp only [Call.inserted, Call.Rewrites, hmake.pointer]
  exact hc.prepend (hmake.moves s.roots)

theorem pushArrayNew_acts (hs : s.Counted E) (hmake : Made E s value make) :
    Acts E s (.pushArray hndl value) (pushArrayNew E s make hndl) := by
  refine finish_acts rfl fun json hj => ?_
  obtain ⟨r, hr, hc⟩ := jsonArrayAppendNew_changed json ((hmake.moves s.roots).balanced hs)
    (readHandle_root hj)
  refine ⟨r, hr, ?_⟩
  simp only [Call.inserted, Call.Rewrites, hmake.pointer]
  exact hc.prepend (hmake.moves s.roots)

/-- A native that rewrites its container with a value named by a handle. -/
theorem finishValue_acts {f : Ref → Ref → Option (Bool × Store)} {hndlValue : ℕ}
    (hc : c.container = some hndl)
    (hf : ∀ json v, readHandle hndl s.handles = some json →
      readHandle hndlValue s.handles = some v → ∃ r, f json v = some r ∧
        Changed E.toHashing s.heap s.roots (c.inserted s).nodes s.roots json (c.Rewrites s json)
          r) :
    Acts E s c (getJSONFromHandle E s hndl fun json =>
      getJSONFromHandle E s hndlValue fun v => finish s (f json v)) := by
  apply acts_getJSONFromHandle
  intro json hj
  apply acts_getJSONFromHandle
  intro v hv
  obtain ⟨r, hr, hch⟩ := hf json v hj hv
  exact ⟨{ s with heap := r.2 }, .bool r.1, by simp [finish, hr], .rewrites hc hj rfl rfl hch⟩

theorem setObjectValue_acts (hs : s.Counted E) (key : Bytes) (hndlValue : ℕ) :
    Acts E s (.setObject hndl key (.handle hndlValue)) (setObjectValue E s hndl key hndlValue) := by
  refine finishValue_acts rfl fun json v hj hv => ?_
  simp only [Call.inserted, Call.Rewrites, Value.pointer, hv]
  exact shared_changed hs (readHandle_root hv) fun heap hb =>
    jsonObjectSetNew_changed json key hb (readHandle_root hj)

theorem setArrayValue_acts (hs : s.Counted E) (index : Int32) (hndlValue : ℕ) :
    Acts E s (.setArray hndl index (.handle hndlValue))
      (setArrayValue E s hndl index hndlValue) := by
  refine finishValue_acts rfl fun json v hj hv => ?_
  simp only [Call.inserted, Call.Rewrites, Value.pointer, hv]
  exact shared_changed hs (readHandle_root hv) fun heap hb =>
    jsonArraySetNew_changed json (toSize index) hb (readHandle_root hj)

theorem pushArrayValue_acts (hs : s.Counted E) (hndlValue : ℕ) :
    Acts E s (.pushArray hndl (.handle hndlValue)) (pushArrayValue E s hndl hndlValue) := by
  refine finishValue_acts rfl fun json v hj hv => ?_
  simp only [Call.inserted, Call.Rewrites, Value.pointer, hv]
  exact shared_changed hs (readHandle_root hv) fun heap hb =>
    jsonArrayAppendNew_changed json hb (readHandle_root hj)

theorem setObject_acts (hs : s.Counted E) (key : Bytes) (value : Value) :
    Acts E s (.setObject hndl key value) (setObject E s hndl key value) := by
  cases value with
  | handle hndlValue => exact setObjectValue_acts hs key hndlValue
  | bool value => exact setObjectNew_acts hs (made_bool value) key
  | float value => exact setObjectNew_acts hs (made_float value) key
  | int value => exact setObjectNew_acts hs (made_int value) key
  | int64 val => exact setObjectNew_acts hs (made_int64 val) key
  | null => exact setObjectNew_acts hs made_null key
  | string val => exact setObjectNew_acts hs (made_string val) key

theorem setArray_acts (hs : s.Counted E) (index : Int32) (value : Value) :
    Acts E s (.setArray hndl index value) (setArray E s hndl index value) := by
  cases value with
  | handle hndlValue => exact setArrayValue_acts hs index hndlValue
  | bool value => exact setArrayNew_acts hs (made_bool value) index
  | float value => exact setArrayNew_acts hs (made_float value) index
  | int value => exact setArrayNew_acts hs (made_int value) index
  | int64 val => exact setArrayNew_acts hs (made_int64 val) index
  | null => exact setArrayNew_acts hs made_null index
  | string val => exact setArrayNew_acts hs (made_string val) index

theorem pushArray_acts (hs : s.Counted E) (value : Value) :
    Acts E s (.pushArray hndl value) (pushArray E s hndl value) := by
  cases value with
  | handle hndlValue => exact pushArrayValue_acts hs hndlValue
  | bool value => exact pushArrayNew_acts hs (made_bool value)
  | float value => exact pushArrayNew_acts hs (made_float value)
  | int value => exact pushArrayNew_acts hs (made_int value)
  | int64 val => exact pushArrayNew_acts hs (made_int64 val)
  | null => exact pushArrayNew_acts hs made_null
  | string val => exact pushArrayNew_acts hs (made_string val)

theorem removeFromObject_acts (hs : s.Counted E) (key : Bytes) :
    Acts E s (.removeFromObject hndl key) (removeFromObject E s hndl key) :=
  finish_acts rfl fun json hj => jsonObjectDel_changed json key hs (readHandle_root hj)

theorem clearObject_acts (hs : s.Counted E) :
    Acts E s (.clearObject hndl) (clearObject E s hndl) :=
  finish_acts rfl fun json hj => jsonObjectClear_changed json hs (readHandle_root hj)

theorem removeFromArray_acts (hs : s.Counted E) (index : Int32) :
    Acts E s (.removeFromArray hndl index) (removeFromArray E s hndl index) :=
  finish_acts rfl fun json hj => jsonArrayRemove_changed json (toSize index) hs (readHandle_root hj)

theorem clearArray_acts (hs : s.Counted E) :
    Acts E s (.clearArray hndl) (clearArray E s hndl) :=
  finish_acts rfl fun json hj => jsonArrayClear_changed json hs (readHandle_root hj)

end Setting

section Closing
variable {E : Host} {s : State} {c : Call} {hndl : ℕ}

theorem closeHandle_acts {s₀ : State} (hs : s.Counted E) (hc : c.closes s₀ = some hndl)
    (hheap : s.heap = s₀.heap) (hhandles : s.handles = s₀.handles) (hkeys : s.keys = s₀.keys) :
    Acts E s₀ c (closeHandle E s hndl) := by
  unfold closeHandle
  cases ht : takeHandle hndl s.handles with
  | none =>
    refine acts_extends ⟨?_, hkeys⟩
    rw [State.roots, State.roots, hheap, hhandles]
    exact .refl
  | some r =>
    obtain ⟨json, handles⟩ := r
    unfold State.Counted at hs
    rw [takeHandle_roots ht] at hs
    obtain ⟨heap, hd, -⟩ := jsonDecref_moves (L := NoEdit) hs (le_refl _)
    exact ⟨{ s with heap, handles }, .bool true, by simp [hd],
      .closes hc (hhandles ▸ ht) (hheap ▸ hd) hkeys⟩

theorem closeResponse_acts (hs : s.Counted E) :
    Acts E s (.closeResponse hndl) (closeResponse E s hndl) := by
  unfold closeResponse
  cases ht : takeHandle hndl s.responses with
  | none => exact acts_extends (.refl E s)
  | some r =>
    obtain ⟨response, responses⟩ := r
    cases hdata : response.hndlData with
    | none => exact ⟨{ s with responses }, .bool true, by simp [hdata], .builds ⟨.refl, rfl⟩⟩
    | some hndlData =>
      have hc : Call.closes s (.closeResponse hndl) = some hndlData := by
        simp [Call.closes, readHandle, ht, hdata]
      obtain ⟨s', o, hr, he⟩ := closeHandle_acts (s := { s with responses }) hs hc rfl rfl rfl
      exact ⟨s', o, by simp [hdata, hr], he⟩

end Closing

section Iterating
variable {E : Host} {s s' : State} {c : Call} {hndl : ℕ} {o : Outcome}

theorem jsonObjectIter_valid {json : Ref} (hlive : Live s.heap json) :
    ∃ iter, jsonObjectIter s.heap json = some iter ∧ JSONObjectKeys.Valid s.heap ⟨json, iter⟩ := by
  obtain ⟨p, hp⟩ := hlive.read
  rw [jsonObjectIter, hp, Option.bind_eq_bind, Option.bind_some]
  split
  next _ es =>
    refine ⟨_, rfl, hlive, fun id hid => ⟨es, hp, ?_⟩⟩
    obtain ⟨e, he, rfl⟩ := Option.map_eq_some_iff.mp hid
    exact List.mem_map_of_mem (List.mem_of_head? he)
  next => exact ⟨none, rfl, hlive, by simp⟩

theorem createObjectKeys_acts (hs : s.Counted E) (refused : Option ℕ) :
    Acts E s c (createObjectKeys E s hndl refused) := by
  apply acts_getJSONFromHandle
  intro json hj
  obtain ⟨iter, hi, hvalid⟩ := jsonObjectIter_valid (hs.live_handle hj)
  rw [hi, Option.bind_some]
  cases refused with
  | some err => exact acts_fail _
  | none =>
    refine ⟨_, _, rfl, .iterates rfl rfl fun k hk => ?_⟩
    rcases List.mem_cons.mp hk with rfl | hk
    · exact .inr hvalid
    · exact .inl hk

theorem closeKeys_acts : Acts E s c (closeKeys s hndl) := by
  unfold closeKeys
  cases ht : takeHandle hndl s.keys with
  | none => exact acts_extends (.refl E s)
  | some r =>
    refine ⟨_, _, rfl, .iterates rfl rfl fun k hk => .inl ?_⟩
    exact (takeHandle_perm ht).mem_iff.mpr (List.mem_cons_of_mem _ hk)

theorem live_of_read {heap : Store} {json : Ref} {p : Option Payload}
    (h : Store.read heap json = some p) : Live heap json := by
  rintro n rfl hnone
  simp [Store.read, hnone] at h

theorem entriesFrom_sublist {heap : Store} {json : Ref} {id : ℕ} {e : Entry} {rest : List Entry}
    (h : entriesFrom heap json id = some (e, rest)) :
    ∃ es, Store.read heap json = some (some (.object es)) ∧ (e :: rest).Sublist es := by
  obtain ⟨p, hp, h⟩ := Option.bind_eq_some_iff.mp h
  split at h
  next es =>
    split at h
    next e' rest' hes =>
      cases h
      exact ⟨es, hp, hes ▸ List.dropWhile_sublist _⟩
    next => cases h
  next => cases h

/-- The pair after one that is still there is there too. -/
theorem jsonObjectIterNext_valid {heap : Store} {json : Ref} {iter next : Option ℕ}
    (h : jsonObjectIterNext heap json iter = some next) :
    JSONObjectKeys.Valid heap ⟨json, next⟩ := by
  obtain ⟨p, hp, h⟩ := Option.bind_eq_some_iff.mp h
  refine ⟨live_of_read hp, fun id hid => ?_⟩
  split at h
  next =>
    obtain ⟨⟨e, rest⟩, hfrom, hnext⟩ := Option.map_eq_some_iff.mp h
    obtain ⟨es, hes, hsub⟩ := entriesFrom_sublist hfrom
    obtain ⟨e', he', rfl⟩ := Option.map_eq_some_iff.mp (hnext.trans hid)
    exact ⟨es, hes, List.mem_map_of_mem (hsub.mem (List.mem_cons_of_mem _ (List.mem_of_head? he')))⟩
  next =>
    cases h
    cases hid

theorem readObjectKey_effect {maxlength : ℕ} (h : readObjectKey E s hndl maxlength = some (s', o)) :
    Effect E s c s' o := by
  unfold readObjectKey at h
  split at h
  next =>
    cases h
    exact .builds (.refl E s)
  next keys _ =>
    obtain ⟨key, -, h⟩ := Option.bind_eq_some_iff.mp h
    split at h
    next =>
      cases h
      exact .builds (.refl E s)
    next key =>
      obtain ⟨iter, hnext, h⟩ := Option.map_eq_some_iff.mp h
      cases h
      refine .iterates rfl rfl fun k hk => ?_
      rcases mem_updateHandle hk with rfl | hk
      · exact .inr (jsonObjectIterNext_valid hnext)
      · exact .inl hk

end Iterating

section Calls
variable {E : Host} {s s' : State} {c : Call} {o : Outcome}

/-- The one call that can touch freed memory. -/
def Call.readsKey : Call → Bool
  | .readObjectKey _ _ => true
  | _ => false

theorem call_acts (hs : s.Counted E) (hc : c.readsKey = false) : Acts E s c (call E s c) := by
  cases c with
  | createObject refused =>
    exact create_acts jsonObject (.object []) hs rfl (children_object_perm E.toHashing []).eq_nil
      .noObjectHandle refused
  | createArray refused =>
    exact create_acts jsonArray (.array []) hs rfl rfl (fun _ => .noArrayHandle) refused
  | fromString d refused => exact fromText_acts hs d .noObjectHandle refused
  | fromFile d refused => exact fromText_acts hs d .noObjectHandle refused
  | getObjectSize hndl => exact getObjectSize_acts hs hndl
  | getArraySize hndl => exact getArraySize_acts hs hndl
  | isObjectKeyValid hndl key =>
    exact acts_withKey (fun _ => .bool false) hs (fun _ _ => acts_extends (.refl E s)) hndl key
  | getObject getter hndl key => exact getObject_acts hs getter hndl key
  | getArray getter hndl index => exact getArray_acts hs getter hndl index
  | setObject hndl key value => exact setObject_acts hs key value
  | setArray hndl index value => exact setArray_acts hs index value
  | pushArray hndl value => exact pushArray_acts hs value
  | removeFromObject hndl key => exact removeFromObject_acts hs key
  | clearObject hndl => exact clearObject_acts hs
  | removeFromArray hndl index => exact removeFromArray_acts hs index
  | clearArray hndl => exact clearArray_acts hs
  | createObjectKeys hndl refused => exact createObjectKeys_acts hs refused
  | readObjectKey hndl maxlength => cases hc
  | closeKeys hndl => exact closeKeys_acts
  | closeHandle hndl => exact closeHandle_acts hs rfl rfl rfl rfl
  | openResponse body => exact ⟨_, _, rfl, .builds ⟨.refl, rfl⟩⟩
  | getResponseData hndl refused => exact getResponseData_acts hs hndl refused
  | closeResponse hndl => exact closeResponse_acts hs

/-- Whatever a call does, it is one of the four effects. -/
theorem call_effect (hs : s.Counted E) (h : call E s c = some (s', o)) : Effect E s c s' o := by
  cases hc : c.readsKey with
  | false =>
    obtain ⟨t, o', ht, he⟩ := call_acts hs hc
    rw [h] at ht
    cases ht
    exact he
  | true =>
    cases c with
    | readObjectKey hndl maxlength => exact readObjectKey_effect h
    | _ => cases hc

end Calls

end RipExt.Json
