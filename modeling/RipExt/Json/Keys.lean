import RipExt.Json.Handles
import Mathlib.Data.List.TakeWhile

/-! Key iterators. A `JSONObjectKeys` holds its object and its pair without counting either;
both stay valid exactly as long as no call gives up the last reference to the object and no
call removes the pair. -/
namespace RipExt.Json
open RefCount

/-- No open iterator dangles. -/
def State.KeysValid (s : State) : Prop := ∀ k ∈ s.keys, k.2.Valid s.heap

/-- The pairs of an object. -/
def Payload.ids : Payload → List ℕ
  | .object es => es.map (·.id)
  | _ => []

/-- The contents of a container without the references and the pairs that a call gives up. -/
def Call.leaves : Call → Payload → Payload
  | .setObject _ key _, .object es =>
      .object (((replaceValue key .null es).map (·.2)).getD es)
  | .setArray _ index _, p => (p.putAt (toSize index) .null).getD p
  | .removeFromObject _ key, p => (p.del key).getD p
  | .clearObject _, p => p.clearObject.getD p
  | .removeFromArray _ index, p => (p.removeAt (toSize index)).getD p
  | .clearArray _, p => p.clearArray.getD p
  | _, p => p

/-- The checks before a container is touched: a valid key, and a value other than the
container itself. -/
def Call.Accepted (s : State) (json : Ref) : Call → Prop
  | .setObject _ key value =>
      utf8CheckString key = true ∧ ∃ v, value.pointer s = some v ∧ json ≠ v
  | .setArray _ _ value | .pushArray _ value => ∃ v, value.pointer s = some v ∧ json ≠ v
  | _ => True

/-- The iterated objects that are nodes. -/
def State.Iterated (s : State) (m : ℕ) : Prop := ∃ k ∈ s.keys, k.2.object = .node m

/-- The handle that a call closes is not what keeps an iterated object alive. -/
def Call.SparesObjects (E : Host) (s : State) (c : Call) : Prop :=
  ∀ hndl json handles, c.closes s = some hndl →
    takeHandle hndl s.handles = some (json, handles) → ∀ m, s.Iterated m →
      Ownership.Held {n | n ∈ State.roots { s with handles }} (Owns E.children s.heap) m

/-- The references that a call takes out of a container are not what keeps an iterated object
alive, and the pairs it takes out are not what an iterator stands on. -/
def Call.SparesPairs (E : Host) (s : State) (c : Call) : Prop :=
  ∀ hndl n cell, c.container = some hndl → readHandle hndl s.handles = some (.node n) →
    c.Accepted s (.node n) → s.heap.cells n = some cell →
      (∀ m, s.Iterated m → Ownership.Held {n | n ∈ s.roots}
        (Owns E.children (s.heap.setPayload n (c.leaves cell.payload))) m) ∧
      ∀ k ∈ s.keys, k.2.object = .node n → ∀ id, k.2.iter = some id →
        id ∈ (c.leaves cell.payload).ids

def Call.KeepsKeys (E : Host) (s : State) (c : Call) : Prop :=
  c.SparesObjects E s ∧ c.SparesPairs E s

section Leaves
variable {key : Bytes} {v old : Ref} {es es' : List Entry}

/-- The value that is replaced does not depend on the one that replaces it. -/
theorem replaceValue_old (h : replaceValue key v es = some (old, es')) (w : Ref) :
    ∃ fs, replaceValue key w es = some (old, fs) := by
  obtain ⟨before, e, after, rfl, hkey, rfl, hbefore, -⟩ := replaceValue_eq_some_iff.mp h
  exact ⟨_, replaceValue_eq_some_iff.mpr ⟨before, e, after, rfl, hkey, rfl, hbefore, rfl⟩⟩

theorem mem_of_count_le {l l' : List ℕ} (h : ∀ m, l.count m ≤ l'.count m) {w : ℕ} (hw : w ∈ l) :
    w ∈ l' := by
  have hpos := List.count_pos_iff.mpr hw
  exact List.count_pos_iff.mp (hpos.trans_le (h w))

/-- What a call leaves of a container is part of it before and after. -/
structure Left (H : Hashing) (q p p' : Payload) : Prop where
  before : ∀ m, (H.children q).count m ≤ (H.children p).count m
  after : ∀ m, (H.children q).count m ≤ (H.children p').count m
  ids : ∀ id ∈ q.ids, id ∈ p'.ids

theorem Left.self {H : Hashing} {p p' : Payload}
    (hcount : ∀ m, (H.children p').count m ≤ (H.children p).count m) : Left H p' p p' :=
  ⟨hcount, fun _ => le_rfl, fun _ => id⟩

theorem put_left (H : Hashing) {p p' : Payload} {id hndl : ℕ} (value : Value)
    (h : p.put id key v = some p') : Left H (Call.leaves (.setObject hndl key value) p) p p' := by
  cases p with
  | object es =>
    cases hrep : replaceValue key v es with
    | some r =>
      obtain ⟨old, es'⟩ := r
      simp only [Payload.put, hrep] at h
      cases h
      obtain ⟨fs, hfs⟩ := replaceValue_old hrep .null
      simp only [Call.leaves, hfs, Option.map_some, Option.getD_some]
      have hnull : Pointer.nodes (some Ref.null) = [] := rfl
      refine ⟨fun m => ?_, fun m => ?_, fun id hid => ?_⟩
      · have := replaceValue_count hfs m
        rw [count_children_object, count_children_object]
        simp only [hnull, List.count_nil] at this
        omega
      · have := replaceValue_count hfs m
        have := replaceValue_count hrep m
        rw [count_children_object, count_children_object]
        simp only [hnull, List.count_nil] at *
        omega
      · simp only [Payload.ids, replaceValue_ids hfs, replaceValue_ids hrep] at hid ⊢
        exact hid
    | none =>
      simp only [Payload.put, hrep] at h
      cases h
      have hnone : replaceValue key .null es = none :=
        replaceValue_eq_none_iff.mpr (replaceValue_eq_none_iff.mp hrep)
      simp only [Call.leaves, hnone, Option.map_none, Option.getD_none]
      refine ⟨fun m => le_rfl, fun m => ?_, fun id hid => ?_⟩
      · rw [count_children_object, count_children_object, slotsOf_append, List.count_append]
        omega
      · simp only [Payload.ids, List.map_append, List.mem_append] at hid ⊢
        exact .inl hid
  | _ => cases h

theorem putAt_left (H : Hashing) {p p' : Payload} {hndl : ℕ} {index : Int32} (value : Value)
    (h : p.putAt (toSize index) v = some p') :
    Left H (Call.leaves (.setArray hndl index value) p) p p' := by
  cases p with
  | array t =>
    simp only [Payload.putAt] at h
    split_ifs at h with hlt
    cases h
    have hleaves : Call.leaves (.setArray hndl index value) (.array t) =
        .array (t.set (toSize index) .null) := by simp [Call.leaves, Payload.putAt, hlt]
    have hold := List.getElem?_eq_getElem hlt
    have hnull : Pointer.nodes (some Ref.null) = [] := rfl
    rw [hleaves]
    refine ⟨fun m => ?_, fun m => ?_, fun id hid => by cases hid⟩
    · have := set_count hold .null m
      simp only [hnull, List.count_nil] at this
      simp only [Hashing.children]
      omega
    · have := set_count hold .null m
      have := set_count hold v m
      simp only [hnull, List.count_nil] at *
      simp only [Hashing.children]
      omega
  | _ => cases h

theorem push_left (H : Hashing) {p p' : Payload} (h : p.push v = some p') : Left H p p p' := by
  cases p with
  | array t =>
    cases h
    refine ⟨fun _ => le_rfl, fun m => ?_, fun id hid => by cases hid⟩
    simp only [Hashing.children, List.filterMap_append, List.count_append]
    omega
  | _ => cases h

theorem del_left (H : Hashing) {p p' : Payload} (h : p.del key = some p') : Left H p' p p' := by
  cases p with
  | object es =>
    obtain ⟨⟨old, es'⟩, hr, heq⟩ := Option.map_eq_some_iff.mp h
    obtain rfl : Payload.object es' = p' := heq
    refine .self fun m => ?_
    have := unlink_count hr m
    rw [count_children_object, count_children_object]
    omega
  | _ => cases h

theorem removeAt_left (H : Hashing) {p p' : Payload} {index : ℕ} (h : p.removeAt index = some p') :
    Left H p' p p' := by
  cases p with
  | array t =>
    simp only [Payload.removeAt] at h
    split_ifs at h with hlt
    cases h
    refine .self fun m => ?_
    have := eraseIdx_count (List.getElem?_eq_getElem hlt) m
    simp only [Hashing.children]
    omega
  | _ => cases h

theorem clearObject_left (H : Hashing) {p p' : Payload} (h : p.clearObject = some p') :
    Left H p' p p' := by
  cases p with
  | object es =>
    cases h
    refine .self fun m => ?_
    rw [count_children_object]
    exact Nat.zero_le _
  | _ => cases h

theorem clearArray_left (H : Hashing) {p p' : Payload} (h : p.clearArray = some p') :
    Left H p' p p' := by
  cases p with
  | array t =>
    cases h
    exact .self fun m => Nat.zero_le _
  | _ => cases h

theorem rewrites_left (H : Hashing) {s : State} {json : Ref} {c : Call} {p p' : Payload}
    (h : c.Rewrites s json p p') : c.Accepted s json ∧ Left H (c.leaves p) p p' := by
  cases c with
  | setObject hndl key value =>
    obtain ⟨hkey, id, v, hv, hne, hput⟩ := h
    exact ⟨⟨hkey, v, hv, hne⟩, put_left H value hput⟩
  | setArray hndl index value =>
    obtain ⟨v, hv, hne, hput⟩ := h
    exact ⟨⟨v, hv, hne⟩, putAt_left H value hput⟩
  | pushArray hndl value =>
    obtain ⟨v, hv, hne, hpush⟩ := h
    exact ⟨⟨v, hv, hne⟩, push_left H hpush⟩
  | removeFromObject hndl key =>
    have hdel : p.del key = some p' := h
    simp only [Call.leaves, hdel, Option.getD_some]
    exact ⟨trivial, del_left H hdel⟩
  | clearObject hndl =>
    have hclear : p.clearObject = some p' := h
    simp only [Call.leaves, hclear, Option.getD_some]
    exact ⟨trivial, clearObject_left H hclear⟩
  | removeFromArray hndl index =>
    have hremove : p.removeAt (toSize index) = some p' := h
    simp only [Call.leaves, hremove, Option.getD_some]
    exact ⟨trivial, removeAt_left H hremove⟩
  | clearArray hndl =>
    have hclear : p.clearArray = some p' := h
    simp only [Call.leaves, hclear, Option.getD_some]
    exact ⟨trivial, clearArray_left H hclear⟩
  | _ => cases h

end Leaves

section Steps
variable {E : Host} {s s' : State} {c : Call} {o : Outcome}

theorem JSONObjectKeys.Valid.of_samePayload {heap heap' : Store} {k : JSONObjectKeys} (hk : k.Valid heap)
    (h : ∀ m, k.object = .node m → SamePayload heap heap' m) : k.Valid heap' := by
  have hread : Store.read heap' k.object = Store.read heap k.object := by
    cases hobj : k.object with
    | node m => exact read_of_samePayload (h m hobj)
    | _ => rfl
  obtain ⟨p, hp⟩ := hk.1.read
  refine ⟨live_of_read (hread.trans hp), fun id hid => ?_⟩
  rw [hread]
  exact hk.2 id hid

theorem State.KeysValid.of_samePayload (hk : s.KeysValid) (hkeys : s'.keys = s.keys)
    (h : ∀ m, s.Iterated m → SamePayload s.heap s'.heap m) : s'.KeysValid := by
  intro k hks
  rw [hkeys] at hks
  exact (hk k hks).of_samePayload fun m hm => h m ⟨k, hks, hm⟩

theorem iterated_live (hk : s.KeysValid) {m : ℕ} (hm : s.Iterated m) : s.heap.cells m ≠ none := by
  obtain ⟨k, hks, hobj⟩ := hm
  exact (hk k hks).1 m hobj

theorem closes_keysValid {hndl : ℕ} {json : Ref} (hs : s.Counted E) (hk : s.KeysValid)
    (hP : c.SparesObjects E s) (hc : c.closes s = some hndl)
    (hj : takeHandle hndl s.handles = some (json, s'.handles))
    (hd : jsonDecref E.toHashing s.heap (some json) = some s'.heap) (hkeys : s'.keys = s.keys) :
    s'.KeysValid := by
  unfold State.Counted at hs
  rw [takeHandle_roots hj] at hs
  obtain ⟨-, hp, hheld⟩ := jsonDecref_held hs hd
  exact hk.of_samePayload hkeys fun m hm =>
    hp.samePayload ((hheld m).mpr (hP hndl json s'.handles hc hj m hm))

/-- What is held without the references that the call gives up survives the rewriting of its
container, and every node but the container keeps its contents. -/
theorem edit_keeps {s₁ heap' : Store} {V : List ℕ} {n : ℕ} {cell c₁ : Cell Payload}
    {q p' : Payload} (hs : s.Counted E)
    (hm : Moves E.children s.roots NoEdit (s.heap, s.roots) (s₁, ↑V + s.roots))
    (hcell : s.heap.cells n = some cell) (hc₁ : s₁.cells n = some c₁)
    (hleft : Left E.toHashing q cell.payload p')
    (he : Edit E.children s₁ (↑V + s.roots) n p' heap' s.roots) {m : ℕ}
    (hheld : Ownership.Held {n | n ∈ s.roots} (Owns E.children (s.heap.setPayload n q)) m) :
    heap'.cells m ≠ none ∧ (m ≠ n → SamePayload s.heap heap' m) ∧
      (m = n → Store.read heap' (.node n) = some (some p')) := by
  obtain ⟨S, hS, hmS⟩ := hheld
  have hb₁ := hm.balanced hs
  have hsub : Ownership.Anchored {n | n ∈ s.roots} (Owns E.children s.heap) S := by
    refine hS.mono (fun _ _ => id) fun y _ x _ hyx => ?_
    unfold Owns at hyx ⊢
    by_cases hy : y = n
    · subst hy
      rw [Heap.edges_setPayload_self hcell (hs.alive hcell) q] at hyx
      rw [Heap.edges_of_alive hcell (hs.alive hcell)]
      exact mem_of_count_le hleft.before hyx
    · rw [Heap.edges_setPayload_of_ne hy q] at hyx
      exact hyx
  obtain ⟨-, hkept⟩ := hm.kept hs le_rfl hsub fun _ _ _ h => h.elim
  have hS' : Ownership.Anchored {n | n ∈ s.roots} (Owns E.children (s₁.setPayload n p')) S := by
    refine hS.mono (fun _ _ => id) fun y hy x _ hyx => ?_
    unfold Owns at hyx ⊢
    by_cases hyn : y = n
    · subst hyn
      rw [Heap.edges_setPayload_self hcell (hs.alive hcell) q] at hyx
      rw [Heap.edges_setPayload_self hc₁ (hb₁.alive hc₁) p']
      exact mem_of_count_le hleft.after hyx
    · rw [Heap.edges_setPayload_of_ne hyn q] at hyx
      rw [Heap.edges_setPayload_of_ne hyn p', (hkept.payload y hy).edges hs hb₁]
      exact hyx
  obtain ⟨-, hp, hlive⟩ := he.held hb₁
  have hmlive : heap'.cells m ≠ none := (hlive m).mpr ⟨S, hS', hmS⟩
  have hsame := hp.samePayload hmlive
  refine ⟨hmlive, fun hmn => ?_, fun hmn => ?_⟩
  · refine (hkept.payload m hmS).trans (Eq.trans ?_ hsame)
    rw [Heap.setPayload_cells_of_ne hmn]
  · subst hmn
    rw [read_of_samePayload hsame, Heap.setPayload_of_some hc₁]
    simp [Store.read]

theorem rewrites_keysValid {hndl : ℕ} {json : Ref} {r : Bool × Store} (hs : s.Counted E)
    (hk : s.KeysValid) (hP : c.SparesPairs E s) (hc : c.container = some hndl)
    (hj : readHandle hndl s.handles = some json)
    (h : Changed E.toHashing s.heap s.roots (c.inserted s).nodes s.roots json (c.Rewrites s json)
      r) : State.KeysValid { s with heap := r.2 } := by
  rcases h with ⟨-, hm⟩ | ⟨-, s₁, n, c₁, p', hm, rfl, hc₁, hT, he⟩
  · refine State.KeysValid.of_samePayload hk rfl fun m hm' => ?_
    exact hm.live_kept hs rfl (fun _ _ _ h => h.elim) (iterated_live hk hm')
  · obtain ⟨cell, hcell⟩ := live_of_mem hs (readHandle_root hj n rfl)
    have hpay : cell.payload = c₁.payload := by
      have hn : s.heap.cells n ≠ none := by simp [hcell]
      simpa [SamePayload, hcell, hc₁] using hm.kept hs le_rfl hs.anchored_live
        (fun _ _ _ h => h.elim) |>.2.payload n hn
    rw [← hpay] at hT
    obtain ⟨hacc, hleft⟩ := rewrites_left E.toHashing hT
    obtain ⟨hheld, hids⟩ := hP hndl n cell hc hj hacc hcell
    intro k hks
    by_cases hobj : k.2.object = .node n
    · have hkeeps := edit_keeps hs hm hcell hc₁ hleft he (hheld n ⟨k, hks, hobj⟩)
      have hread : Store.read r.2 k.2.object = some (some p') := by
        rw [hobj]
        exact hkeeps.2.2 rfl
      refine ⟨live_of_read hread, fun id hid => ?_⟩
      have hmem := hleft.ids id (hids k hks hobj id hid)
      cases p' with
      | object es => exact ⟨es, hread, hmem⟩
      | _ => cases hmem
    · refine (hk k hks).of_samePayload fun m hm' => ?_
      refine (edit_keeps hs hm hcell hc₁ hleft he (hheld m ⟨k, hks, hm'⟩)).2.1 ?_
      rintro rfl
      exact hobj hm'

theorem call_keysValid (hs : s.Counted E) (hk : s.KeysValid) (hP : c.KeepsKeys E s)
    (h : call E s c = some (s', o)) : s'.KeysValid := by
  cases call_effect hs h with
  | builds hx =>
    refine hk.of_samePayload hx.keys fun m hm => ?_
    exact hx.moves.live_kept hs rfl (fun _ _ _ hb => hb.1) (iterated_live hk hm)
  | rewrites hc hj hs' ho hch =>
    subst hs'
    exact rewrites_keysValid hs hk hP.2 hc hj hch
  | closes hc hj hd hkeys => exact closes_keysValid hs hk hP.1 hc hj hd hkeys
  | iterates hheap hhandles hkeys =>
    intro k hks
    rw [hheap]
    exact (hkeys k hks).elim (hk k) id

theorem entriesFrom_isSome {heap : Store} {json : Ref} {id : ℕ} {es : List Entry}
    (hread : Store.read heap json = some (some (.object es))) (hid : id ∈ es.map (·.id)) :
    (entriesFrom heap json id).isSome := by
  obtain ⟨e, he, rfl⟩ := List.mem_map.mp hid
  have hne : es.dropWhile (·.id ≠ e.id) ≠ [] := by
    intro hnil
    simpa using List.dropWhile_eq_nil_iff.mp hnil e he
  obtain ⟨e', rest, hrest⟩ := List.exists_cons_of_ne_nil hne
  simp only [entriesFrom, hread, Option.bind_eq_bind, Option.bind_some, hrest]
  rfl

/-- An iterator that does not dangle can be read. -/
theorem State.KeysValid.readObjectKey_isSome (hk : s.KeysValid) (hndl maxlength : ℕ) :
    (readObjectKey E s hndl maxlength).isSome := by
  unfold readObjectKey
  cases hread : readHandle hndl s.keys with
  | none => rfl
  | some k =>
    obtain ⟨hlive, hpair⟩ := hk (hndl, k) (mem_of_readHandle hread)
    cases hiter : k.iter with
    | none => simp [jsonObjectIterKey, hiter]
    | some id =>
      obtain ⟨es, hes, hid⟩ := hpair id hiter
      obtain ⟨r, hr⟩ := Option.isSome_iff_exists.mp (entriesFrom_isSome hes hid)
      simp [jsonObjectIterKey, jsonObjectIterNext, hiter, hes, hr]

end Steps

/-- The nodes that handles still name after a call has closed its own. -/
def State.rootsAfter (s : State) (c : Call) : List ℕ :=
  match (c.closes s).bind (takeHandle · s.handles) with
  | some r => r.2.filterMap (·.2.node?)
  | none => s.handles.filterMap (·.2.node?)

/-- What a careful plugin does: it keeps a handle open for every object it iterates over, and
removes no pair that an iterator stands on. -/
def Call.Careful (s : State) (c : Call) : Prop :=
  ∀ k ∈ s.keys, ∀ n ∈ Pointer.nodes (some k.2.object), n ∈ s.rootsAfter c ∧
    ∀ cell ∈ s.heap.cells n, ∀ id ∈ k.2.iter, id ∈ (c.leaves cell.payload).ids

instance (s : State) (c : Call) : Decidable (c.Careful s) :=
  inferInstanceAs (Decidable (∀ k ∈ s.keys, ∀ n ∈ Pointer.nodes (some k.2.object),
    n ∈ s.rootsAfter c ∧
      ∀ cell ∈ s.heap.cells n, ∀ id ∈ k.2.iter, id ∈ (c.leaves cell.payload).ids))

theorem keepsKeys_of_careful (E : Host) {s : State} {c : Call} (h : c.Careful s) :
    c.KeepsKeys E s := by
  have hnode {k : ℕ × JSONObjectKeys} {n : ℕ} (hobj : k.2.object = .node n) :
      n ∈ Pointer.nodes (some k.2.object) := by simp [hobj]
  constructor
  · rintro hndl json handles hc ht m ⟨k, hks, hobj⟩
    have hroot := (h k hks m (hnode hobj)).1
    simp only [State.rootsAfter, hc, Option.bind_some, ht] at hroot
    exact Ownership.held_of_root hroot
  · intro hndl n cell hc hj _ hcell
    have hnone : c.closes s = none := by
      cases c <;> first | rfl | cases hc
    refine ⟨fun m hm => ?_, fun k hks hobj id hid => ?_⟩
    · obtain ⟨k, hks, hobj⟩ := hm
      have hroot := (h k hks m (hnode hobj)).1
      simp only [State.rootsAfter, hnone, Option.bind_none] at hroot
      exact Ownership.held_of_root hroot
    · exact (h k hks n (hnode hobj)).2 cell hcell id hid

/-- A run that never gives up the last reference to an iterated object, nor the pair that an
iterator stands on, keeps every iterator valid, and `ReadKey` never reads freed memory. -/
theorem run_keysValid (E : Host) {calls : List Call}
    (hP : (system E).Along (fun s c => c.KeepsKeys E s) .empty calls) :
    ∀ t, (system E).Visits .empty calls t → t.KeysValid ∧
      ∀ hndl maxlength, (readObjectKey E t hndl maxlength).isSome := by
  intro t ht
  have hboth : t.Counted E ∧ t.KeysValid := by
    refine Transition.System.visits_invariant (I := fun s => s.Counted E ∧ s.KeysValid) ?_
      ⟨counted_empty E, by rintro k ⟨⟩⟩ hP ht
    rintro s c t ⟨hs, hk⟩ hPc hstep
    obtain ⟨⟨t, o⟩, hcall, rfl⟩ := Option.map_eq_some_iff.mp hstep
    exact ⟨(call_effect hs hcall).counted hs, call_keysValid hs hk hPc hcall⟩
  exact ⟨hboth.2, hboth.2.readObjectKey_isSome⟩

/-- Two keys are read while a value is replaced and a key is added. -/
def iterateRun : List Call :=
  [.createObject none, .setObject 1 [97] (.int 1), .setObject 1 [98] (.int 2),
    .createObjectKeys 1 none, .readObjectKey 2 64, .setObject 1 [97] .null,
    .setObject 1 [99] (.int 3), .readObjectKey 2 64, .closeKeys 2, .closeHandle 1]

theorem iterateRun_keysValid :
    (system plainHost).Along (fun s c => c.KeepsKeys plainHost s) .empty iterateRun ∧
      ∀ t, (system plainHost).Visits .empty iterateRun t → t.KeysValid ∧
        ∀ hndl maxlength, (readObjectKey plainHost t hndl maxlength).isSome := by
  have hcareful : (system plainHost).Along (fun s c => c.Careful s) .empty iterateRun := by decide
  have hkeeps : (system plainHost).Along (fun s c => c.KeepsKeys plainHost s) .empty iterateRun :=
    Transition.System.Along.mono (fun s c => keepsKeys_of_careful plainHost) hcareful
  exact ⟨hkeeps, run_keysValid plainHost hkeeps⟩

/-- The object is closed while an iterator stands on its first pair. -/
def closedObjectRun : List Call :=
  [.createObject none, .setObject 1 [97] (.int 1), .createObjectKeys 1 none, .closeHandle 1]

/-- The pair under the iterator is removed from an object that stays alive. -/
def removedPairRun : List Call :=
  [.createObject none, .setObject 1 [97] (.int 1), .createObjectKeys 1 none,
    .removeFromObject 1 [97]]

theorem State.not_keysValid_of_readObjectKey {E : Host} {s : State} {hndl maxlength : ℕ}
    (h : readObjectKey E s hndl maxlength = none) : ¬s.KeysValid := by
  intro hk
  have hsome := hk.readObjectKey_isSome (E := E) hndl maxlength
  rw [h] at hsome
  cases hsome

/-- In both runs the iterator dangles, and `ReadKey` would read freed memory. -/
theorem staleRuns_not_keysValid :
    (∃ s, (system plainHost).run .empty closedObjectRun = some s ∧ ¬s.KeysValid ∧
      readObjectKey plainHost s 2 64 = none) ∧
    ∃ s, (system plainHost).run .empty removedPairRun = some s ∧ ¬s.KeysValid ∧
      readObjectKey plainHost s 2 64 = none := by
  have hrun (calls : List Call) (h : ((system plainHost).run .empty calls).map
      (fun s => (readObjectKey plainHost s 2 64).isNone) = some true) :
      ∃ s, (system plainHost).run .empty calls = some s ∧ ¬s.KeysValid ∧
        readObjectKey plainHost s 2 64 = none := by
    obtain ⟨s, hs, hnone⟩ := Option.map_eq_some_iff.mp h
    have hread := Option.isNone_iff_eq_none.mp hnone
    exact ⟨s, hs, State.not_keysValid_of_readObjectKey hread, hread⟩
  exact ⟨hrun closedObjectRun (by decide), hrun removedPairRun (by decide)⟩

end RipExt.Json
