import RipExt.Json.Handles

/-! What is left when every handle is closed. Counting references frees everything but the
documents that contain themselves; the natives refuse to put a container into itself, but not
into something that it contains. -/
namespace RipExt.Json
open RefCount Relation

/-- A container holds a node in one of its slots. -/
def State.Holds (s : State) (p m : ℕ) : Prop :=
  ∃ c, s.heap.cells p = some c ∧ Ref.node m ∈ c.payload.slots

/-- Closing every open handle, in the order of the table. -/
def State.closeAll (s : State) : List Call := s.handles.map fun x => .closeHandle x.1

/-- A Set or Push that succeeds and puts a value into a container that the value leads to. -/
def Call.LinksBack (E : Host) (s : State) (c : Call) : Prop :=
  ∃ hndl n v s', c.container = some hndl ∧ readHandle hndl s.handles = some (.node n) ∧
    c.inserted s = some (.node v) ∧ call E s c = some (s', .bool true) ∧
      ReflTransGen s.Holds v n

section Graph
variable {E : Host} {s s' : State} {c : Call} {o : Outcome}

theorem holds_eq_owns (hs : s.Counted E) : s.Holds = Owns E.children s.heap := by
  funext p m
  refine propext ⟨?_, fun h => ?_⟩
  · rintro ⟨c, hc, hm⟩
    rw [Owns, Heap.edges_of_alive hc (hs.alive hc), (children_perm E.toHashing c.payload).mem_iff]
    exact mem_slots_of_mem hm rfl
  · obtain ⟨c, hc, -, hm⟩ := Heap.mem_edges_exists h
    refine ⟨c, hc, ?_⟩
    rw [(children_perm E.toHashing c.payload).mem_iff] at hm
    obtain ⟨r, hr, hn⟩ := List.mem_filterMap.mp hm
    cases r with
    | node k =>
      obtain rfl : k = m := Option.some.inj hn
      exact hr
    | _ => cases hn

theorem finite_owners (hs : s.Counted E) : {p | ∃ n, Owns E.children s.heap p n}.Finite := by
  refine (Set.finite_lt_nat s.heap.next).subset ?_
  rintro p ⟨n, hn⟩
  obtain ⟨c, hc, -⟩ := Heap.mem_edges_exists hn
  exact hs.lt_next hc

/-- Only a call that links back closes a cycle. -/
theorem call_acyclic (hs : s.Counted E) (ha : Acyclic E.children s.heap)
    (hP : ¬c.LinksBack E s) (h : call E s c = some (s', o)) : Acyclic E.children s'.heap := by
  have hnone : ∀ (heap : Store) a p, NoEdit heap a p → Builds E.children s.heap.next heap a p :=
    fun _ _ _ => False.elim
  cases call_effect hs h with
  | builds hx => exact hx.moves.acyclic_of_builds hs ha hs.ascending_next
  | rewrites hc hj hs' ho hch =>
    subst hs' ho
    rcases hch with ⟨-, hm⟩ | ⟨hr, s₁, n, c₁, p', hm, rfl, hc₁, hT, he⟩
    · exact (hm.mono le_rfl hnone).acyclic_of_builds hs ha hs.ascending_next
    · have hb₁ := hm.balanced hs
      have ha₁ := (hm.mono le_rfl hnone).acyclic_of_builds hs ha hs.ascending_next
      have hmove : Move E.children s.roots (fun heap a p => heap = s₁ ∧ a = n ∧ p = p')
          (s₁, ↑(c.inserted s).nodes + s.roots) (_, s.roots) := .edit le_rfl he ⟨rfl, rfl, rfl⟩
      refine hmove.acyclic hb₁ ha₁ ?_
      rintro a p ⟨-, rfl, rfl⟩ v hv
      rw [Heap.edges_of_alive hc₁ (hb₁.alive hc₁)]
      refine (he.mem_or hc₁ hv).imp_right fun hmem hreach => hP ?_
      rw [hr] at h
      refine ⟨_, _, v, _, hc, hj, mem_nodes hmem, h, ?_⟩
      rw [holds_eq_owns hs]
      exact ReflTransGen.mono (fun _ _ => hm.owns_of_not_edit hs fun _ _ _ => id) _ _ hreach
  | closes hc hj hd hkeys =>
    unfold State.Counted at hs
    rw [takeHandle_roots hj] at hs
    obtain ⟨-, hp, -⟩ := jsonDecref_held hs hd
    exact ha.mono fun q m => hp.owns
  | iterates hheap hhandles hkeys =>
    rw [hheap]
    exact ha

end Graph

section Closing
variable {E : Host} {s t : State} {closings : List Call}

/-- The nodes that are left in `t` are those that its handles held in `s` already. -/
structure Closed (E : Host) (s t : State) : Prop where
  counted : t.Counted E
  roots : {n | n ∈ t.roots} ⊆ {n | n ∈ s.roots}
  pruned : Pruned s.heap t.heap
  live : ∀ n, t.heap.cells n ≠ none ↔
    Ownership.Held {n | n ∈ t.roots} (Owns E.children s.heap) n

theorem Closed.refl (hs : s.Counted E) : Closed E s s :=
  ⟨hs, subset_rfl, .refl _, hs.live_iff_held⟩

theorem Closed.trans {u : State} (hst : Closed E s t) (htu : Closed E t u) : Closed E s u := by
  refine ⟨htu.counted, htu.roots.trans hst.roots, hst.pruned.trans htu.pruned, fun n => ?_⟩
  rw [htu.live n]
  exact hst.pruned.held_iff hst.counted hst.live htu.roots

theorem closeHandle_closed (hs : s.Counted E) (hndl : ℕ) :
    ∃ t o, closeHandle E s hndl = some (t, o) ∧ Closed E s t ∧
      t.handles = ((takeHandle hndl s.handles).map (·.2)).getD s.handles := by
  cases ht : takeHandle hndl s.handles with
  | none => exact ⟨s, .bool false, by simp [closeHandle, ht], .refl hs, rfl⟩
  | some r =>
    obtain ⟨json, handles⟩ := r
    have hroots := takeHandle_roots ht
    have hb := hs
    unfold State.Counted at hb
    rw [hroots] at hb
    obtain ⟨heap, hd, -⟩ := jsonDecref_moves (L := NoEdit) hb (le_refl _)
    obtain ⟨hb', hp, hlive⟩ := jsonDecref_held hb hd
    refine ⟨{ s with heap, handles }, .bool true, by simp [closeHandle, ht, hd],
      ⟨hb', fun n hn => ?_, hp, hlive⟩, rfl⟩
    change n ∈ s.roots
    rw [hroots]
    exact Multiset.mem_add.mpr (.inr hn)

theorem closings_closed (hc : ∀ c ∈ closings, ∃ hndl, c = .closeHandle hndl)
    (hr : (system E).run s closings = some t) (hs : s.Counted E) : Closed E s t := by
  induction closings generalizing s with
  | nil =>
    cases hr
    exact .refl hs
  | cons c cs ih =>
    obtain ⟨hndl, rfl⟩ := hc c (List.mem_cons_self ..)
    obtain ⟨u, hu, hr⟩ := (system E).run_cons.mp hr
    obtain ⟨v, o, hv, hclosed, -⟩ := closeHandle_closed hs hndl
    have hstep : (system E).step s (.closeHandle hndl) = some v := by simp [system, call, hv]
    obtain rfl := Option.some.inj (hstep.symm.trans hu)
    exact hclosed.trans (ih (fun c hcs => hc c (List.mem_cons_of_mem _ hcs)) hr hclosed.counted)

/-- Every handle can be closed. -/
theorem closeAll_run {handles : List (ℕ × Ref)} (hhandles : s.handles = handles)
    (hs : s.Counted E) : ∃ t, (system E).run s s.closeAll = some t ∧ t.handles = [] := by
  induction handles generalizing s with
  | nil => exact ⟨s, by simp [State.closeAll, hhandles], hhandles⟩
  | cons x xs ih =>
    obtain ⟨u, o, hu, hclosed, hrest⟩ := closeHandle_closed hs x.1
    have hxs : u.handles = xs := by simpa [hhandles, takeHandle] using hrest
    obtain ⟨t, hr, hnil⟩ := ih hxs hclosed.counted
    refine ⟨t, ?_, hnil⟩
    rw [State.closeAll, hhandles, List.map_cons, Transition.System.run_cons]
    refine ⟨u, by simp [system, call, hu], ?_⟩
    rw [State.closeAll, hxs] at hr
    exact hr

end Closing

/-- The nodes that some document which contains itself leads to. -/
def State.OnCycle (s : State) (n : ℕ) : Prop :=
  ∃ m, TransGen s.Holds m m ∧ ReflTransGen s.Holds m n

theorem onCycle_iff_held {E : Host} {s : State} (hs : s.Counted E) (n : ℕ) :
    s.OnCycle n ↔ Ownership.Held ∅ (Owns E.children s.heap) n := by
  rw [Ownership.held_iff_reachable (finite_owners hs), State.OnCycle, holds_eq_owns hs]
  simp

/-- A run without a Set or Push that links back builds no document that contains itself. -/
theorem run_acyclic {E : Host} {calls : List Call} {s : State}
    (hP : (system E).Along (fun s c => ¬c.LinksBack E s) .empty calls)
    (hr : (system E).run .empty calls = some s) (n : ℕ) : ¬TransGen s.Holds n n := by
  have hboth : s.Counted E ∧ Acyclic E.children s.heap := by
    refine Transition.System.run_invariant
      (I := fun s => s.Counted E ∧ Acyclic E.children s.heap) ?_ ?_ hP hr
    · rintro s c t ⟨hs, ha⟩ hPc hstep
      obtain ⟨⟨t, o⟩, hcall, rfl⟩ := Option.map_eq_some_iff.mp hstep
      exact ⟨(call_effect hs hcall).counted hs, call_acyclic hs ha hPc hcall⟩
    · refine ⟨counted_empty E, fun n hn => ?_⟩
      obtain ⟨m, hm, -⟩ := TransGen.head'_iff.mp hn
      cases hm
  rw [holds_eq_owns hboth.1]
  exact hboth.2 n

/-- After any run every handle can be closed, and in whatever order that is done, exactly the
nodes are left that some document which contains itself leads to. So nothing is left if and
only if no document contains itself, and in particular if no Set or Push linked back. -/
theorem closings_leave_cycles (E : Host) {calls : List Call} {s : State}
    (hr : (system E).run .empty calls = some s) :
    (∃ t, (system E).run s s.closeAll = some t ∧ t.handles = []) ∧
    ∀ closings t, (∀ c ∈ closings, ∃ hndl, c = Call.closeHandle hndl) →
      (system E).run s closings = some t → t.handles = [] →
        (∀ n, t.heap.cells n ≠ none ↔ s.OnCycle n) ∧
        ((∀ n, t.heap.cells n = none) ↔ ∀ n, ¬TransGen s.Holds n n) ∧
        ((system E).Along (fun s c => ¬c.LinksBack E s) .empty calls →
          ∀ n, t.heap.cells n = none) := by
  have hs := reachable_balanced ⟨calls, hr⟩
  refine ⟨closeAll_run rfl hs, fun closings t hc ht hnil => ?_⟩
  have hleft (n : ℕ) : t.heap.cells n ≠ none ↔ s.OnCycle n := by
    have hroots : {n | n ∈ t.roots} = (∅ : Set ℕ) := by simp [State.roots, hnil]
    rw [(closings_closed hc ht hs).live n, hroots, onCycle_iff_held hs]
  have hfree : (∀ n, t.heap.cells n = none) ↔ ∀ n, ¬TransGen s.Holds n n := by
    constructor
    · exact fun hnone n hn => (hleft n).mpr ⟨n, hn, .refl⟩ (hnone n)
    · intro hno n
      by_contra hn
      obtain ⟨m, hm, -⟩ := (hleft n).mp hn
      exact hno m hm
  exact ⟨hleft, hfree, fun hP => hfree.mpr (run_acyclic hP hr)⟩

/-- The value put into a container is a scalar or an empty container other than itself. -/
def Call.InsertsLeaf (s : State) (c : Call) : Prop :=
  ∀ v ∈ (c.inserted s).nodes, (∀ cell ∈ s.heap.cells v, cell.payload.slots = []) ∧
    ∀ hndl ∈ c.container, readHandle hndl s.handles ≠ c.inserted s

instance (s : State) (c : Call) : Decidable (c.InsertsLeaf s) :=
  inferInstanceAs (Decidable (∀ v ∈ (c.inserted s).nodes,
    (∀ cell ∈ s.heap.cells v, cell.payload.slots = []) ∧
      ∀ hndl ∈ c.container, readHandle hndl s.handles ≠ c.inserted s))

theorem not_linksBack_of_leaf (E : Host) {s : State} {c : Call} (h : c.InsertsLeaf s) :
    ¬c.LinksBack E s := by
  rintro ⟨hndl, n, v, s', hc, hj, hi, -, hreach⟩
  obtain ⟨hslots, hother⟩ := h v (by simp [hi])
  rcases ReflTransGen.cases_head hreach with rfl | ⟨m, ⟨cell, hcell, hm⟩, -⟩
  · exact hother hndl hc (hj.trans hi.symm)
  · rw [hslots cell hcell] at hm
    cases hm

/-- An array is put into an object and filled afterwards. -/
def nestedRun : List Call :=
  [.createObject none, .createArray none, .setObject 1 [97] (.handle 2), .pushArray 2 (.int 5)]

theorem nestedRun_freed : ∃ s t, (system plainHost).run .empty nestedRun = some s ∧
    (system plainHost).run s [.closeHandle 1, .closeHandle 2] = some t ∧ t.handles = [] ∧
      (∀ n, t.heap.cells n ≠ none ↔ s.OnCycle n) ∧ ∀ n, t.heap.cells n = none := by
  have hrun : ((system plainHost).run .empty nestedRun).bind (fun s =>
      ((system plainHost).run s [.closeHandle 1, .closeHandle 2]).map (·.handles)) = some [] := by
    decide
  obtain ⟨s, hs, hrest⟩ := Option.bind_eq_some_iff.mp hrun
  obtain ⟨t, ht, hnil⟩ := Option.map_eq_some_iff.mp hrest
  have hleaf : (system plainHost).Along (fun s c => c.InsertsLeaf s) .empty nestedRun := by decide
  obtain ⟨hleft, -, hfree⟩ :=
    (closings_leave_cycles plainHost hs).2 [.closeHandle 1, .closeHandle 2] t (by simp) ht hnil
  exact ⟨s, t, hs, ht, hnil, hleft,
    hfree (hleaf.mono fun s c => not_linksBack_of_leaf plainHost)⟩

/-- Two objects are put into each other, and both handles are closed. -/
def mutualRun : List Call :=
  [.createObject none, .createObject none, .setObject 1 [97] (.handle 2),
    .setObject 2 [97] (.handle 1), .closeHandle 1, .closeHandle 2]

/-- Both calls succeed, no handle is left, and both objects stay. -/
theorem mutualRun_leaks : ∃ s, (system plainHost).run .empty mutualRun = some s ∧
    s.handles = [] ∧ s.heap.cells 0 ≠ none ∧ s.heap.cells 1 ≠ none := by
  have hrun : ((system plainHost).run .empty mutualRun).map (fun s =>
      (s.handles, (s.heap.cells 0).isSome, (s.heap.cells 1).isSome)) =
        some ([], true, true) := by decide
  obtain ⟨s, hs, hleft⟩ := Option.map_eq_some_iff.mp hrun
  simp only [Prod.mk.injEq] at hleft
  exact ⟨s, hs, hleft.1, Option.isSome_iff_ne_none.mp hleft.2.1,
    Option.isSome_iff_ne_none.mp hleft.2.2⟩

end RipExt.Json
