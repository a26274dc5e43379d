import RipExt.Json.Effects

/-! Between calls, the count of every node is the number of open handles and of container
slots that refer to it; no call touches freed memory, the reading of keys apart. -/
namespace RipExt.Json
open RefCount

section Steps
variable {E : Host} {s s' : State} {c : Call} {o : Outcome}

theorem Effect.counted (h : Effect E s c s' o) (hs : s.Counted E) : s'.Counted E := by
  cases h with
  | builds h => exact h.moves.balanced hs
  | rewrites hc hj hs' ho h =>
    subst hs'
    exact (h.moves (L := fun _ _ _ => True) hs fun _ _ _ _ _ => trivial).balanced hs
  | closes hc hj hd hkeys =>
    unfold State.Counted at hs
    rw [takeHandle_roots hj] at hs
    exact (jsonDecref_held hs hd).1
  | iterates hheap hhandles hkeys =>
    unfold State.Counted State.roots
    rw [hheap, hhandles]
    exact hs

theorem counted_empty (E : Host) : State.empty.Counted E := by
  have hnone (n : ℕ) (c : Cell Payload) (h : State.empty.heap.cells n = some c) : False := by
    cases h
  refine ⟨fun _ _ => rfl, fun n c h => (hnone n c h).elim, fun n _ => ?_,
    fun n c h => (hnone n c h).elim, by simp, List.nodup_nil⟩
  simp [State.roots, State.empty, Heap.slots]

theorem reachable_balanced (h : (system E).Reachable s) : s.Counted E := by
  refine Transition.System.reachable_invariant (counted_empty E) ?_ h
  intro s c t hs ht
  obtain ⟨⟨t, o⟩, hcall, rfl⟩ := Option.map_eq_some_iff.mp ht
  exact (call_effect hs hcall).counted hs

end Steps

/-- The slots of a container, as the document has them. -/
def Payload.slots : Payload → List Ref
  | .object es => es.map (·.value)
  | .array t => t
  | .string _ | .integer _ | .real _ => []

/-- The number of open handles to a node. -/
def State.handlesTo (s : State) (n : ℕ) : ℕ := s.handles.countP (·.2 = .node n)

/-- The number of container slots that hold a node. -/
def State.slotsHolding (s : State) (n : ℕ) : ℕ :=
  ∑ m ∈ Finset.range s.heap.next,
    ((s.heap.cells m).map fun c => c.payload.slots.count (.node n)).getD 0

/-- The counts are right, and no handle and no slot dangles. -/
structure State.RefsCounted (s : State) : Prop where
  allocated : ∀ n, s.heap.cells n ≠ none → n < s.heap.next
  count : ∀ n c, s.heap.cells n = some c → c.refcount = s.handlesTo n + s.slotsHolding n
  handles : ∀ hndl json, (hndl, json) ∈ s.handles → Live s.heap json
  slots : ∀ n c json, s.heap.cells n = some c → json ∈ c.payload.slots → Live s.heap json

section Counts
variable {E : Host} {s : State}

theorem children_perm (H : Hashing) (p : Payload) :
    (H.children p).Perm (p.slots.filterMap Ref.node?) := by
  cases p with
  | object es => exact children_object_perm H es
  | _ => exact .refl _

theorem count_filterMap_node (t : List Ref) (n : ℕ) :
    (t.filterMap Ref.node?).count n = t.count (.node n) := by
  induction t with
  | nil => rfl
  | cons r t ih =>
    rw [filterMap_node_cons, List.count_append, ih, List.count_cons]
    cases r with
    | node m =>
      by_cases h : m = n
      · simp [h, Nat.add_comm]
      · simp [h]
    | _ => simp [Pointer.nodes, Ref.node?]

theorem count_roots (s : State) (n : ℕ) : s.roots.count n = s.handlesTo n := by
  have hmap : s.handles.filterMap (·.2.node?) = (s.handles.map (·.2)).filterMap Ref.node? := by
    rw [List.filterMap_map]
    rfl
  rw [State.roots, Multiset.coe_count, hmap, count_filterMap_node, List.count, List.countP_map]
  rfl

theorem slots_eq_slotsHolding (hs : s.Counted E) (n : ℕ) :
    s.heap.slots E.children n = s.slotsHolding n := by
  refine Finset.sum_congr rfl fun m _ => ?_
  cases hc : s.heap.cells m with
  | none => simp [Heap.edges_of_none hc]
  | some c =>
    rw [Heap.edges_of_alive hc (hs.alive hc), (children_perm E.toHashing c.payload).count_eq,
      count_filterMap_node]
    rfl

theorem State.Counted.refsCounted (hs : s.Counted E) : s.RefsCounted := by
  refine ⟨fun n hn => ?_, fun n c hc => ?_, fun hndl json hj n hn => ?_,
    fun n c json hc hj m hm => ?_⟩
  · obtain ⟨c, hc⟩ := Option.ne_none_iff_exists'.mp hn
    exact hs.lt_next hc
  · have hcount := hs.count n c hc
    rw [count_roots, slots_eq_slotsHolding hs] at hcount
    exact hcount
  · exact hs.live_root (mem_roots_iff.mpr ⟨hndl, hn ▸ hj⟩)
  · refine hs.live_child hc ?_
    rw [(children_perm E.toHashing c.payload).mem_iff]
    exact mem_slots_of_mem hj hm

end Counts

/-- In every reachable state every count is right and nothing dangles, and every call has a
result: it frees nothing twice and reads nothing freed. Only `ReadKey` can fail to. -/
theorem reachable_refsCounted (E : Host) {s : State} (h : (system E).Reachable s) :
    s.RefsCounted ∧ ∀ c : Call, c.readsKey = false → (call E s c).isSome := by
  have hs := reachable_balanced h
  refine ⟨hs.refsCounted, fun c hc => ?_⟩
  obtain ⟨s', o, hr, -⟩ := call_acts hs hc
  rw [hr]
  rfl

/-- A host whose buckets follow the insertion order and whose buffers cut a text off. -/
def plainHost : Host where
  bucketOrder := id
  perm _ := .refl _
  readError _ := 3
  stringToLocalUTF8 maxlength text := text.take (maxlength - 1)

/-- A response whose body is an array with one string in it is read twice, its data is put
into an object under two keys, one of them is overwritten, and the object is put into itself,
which is refused. -/
def sharedRun : List Call :=
  [.openResponse ⟨.array (.item (.string [120]) .closed), true, ⟨0, 0, []⟩⟩,
    .getResponseData 1 none, .getResponseData 1 none, .createObject none,
    .setObject 3 [97] (.handle 2), .setObject 3 [98] (.handle 2), .setObject 3 [98] (.int 7),
    .setObject 3 [99] (.handle 3), .closeResponse 1, .getObject (.value none) 3 [97]]

theorem sharedRun_refsCounted : ∃ s, (system plainHost).run .empty sharedRun = some s ∧
    (s.heap.cells 0).map (·.refcount) = some 2 ∧ s.RefsCounted ∧
      ∀ c : Call, c.readsKey = false → (call plainHost s c).isSome := by
  have hrun : ((system plainHost).run .empty sharedRun).map
      (fun s => (s.heap.cells 0).map (·.refcount)) = some (some 2) := by decide
  obtain ⟨s, hs, hcount⟩ := Option.map_eq_some_iff.mp hrun
  exact ⟨s, hs, hcount, reachable_refsCounted plainHost ⟨sharedRun, hs⟩⟩

end RipExt.Json
