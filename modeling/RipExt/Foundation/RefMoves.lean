import RipExt.Foundation.RefCount

/-! The operations of a program that counts references, as moves between a heap and the
references the program holds outside of it. Whatever a program does by such moves, the
counts stay right, and the moves preserve what the program keeps anchored. -/
namespace RefCount
variable {π : Type*} {children : π → List ℕ} {h h' : Heap π} {R R' K : Multiset ℕ}
  {a n : ℕ} {c : Cell π} {p : π} {olds : List ℕ}

/-- The references of `a` change to those of `p`; what is neither in `p` nor held any more is
to be dropped. -/
theorem Balanced.edit (hb : Balanced children h R []) (hc : h.cells a = some c)
    (hcount : ∀ m, (children p).count m + olds.count m + R'.count m =
      (children c.payload).count m + R.count m) :
    Balanced children (h.setPayload a p) R' (olds.map .drop) := by
  have ha := hb.lt_next hc
  have halive := hb.alive hc
  have hslots (m : ℕ) : (h.setPayload a p).slots children m + (children c.payload).count m =
      h.slots children m + (children p).count m := by
    have hset := Heap.slots_set children (some { c with payload := p }) ha m
    have hnew : (h.set a (some { c with payload := p })).edges children a = children p :=
      Heap.edges_set_self (d := { c with payload := p }) halive
    rw [Heap.edges_of_alive hc halive, hnew] at hset
    rw [Heap.setPayload_of_some hc]
    exact hset
  rw [Heap.setPayload_of_some hc] at hslots ⊢
  refine ⟨?_, ?_, ?_, ?_, ?_, ?_⟩
  · intro m hm
    rw [Heap.set_cells_of_ne h _ (by simp at hm; omega)]
    exact hb.bound m hm
  · intro m d hd
    have hs := hslots m
    have hm := hcount m
    rw [filterMap_dropped_map_drop]
    by_cases hma : m = a
    · subst hma
      rw [Heap.set_cells_self] at hd
      cases hd
      have hold := hb.count m c hc
      simp only [List.filterMap_nil, List.count_nil] at hold ⊢
      omega
    · rw [Heap.set_cells_of_ne h _ hma] at hd
      have hold := hb.count m d hd
      simp only [List.filterMap_nil, List.count_nil] at hold
      omega
  · intro m hnone
    have hs := hslots m
    have hm := hcount m
    have hma : m ≠ a := by
      rintro rfl
      simp at hnone
    rw [Heap.set_cells_of_ne h _ hma] at hnone
    have hold := hb.live m hnone
    rw [filterMap_dropped_map_drop]
    simp only [List.filterMap_nil, List.count_nil] at hold
    omega
  · intro m d hd hr
    by_cases hma : m = a
    · subst hma
      rw [Heap.set_cells_self] at hd
      cases hd
      exact absurd hr halive
    · rw [Heap.set_cells_of_ne h _ hma] at hd
      exact absurd hr (hb.alive hd)
  · intro m hm
    rw [filterMap_freed_map_drop] at hm
    cases hm
  · rw [filterMap_freed_map_drop]
    exact List.nodup_nil

/-- References the program gives up become drops. -/
theorem Balanced.drops (hb : Balanced children h (R + olds) []) :
    Balanced children h R (olds.map .drop) := by
  refine ⟨hb.bound, ?_, ?_, fun m d hd hr => absurd hr (hb.alive hd), ?_, ?_⟩
  · intro m d hd
    have hold := hb.count m d hd
    rw [filterMap_dropped_map_drop]
    simp only [Multiset.count_add, Multiset.coe_count, List.filterMap_nil, List.count_nil] at hold
    omega
  · intro m hnone
    have hold := hb.live m hnone
    rw [filterMap_dropped_map_drop]
    simp only [Multiset.count_add, Multiset.coe_count, List.filterMap_nil, List.count_nil] at hold
    omega
  · intro m hm
    rw [filterMap_freed_map_drop] at hm
    cases hm
  · rw [filterMap_freed_map_drop]
    exact List.nodup_nil

theorem decrefAll_held (hb : Balanced children h R (olds.map .drop)) :
    ∃ h', h.decrefAll children olds = some h' ∧ Balanced children h' R [] ∧ Pruned h h' ∧
      ∀ n, h'.cells n ≠ none ↔ Ownership.Held {n | n ∈ R} (Owns children h) n :=
  release_held hb (by simp)

/-- Giving up one reference. -/
theorem decref_held (hb : Balanced children h (n ::ₘ R) []) :
    ∃ h', h.decref children n = some h' ∧ Balanced children h' R [] ∧ Pruned h h' ∧
      ∀ m, h'.cells m ≠ none ↔ Ownership.Held {n | n ∈ R} (Owns children h) m := by
  apply decrefAll_held
  apply Balanced.drops
  rw [Multiset.coe_singleton, add_comm, Multiset.singleton_add]
  exact hb

/-- Dropping the references a cell no longer owns, before its payload is overwritten: the
order of the two makes no difference while the program holds the cell itself. -/
theorem decrefAll_setPayload (hb : Balanced children h R []) (hc : h.cells a = some c)
    (hcount : ∀ m, (children p).count m + olds.count m + R'.count m =
      (children c.payload).count m + R.count m) (ha : a ∈ R') :
    ∃ h₁, h.decrefAll children olds = some h₁ ∧
      (h.setPayload a p).decrefAll children olds = some (h₁.setPayload a p) ∧
      (∃ d, h₁.cells a = some d ∧ d.payload = c.payload) ∧
      Balanced children (h₁.setPayload a p) R' [] ∧
      Pruned (h.setPayload a p) (h₁.setPayload a p) ∧
      ∀ n, (h₁.setPayload a p).cells n ≠ none ↔
        Ownership.Held {n | n ∈ R'} (Owns children (h.setPayload a p)) n := by
  have hedit := hb.edit hc hcount
  obtain ⟨h₂, hr, hb₂, hp₂, hheld⟩ := decrefAll_held hedit
  have hlive : h₂.cells a ≠ none := (hheld a).mpr (Ownership.held_of_root ha)
  obtain ⟨d, hd⟩ := Option.ne_none_iff_exists'.mp hlive
  have hpay : d.payload = p := by
    obtain ⟨e, he, hpe, -⟩ := hp₂.cells a d hd
    rw [Heap.setPayload_of_some hc, Heap.set_cells_self] at he
    cases he
    exact hpe.symm
  have hback : (h.setPayload a p).setPayload a c.payload = h := by
    rw [Heap.setPayload_setPayload, Heap.setPayload_payload hc]
  have hbig := release_add_fuel children (olds.map .drop) hedit.bound (le_refl _)
    (h.weight children)
  have hrun := release_setPayload c.payload (hbig.trans (by simpa [Heap.decrefAll] using hr)) hd
    (hb₂.alive hd)
  rw [hback] at hrun
  have hsame := release_add_fuel children (olds.map .drop) hb.bound (le_refl _)
    ((h.setPayload a p).weight children)
  have hfuel : (h.setPayload a p).weight children + (olds.map Task.drop).length +
      h.weight children = h.weight children + (olds.map Task.drop).length +
      (h.setPayload a p).weight children := by omega
  rw [hfuel, hsame] at hrun
  have hroundtrip : (h₂.setPayload a c.payload).setPayload a p = h₂ := by
    rw [Heap.setPayload_setPayload, ← hpay, Heap.setPayload_payload hd]
  refine ⟨h₂.setPayload a c.payload, by simpa [Heap.decrefAll] using hrun, ?_, ?_, ?_⟩
  · rw [hroundtrip]
    exact hr
  · rw [Heap.setPayload_of_some hd]
    exact ⟨_, Heap.set_cells_self _ _ _, rfl⟩
  · rw [hroundtrip]
    exact ⟨hb₂, hp₂, hheld⟩

variable (children) in
theorem Heap.slots_bump (hbound : h.cells h.next = none) (m : ℕ) :
    ({ h with next := h.next + 1 } : Heap π).slots children m = h.slots children m := by
  unfold Heap.slots
  rw [Finset.sum_range_succ]
  have hlast : ({ h with next := h.next + 1 } : Heap π).edges children h.next = [] :=
    Heap.edges_of_none hbound
  rw [hlast]
  rfl

theorem Balanced.bump (hb : Balanced children h R []) :
    Balanced children { h with next := h.next + 1 } R [] := by
  have hslots := Heap.slots_bump children (hb.bound h.next le_rfl)
  refine ⟨fun m hm => hb.bound m (Nat.le_of_succ_le hm), ?_, ?_, hb.dying, hb.freed, hb.once⟩
  · intro m d hd
    rw [hslots]
    exact hb.count m d hd
  · intro m hm
    rw [hslots]
    exact hb.live m hm

/-- Taking one more reference to a live cell. -/
theorem Balanced.incref (hb : Balanced children h R []) (hc : h.cells n = some c) :
    Balanced children (h.set n (some { c with refcount := c.refcount + 1 })) (n ::ₘ R) [] := by
  have hn := hb.lt_next hc
  have halive := hb.alive hc
  have hslots (m : ℕ) : (h.set n (some { c with refcount := c.refcount + 1 })).slots children m =
      h.slots children m := by
    have hset := Heap.slots_set children (some { c with refcount := c.refcount + 1 }) hn m
    have hnew : (h.set n (some { c with refcount := c.refcount + 1 })).edges children n =
        children c.payload := Heap.edges_set_self (Nat.succ_ne_zero _)
    rw [Heap.edges_of_alive hc halive, hnew] at hset
    omega
  refine ⟨?_, ?_, ?_, ?_, by simp, by simp⟩
  · intro m hm
    rw [Heap.set_cells_of_ne h _ (by simp at hm; omega)]
    exact hb.bound m hm
  · intro m d hd
    rw [hslots]
    by_cases hmn : m = n
    · subst hmn
      rw [Heap.set_cells_self] at hd
      cases hd
      have hold := hb.count m c hc
      simp only [Multiset.count_cons_self, List.filterMap_nil, List.count_nil] at hold ⊢
      omega
    · rw [Heap.set_cells_of_ne h _ hmn] at hd
      rw [Multiset.count_cons_of_ne hmn]
      exact hb.count m d hd
  · intro m hm
    have hmn : m ≠ n := by
      rintro rfl
      simp at hm
    rw [Heap.set_cells_of_ne h _ hmn] at hm
    rw [hslots, Multiset.count_cons_of_ne hmn]
    exact hb.live m hm
  · intro m d hd hr
    by_cases hmn : m = n
    · subst hmn
      rw [Heap.set_cells_self] at hd
      cases hd
      simp at hr
    · rw [Heap.set_cells_of_ne h _ hmn] at hd
      exact absurd hr (hb.alive hd)

theorem Heap.alloc_cells_of_ne {m : ℕ} (hm : m ≠ h.next) (p : π) :
    (h.alloc p).cells m = h.cells m := Heap.set_cells_of_ne h _ hm

theorem Heap.alloc_cells_self (h : Heap π) (p : π) :
    (h.alloc p).cells h.next = some ⟨1, p⟩ := Heap.set_cells_self _ _ _

theorem Heap.edges_alloc (hbound : h.cells h.next = none) (hp : children p = []) (m : ℕ) :
    (h.alloc p).edges children m = h.edges children m := by
  by_cases hm : m = h.next
  · subst hm
    rw [Heap.edges_of_none hbound, Heap.edges_of_alive (Heap.alloc_cells_self h p) (by simp), hp]
  · simp [Heap.edges, Heap.alloc_cells_of_ne hm]

theorem Balanced.alloc (hb : Balanced children h R []) (hp : children p = []) :
    Balanced children (h.alloc p) (h.next ::ₘ R) [] := by
  have hnone := hb.bound h.next le_rfl
  have hslots (m : ℕ) : (h.alloc p).slots children m = h.slots children m := by
    unfold Heap.slots
    rw [show (h.alloc p).next = h.next + 1 from rfl, Finset.sum_range_succ]
    simp only [Heap.edges_alloc hnone hp, Heap.edges_of_none hnone, List.count_nil, add_zero]
  refine ⟨?_, ?_, ?_, ?_, by simp, by simp⟩
  · intro m hm
    have hm : h.next + 1 ≤ m := hm
    rw [Heap.alloc_cells_of_ne (by omega)]
    exact hb.bound m (by omega)
  · intro m d hd
    rw [hslots]
    by_cases hm : m = h.next
    · subst hm
      rw [Heap.alloc_cells_self] at hd
      cases hd
      have hold := hb.live h.next hnone
      simp only [Multiset.count_cons_self, List.filterMap_nil, List.count_nil] at hold ⊢
      omega
    · rw [Heap.alloc_cells_of_ne hm] at hd
      rw [Multiset.count_cons_of_ne hm]
      exact hb.count m d hd
  · intro m hm
    have hne : m ≠ h.next := by
      rintro rfl
      rw [Heap.alloc_cells_self] at hm
      cases hm
    rw [Heap.alloc_cells_of_ne hne] at hm
    rw [hslots, Multiset.count_cons_of_ne hne]
    exact hb.live m hm
  · intro m d hd hr
    by_cases hm : m = h.next
    · subst hm
      rw [Heap.alloc_cells_self] at hd
      cases hd
      simp at hr
    · rw [Heap.alloc_cells_of_ne hm] at hd
      exact absurd hr (hb.alive hd)

/-- The program overwrites the payload of a cell it holds, after dropping the references that
neither the new payload nor the program keeps. -/
def Edit (children : π → List ℕ) (h : Heap π) (R : Multiset ℕ) (a : ℕ) (p : π) (h' : Heap π)
    (R' : Multiset ℕ) : Prop :=
  ∃ c olds h₁, a ∈ R' ∧ h.cells a = some c ∧
    (∀ m, (children p).count m + List.count m olds + R'.count m =
      (children c.payload).count m + R.count m) ∧
    h.decrefAll children olds = some h₁ ∧ h' = h₁.setPayload a p

theorem Edit.held (he : Edit children h R a p h' R') (hb : Balanced children h R []) :
    Balanced children h' R' [] ∧ Pruned (h.setPayload a p) h' ∧
      ∀ n, h'.cells n ≠ none ↔
        Ownership.Held {n | n ∈ R'} (Owns children (h.setPayload a p)) n := by
  obtain ⟨c, olds, h₁, ha, hc, hcount, hd, rfl⟩ := he
  obtain ⟨h₂, hr, -, -, hspec⟩ := decrefAll_setPayload hb hc hcount ha
  obtain rfl := Option.some.inj (hr.symm.trans hd)
  exact hspec

/-- The references of the new payload are old ones or taken over from the program. -/
theorem Edit.mem_or {V : List ℕ} (he : Edit children h (↑V + R) a p h' R)
    (hc : h.cells a = some c) {w : ℕ} (hw : w ∈ children p) : w ∈ children c.payload ∨ w ∈ V := by
  obtain ⟨d, olds, h₁, -, hd, hcount, -⟩ := he
  rw [hc] at hd
  cases hd
  have hpos := List.count_pos_iff.mpr hw
  have hw := hcount w
  rw [Multiset.count_add, Multiset.coe_count] at hw
  rcases Nat.eq_zero_or_pos ((children c.payload).count w) with hzero | hold
  · right
    apply List.count_pos_iff.mp
    omega
  · exact .inl (List.count_pos_iff.mp hold)

/-- One operation on the heap and on the references `R` the program holds. It never gives up
the references `K`, and it overwrites a payload only where `L` allows it. -/
inductive Move (children : π → List ℕ) (K : Multiset ℕ) (L : Heap π → ℕ → π → Prop) :
    Heap π × Multiset ℕ → Heap π × Multiset ℕ → Prop
  | bump (h : Heap π) (R : Multiset ℕ) : Move children K L (h, R) ({ h with next := h.next + 1 }, R)
  | alloc (h : Heap π) (R : Multiset ℕ) (p : π) (hp : children p = []) :
      Move children K L (h, R) (h.alloc p, h.next ::ₘ R)
  | incref {h h' : Heap π} (R : Multiset ℕ) {n : ℕ} (hi : h.incref n = some h') :
      Move children K L (h, R) (h', n ::ₘ R)
  | decref {h h' : Heap π} {R : Multiset ℕ} {n : ℕ} (hK : K ≤ R)
      (hd : h.decref children n = some h') : Move children K L (h, n ::ₘ R) (h', R)
  | edit {h h' : Heap π} {R R' : Multiset ℕ} {a : ℕ} {p : π} (hK : K ≤ R')
      (he : Edit children h R a p h' R') (hL : L h a p) : Move children K L (h, R) (h', R')

/-- A program that moves. -/
def Moves (children : π → List ℕ) (K : Multiset ℕ) (L : Heap π → ℕ → π → Prop) :
    Heap π × Multiset ℕ → Heap π × Multiset ℕ → Prop :=
  Relation.ReflTransGen (Move children K L)

section Kept
variable {L : Heap π → ℕ → π → Prop} {S : Set ℕ} {s t : Heap π × Multiset ℕ}

theorem Move.balanced (hm : Move children K L s t) (hb : Balanced children s.1 s.2 []) :
    Balanced children t.1 t.2 [] := by
  cases hm with
  | bump h R => exact hb.bump
  | alloc h R p hp => exact hb.alloc hp
  | incref R hi =>
    obtain ⟨c, hc, rfl⟩ := Option.map_eq_some_iff.mp hi
    exact hb.incref hc
  | @decref h h' R n hK hd =>
    obtain ⟨h₂, hr, hb₂, -⟩ := decref_held hb
    obtain rfl := Option.some.inj (hr.symm.trans hd)
    exact hb₂
  | edit hK he hL => exact (he.held hb).1

theorem Move.next_le (hm : Move children K L s t) (hb : Balanced children s.1 s.2 []) :
    s.1.next ≤ t.1.next := by
  cases hm with
  | bump h R => exact Nat.le_succ _
  | alloc h R p hp => exact Nat.le_succ _
  | incref R hi =>
    obtain ⟨c, hc, rfl⟩ := Option.map_eq_some_iff.mp hi
    exact le_rfl
  | @decref h h' R n hK hd =>
    obtain ⟨h₂, hr, -, hp, -⟩ := decref_held hb
    obtain rfl := Option.some.inj (hr.symm.trans hd)
    exact hp.next.ge
  | edit hK he hL =>
    have hnext := (he.held hb).2.1.next
    rw [Heap.setPayload_next] at hnext
    exact hnext.ge

/-- Both heaps hold the same payload at `n`, or none. -/
def SamePayload (h h' : Heap π) (n : ℕ) : Prop :=
  (h.cells n).map Cell.payload = (h'.cells n).map Cell.payload

theorem SamePayload.edges (hn : SamePayload h h' n) (hb : Balanced children h R [])
    (hb' : Balanced children h' R' []) : h'.edges children n = h.edges children n := by
  cases hc : h.cells n with
  | none =>
    have hc' : h'.cells n = none := by simpa [SamePayload, hc, eq_comm] using hn
    rw [Heap.edges_of_none hc, Heap.edges_of_none hc']
  | some c =>
    cases hc' : h'.cells n with
    | none => simp [SamePayload, hc, hc'] at hn
    | some c' =>
      have hpay : c.payload = c'.payload := by simpa [SamePayload, hc, hc'] using hn
      rw [Heap.edges_of_alive hc (hb.alive hc), Heap.edges_of_alive hc' (hb'.alive hc'), hpay]

theorem Pruned.samePayload (hp : Pruned h h') (hn : h'.cells n ≠ none) : SamePayload h h' n := by
  obtain ⟨c', hc'⟩ := Option.ne_none_iff_exists'.mp hn
  obtain ⟨c, hc, hpay, -⟩ := hp.cells n c' hc'
  simp [SamePayload, hc, hc', hpay]

theorem Pruned.owns (hp : Pruned h h') {q m : ℕ} (hq : Owns children h' q m) :
    Owns children h q m := by
  unfold Owns at hq ⊢
  obtain ⟨c, hc, hr, -⟩ := Heap.mem_edges_exists hq
  rw [hp.edges_eq hc hr]
  exact hq

/-- What survives a release is held by the same references before and after. -/
theorem Pruned.held_iff {T : Set ℕ} (hp : Pruned h h') (hb : Balanced children h' R [])
    (hlive : ∀ n, h'.cells n ≠ none ↔ Ownership.Held {n | n ∈ R} (Owns children h) n)
    (hT : T ⊆ {n | n ∈ R}) :
    Ownership.Held T (Owns children h') n ↔ Ownership.Held T (Owns children h) n := by
  constructor
  · exact fun hn => hn.mono subset_rfl fun q m => hp.owns
  · rintro ⟨S, hS, hn⟩
    refine ⟨S, hS.mono (fun _ _ => id) fun q hq m _ hqm => ?_, hn⟩
    have hq' : h'.cells q ≠ none :=
      (hlive q).mpr ⟨S, hS.mono (fun _ _ hr => hT hr) fun _ _ _ _ => id, hq⟩
    obtain ⟨c, hc⟩ := Option.ne_none_iff_exists'.mp hq'
    unfold Owns at hqm ⊢
    rw [← hp.edges_eq hc (hb.alive hc)]
    exact hqm

theorem Heap.edges_setPayload_self (hc : h.cells a = some c) (hr : c.refcount ≠ 0) (p : π) :
    (h.setPayload a p).edges children a = children p := by
  rw [Heap.setPayload_of_some hc]
  exact Heap.edges_set_self hr

theorem Heap.edges_setPayload_of_ne {q : ℕ} (hq : q ≠ a) (p : π) :
    (h.setPayload a p).edges children q = h.edges children q := by
  simp [Heap.edges, Heap.setPayload_cells_of_ne hq]

/-- The set `S` is anchored in `K` before and after, with the same payloads. -/
structure Kept (children : π → List ℕ) (K : Multiset ℕ) (S : Set ℕ) (h h' : Heap π) : Prop where
  anchored : Ownership.Anchored {n | n ∈ K} (Owns children h') S
  payload : ∀ n ∈ S, SamePayload h h' n

theorem Kept.of_cells (hS : Ownership.Anchored {n | n ∈ K} (Owns children h) S)
    (hcells : ∀ n ∈ S, h'.cells n = h.cells n) : Kept children K S h h' := by
  constructor
  · refine hS.mono (fun _ _ => id) fun p hp m _ hpm => ?_
    unfold Owns Heap.edges at hpm ⊢
    rw [hcells p hp]
    exact hpm
  · intro n hn
    rw [SamePayload, hcells n hn]

theorem Kept.of_pruned (hS : Ownership.Anchored {n | n ∈ K} (Owns children h) S)
    (hb : Balanced children h' R []) (hp : Pruned h h') (hlive : ∀ n ∈ S, h'.cells n ≠ none) :
    Kept children K S h h' := by
  constructor
  · refine hS.mono (fun _ _ => id) fun p hpS m _ hpm => ?_
    obtain ⟨c, hc⟩ := Option.ne_none_iff_exists'.mp (hlive p hpS)
    unfold Owns at hpm ⊢
    rw [← hp.edges_eq hc (hb.alive hc)]
    exact hpm
  · intro n hn
    obtain ⟨c, hc⟩ := Option.ne_none_iff_exists'.mp (hlive n hn)
    obtain ⟨d, hd, hpay, -⟩ := hp.cells n c hc
    simp [SamePayload, hc, hd, hpay]

theorem Kept.trans {h₁ h₂ h₃ : Heap π} (h₁₂ : Kept children K S h₁ h₂)
    (h₂₃ : Kept children K S h₂ h₃) : Kept children K S h₁ h₃ :=
  ⟨h₂₃.anchored, fun n hn => (h₁₂.payload n hn).trans (h₂₃.payload n hn)⟩

theorem anchored_of_le (hS : Ownership.Anchored {n | n ∈ K} (Owns children h) S) (hK : K ≤ R) :
    Ownership.Anchored {n | n ∈ R} (Owns children h) S :=
  hS.mono (fun _ _ hn => Multiset.mem_of_le hK hn) fun _ _ _ _ => id

/-- What the kept references anchor survives every move that does not overwrite it. -/
theorem Move.kept (hm : Move children K L s t) (hb : Balanced children s.1 s.2 [])
    (hK : K ≤ s.2) (hS : Ownership.Anchored {n | n ∈ K} (Owns children s.1) S)
    (hL : ∀ h a p, L h a p → a ∉ S) : K ≤ t.2 ∧ Kept children K S s.1 t.1 := by
  have hb' := hm.balanced hb
  cases hm with
  | bump h R => exact ⟨hK, .of_cells hS fun _ _ => rfl⟩
  | alloc h R p hp =>
    refine ⟨hK.trans (Multiset.le_cons_self _ _), .of_cells hS fun n hn => ?_⟩
    apply Heap.alloc_cells_of_ne
    rintro rfl
    exact hb.live_of_anchored (anchored_of_le hS hK) hn (hb.bound _ le_rfl)
  | @incref h h' R n hi =>
    obtain ⟨c, hc, rfl⟩ := Option.map_eq_some_iff.mp hi
    refine ⟨hK.trans (Multiset.le_cons_self _ _), ?_, ?_⟩
    · refine hS.mono (fun _ _ => id) fun p _ m _ hpm => ?_
      unfold Owns at hpm ⊢
      by_cases hpn : p = n
      · subst hpn
        rw [Heap.edges_of_alive hc (hb.alive hc)] at hpm
        rw [Heap.edges_set_self (Nat.succ_ne_zero _)]
        exact hpm
      · rw [Heap.edges_set_of_ne _ hpn]
        exact hpm
    · intro m _
      by_cases hmn : m = n
      · subst hmn
        simp [SamePayload, hc]
      · simp [SamePayload, Heap.set_cells_of_ne h _ hmn]
  | @decref h h' R n hKR hd =>
    obtain ⟨h₂, hr, -, hp, hheld⟩ := decref_held hb
    obtain rfl := Option.some.inj (hr.symm.trans hd)
    exact ⟨hKR, .of_pruned hS hb' hp
      fun m hmS => (hheld m).mpr ⟨S, anchored_of_le hS hKR, hmS⟩⟩
  | @edit h h' R R' a p hKR he hLa =>
    obtain ⟨-, hp, hheld⟩ := he.held hb
    have haS := hL h a p hLa
    have hset : Kept children K S h (h.setPayload a p) := by
      refine .of_cells hS fun n hn => Heap.setPayload_cells_of_ne ?_ p
      rintro rfl
      exact haS hn
    exact ⟨hKR, hset.trans (.of_pruned hset.anchored hb' hp
      fun m hmS => (hheld m).mpr ⟨S, anchored_of_le hset.anchored hKR, hmS⟩)⟩

theorem Moves.balanced (hm : Moves children K L s t) (hb : Balanced children s.1 s.2 []) :
    Balanced children t.1 t.2 [] := by
  induction hm with
  | refl => exact hb
  | tail _ hlast ih => exact hlast.balanced ih

theorem Moves.next_le (hm : Moves children K L s t) (hb : Balanced children s.1 s.2 []) :
    s.1.next ≤ t.1.next := by
  induction hm with
  | refl => exact le_rfl
  | tail hinit hlast ih => exact ih.trans (hlast.next_le (Moves.balanced hinit hb))

theorem Moves.kept (hm : Moves children K L s t) (hb : Balanced children s.1 s.2 [])
    (hK : K ≤ s.2) (hS : Ownership.Anchored {n | n ∈ K} (Owns children s.1) S)
    (hL : ∀ h a p, L h a p → a ∉ S) : K ≤ t.2 ∧ Kept children K S s.1 t.1 := by
  induction hm with
  | refl => exact ⟨hK, hS, fun _ _ => rfl⟩
  | tail hinit hlast ih =>
    obtain ⟨hKu, hu⟩ := ih
    obtain ⟨hKt, ht⟩ := hlast.kept (Moves.balanced hinit hb) hKu hu.anchored hL
    exact ⟨hKt, hu.trans ht⟩

/-- Moves that never overwrite a cell from before keep everything that was live. -/
theorem Moves.live_kept (hm : Moves children K L s t) (hb : Balanced children s.1 s.2 [])
    (hK : s.2 = K) (hL : ∀ h a p, L h a p → s.1.next ≤ a) {n : ℕ} (hn : s.1.cells n ≠ none) :
    SamePayload s.1 t.1 n := by
  have hS := hb.anchored_live
  rw [hK] at hS
  refine (hm.kept hb hK.ge hS fun h a p hLa ha => ?_).2.payload n hn
  exact ha (hb.bound a (hL h a p hLa))

theorem owns_setPayload {q m : ℕ} (hq : Owns children (h.setPayload a p) q m) :
    Owns children h q m ∨ q = a ∧ m ∈ children p := by
  unfold Owns at hq ⊢
  cases hc : h.cells a with
  | none =>
    simp only [Heap.setPayload, hc] at hq
    exact .inl hq
  | some c =>
    rw [Heap.setPayload_of_some hc] at hq
    by_cases hqa : q = a
    · subst hqa
      obtain ⟨d, hd, -, hm⟩ := Heap.mem_edges_exists hq
      rw [Heap.set_cells_self] at hd
      cases hd
      exact .inr ⟨rfl, hm⟩
    · rw [Heap.edges_set_of_ne _ hqa] at hq
      exact .inl hq

theorem owns_incref (hc : h.cells n = some c) (hr : c.refcount ≠ 0) {q m : ℕ}
    (hq : Owns children (h.set n (some { c with refcount := c.refcount + 1 })) q m) :
    Owns children h q m := by
  unfold Owns at hq ⊢
  by_cases hqn : q = n
  · subst hqn
    rw [Heap.edges_set_self (Nat.succ_ne_zero _)] at hq
    rw [Heap.edges_of_alive hc hr]
    exact hq
  · rw [Heap.edges_set_of_ne _ hqn] at hq
    exact hq

/-- No cell owns itself, directly or through others. -/
def Acyclic (children : π → List ℕ) (h : Heap π) : Prop :=
  ∀ n, ¬Relation.TransGen (Owns children h) n n

theorem Acyclic.mono (hh : Acyclic children h)
    (hsub : ∀ q m, Owns children h' q m → Owns children h q m) : Acyclic children h' :=
  fun n hn => hh n (Relation.TransGen.mono hsub n n hn)

/-- Only an edit adds references, and only to the cell it overwrites. -/
theorem Move.owns (hm : Move children K L s t) (hb : Balanced children s.1 s.2 []) :
    ∃ a, ∀ q m, Owns children t.1 q m →
      Owns children s.1 q m ∨ q = a ∧ ∃ p, L s.1 a p ∧ m ∈ children p := by
  cases hm with
  | bump h R => exact ⟨0, fun q m => .inl⟩
  | alloc h R p hp =>
    refine ⟨0, fun q m hq => .inl ?_⟩
    unfold Owns at hq ⊢
    rw [Heap.edges_alloc (hb.bound _ le_rfl) hp] at hq
    exact hq
  | incref R hi =>
    obtain ⟨c, hc, rfl⟩ := Option.map_eq_some_iff.mp hi
    exact ⟨0, fun q m hq => .inl (owns_incref hc (hb.alive hc) hq)⟩
  | decref hKR hd =>
    obtain ⟨h₂, hr, -, hp, -⟩ := decref_held hb
    obtain rfl := Option.some.inj (hr.symm.trans hd)
    exact ⟨0, fun q m hq => .inl (hp.owns hq)⟩
  | @edit h h' R R' a p hKR he hLa =>
    obtain ⟨-, hp, -⟩ := he.held hb
    refine ⟨a, fun q m hq => ?_⟩
    exact (owns_setPayload (hp.owns hq)).imp_right fun hqm => ⟨hqm.1, p, hLa, hqm.2⟩

theorem Moves.owns_of_not_edit (hm : Moves children K L s t) (hb : Balanced children s.1 s.2 [])
    (hL : ∀ h a p, ¬L h a p) {q m : ℕ} (hq : Owns children t.1 q m) : Owns children s.1 q m := by
  induction hm with
  | refl => exact hq
  | tail hinit hlast ih =>
    obtain ⟨a, ha⟩ := hlast.owns (Moves.balanced hinit hb)
    rcases ha q m hq with hq | ⟨-, p, hLp, -⟩
    · exact ih hq
    · exact (hL _ a p hLp).elim

/-- A cell that was there before and is there after moves without edits has its old payload. -/
theorem Moves.payload_of_not_edit (hm : Moves children K L s t)
    (hb : Balanced children s.1 s.2 []) (hL : ∀ h a p, ¬L h a p) {n : ℕ} (hn : n < s.1.next)
    (ht : t.1.cells n ≠ none) : SamePayload s.1 t.1 n := by
  induction hm with
  | refl => rfl
  | @tail u w hinit hlast ih =>
    have hbu := Moves.balanced hinit hb
    have hnu := hn.trans_le (Moves.next_le hinit hb)
    have hlast' : SamePayload u.1 w.1 n := by
      cases hlast with
      | bump h R => rfl
      | alloc h R p hp => rw [SamePayload, Heap.alloc_cells_of_ne (Nat.ne_of_lt hnu)]
      | @incref h h' R k hi =>
        obtain ⟨c, hc, rfl⟩ := Option.map_eq_some_iff.mp hi
        by_cases hnk : n = k
        · subst hnk
          simp [SamePayload, hc]
        · rw [SamePayload, Heap.set_cells_of_ne h _ hnk]
      | decref hKR hd =>
        obtain ⟨h₂, hr, -, hp, -⟩ := decref_held hbu
        obtain rfl := Option.some.inj (hr.symm.trans hd)
        exact hp.samePayload ht
      | edit hKR he hLa => exact (hL _ _ _ hLa).elim
    have hu : u.1.cells n ≠ none := by
      intro hnone
      have hmap : (w.1.cells n).map Cell.payload = none := by rw [← hlast', hnone]; rfl
      exact ht (Option.map_eq_none_iff.mp hmap)
    exact (ih hu).trans hlast'

/-- Only overwriting a payload by one that leads back to its own cell closes a cycle. -/
theorem Move.acyclic (hm : Move children K L s t) (hb : Balanced children s.1 s.2 [])
    (hs : Acyclic children s.1)
    (hL : ∀ a p, L s.1 a p → ∀ v ∈ children p, v ∈ s.1.edges children a ∨
      ¬Relation.ReflTransGen (Owns children s.1) v a) : Acyclic children t.1 := by
  obtain ⟨a, ha⟩ := hm.owns hb
  apply Ownership.acyclic_insert (a := a)
    (N := fun v => ¬Relation.ReflTransGen (Owns children s.1) v a) hs
  · exact fun v hv => hv
  · intro q m hq
    rcases ha q m hq with hq | ⟨rfl, p, hLp, hm⟩
    · exact .inl hq
    · rcases hL q p hLp m hm with hv | hv
      · exact .inl hv
      · exact .inr ⟨rfl, hv⟩

theorem Move.mono {K' : Multiset ℕ} {L' : Heap π → ℕ → π → Prop} (hm : Move children K L s t)
    (hK : K' ≤ K) (hL : ∀ h a p, L h a p → L' h a p) : Move children K' L' s t := by
  cases hm with
  | bump h R => exact .bump h R
  | alloc h R p hp => exact .alloc h R p hp
  | incref R hi => exact .incref R hi
  | decref hKR hd => exact .decref (hK.trans hKR) hd
  | edit hKR he hLa => exact .edit (hK.trans hKR) he (hL _ _ _ hLa)

theorem Moves.mono {K' : Multiset ℕ} {L' : Heap π → ℕ → π → Prop} (hm : Moves children K L s t)
    (hK : K' ≤ K) (hL : ∀ h a p, L h a p → L' h a p) : Moves children K' L' s t :=
  Relation.ReflTransGen.mono (fun _ _ hm => hm.mono hK hL) _ _ hm

/-- A new cell, or an old cell that gains only references to later ones. -/
def Builds (children : π → List ℕ) (base : ℕ) (h : Heap π) (a : ℕ) (p : π) : Prop :=
  base ≤ a ∧ ∀ w ∈ children p, w ∈ h.edges children a ∨ a < w

/-- Building from `base` on: every reference of a later cell leads to a still later one. -/
def Ascending (children : π → List ℕ) (base : ℕ) (h : Heap π) : Prop :=
  ∀ q m, base ≤ q → Owns children h q m → q < m

theorem Ascending.not_reach {base v : ℕ} (hh : Ascending children base h) (ha : base ≤ a)
    (hv : a < v) : ¬Relation.ReflTransGen (Owns children h) v a := by
  intro hva
  have hle {x : ℕ} (hx : Relation.ReflTransGen (Owns children h) v x) : v ≤ x := by
    induction hx with
    | refl => exact le_rfl
    | tail _ hlast ih =>
      have := hh _ _ (by omega) hlast
      omega
  have := hle hva
  omega

theorem Move.ascending {base : ℕ} (hm : Move children K (Builds children base) s t)
    (hb : Balanced children s.1 s.2 []) (hs : Ascending children base s.1) :
    Ascending children base t.1 := by
  obtain ⟨a, ha⟩ := hm.owns hb
  intro q m hq hqm
  rcases ha q m hqm with hqm | ⟨rfl, p, hLp, hm⟩
  · exact hs q m hq hqm
  · rcases hLp.2 m hm with hqm | hlt
    · exact hs q m hq hqm
    · exact hlt

theorem Balanced.ascending_next (hb : Balanced children h R []) :
    Ascending children h.next h := by
  intro q m hq hqm
  obtain ⟨c, hc, -⟩ := Heap.mem_edges_exists hqm
  exact absurd (hb.lt_next hc) (by omega)

theorem Moves.ascending {base : ℕ} (hm : Moves children K (Builds children base) s t)
    (hb : Balanced children s.1 s.2 []) (hs : Ascending children base s.1) :
    Ascending children base t.1 := by
  induction hm with
  | refl => exact hs
  | tail hinit hlast ih => exact hlast.ascending (Moves.balanced hinit hb) ih

/-- Building closes no cycle. -/
theorem Moves.acyclic_of_builds {base : ℕ} (hm : Moves children K (Builds children base) s t)
    (hb : Balanced children s.1 s.2 []) (hs : Acyclic children s.1)
    (hasc : Ascending children base s.1) : Acyclic children t.1 := by
  induction hm with
  | refl => exact hs
  | tail hinit hlast ih =>
    have hascending := Moves.ascending hinit hb hasc
    refine hlast.acyclic (Moves.balanced hinit hb) ih fun a p hLa v hv => ?_
    exact (hLa.2 v hv).imp_right fun hlt => hascending.not_reach hLa.1 hlt

/-- No address is given out twice. -/
theorem Move.dead (hm : Move children K L s t) (hb : Balanced children s.1 s.2 [])
    (hn : n < s.1.next) (hdead : s.1.cells n = none) : t.1.cells n = none := by
  cases hm with
  | bump h R => exact hdead
  | alloc h R p hp =>
    rw [Heap.alloc_cells_of_ne (Nat.ne_of_lt hn)]
    exact hdead
  | @incref h h' R k hi =>
    obtain ⟨c, hc, rfl⟩ := Option.map_eq_some_iff.mp hi
    have hnk : n ≠ k := by
      rintro rfl
      rw [hdead] at hc
      cases hc
    rw [Heap.set_cells_of_ne h _ hnk]
    exact hdead
  | @decref h h' R k hK hd =>
    obtain ⟨h₂, hr, -, hp, -⟩ := decref_held hb
    obtain rfl := Option.some.inj (hr.symm.trans hd)
    by_contra hlive
    obtain ⟨c', hc'⟩ := Option.ne_none_iff_exists'.mp hlive
    obtain ⟨c, hc, -⟩ := hp.cells n c' hc'
    rw [hdead] at hc
    cases hc
  | @edit h h' R R' a p hK he hLa =>
    obtain ⟨-, hp, -⟩ := he.held hb
    obtain ⟨d, olds, h₁, -, hd, -⟩ := he
    have hna : n ≠ a := by
      rintro rfl
      rw [hdead] at hd
      cases hd
    by_contra hlive
    obtain ⟨c', hc'⟩ := Option.ne_none_iff_exists'.mp hlive
    obtain ⟨c, hc, -⟩ := hp.cells n c' hc'
    rw [Heap.setPayload_cells_of_ne hna, hdead] at hc
    cases hc

theorem Moves.dead (hm : Moves children K L s t) (hb : Balanced children s.1 s.2 [])
    (hn : n < s.1.next) (hdead : s.1.cells n = none) : t.1.cells n = none := by
  induction hm with
  | refl => exact hdead
  | tail hinit hlast ih =>
    exact hlast.dead (Moves.balanced hinit hb) (hn.trans_le (Moves.next_le hinit hb)) ih

end Kept

section Built

/-- What was built and is held by nobody is gone: by induction on the address, since only an
earlier cell that was built could refer to it. -/
theorem Moves.built_dead (hm : Moves children R (Builds children h.next) (h, R) (h', R))
    (hb : Balanced children h R []) (hdead : h.cells n = none) : h'.cells n = none := by
  have hb' : Balanced children h' R [] := hm.balanced hb
  induction n using Nat.strong_induction_on with
  | _ n ih =>
    by_contra hlive
    obtain ⟨c, hc⟩ := Option.ne_none_iff_exists'.mp hlive
    have hbefore := hb.live n hdead
    have hcount := hb'.count n c hc
    have halive := hb'.alive hc
    simp only [List.filterMap_nil, List.count_nil] at hbefore hcount
    have hpos : 0 < h'.slots children n := by omega
    obtain ⟨m, hm'⟩ := Heap.exists_mem_of_slots_pos hpos
    obtain ⟨d, hd, -⟩ := Heap.mem_edges_exists hm'
    cases hold : h.cells m with
    | some e =>
      have hsame : SamePayload h h' m :=
        hm.live_kept hb rfl (fun _ _ _ hL => hL.1) (by simp [hold])
      rw [hsame.edges hb hb'] at hm'
      have := Heap.slots_pos_of_mem (hb.lt_next hold) hm'
      omega
    | none =>
      have hnone : h'.cells m = none := by
        by_cases hlt : m < h.next
        · exact hm.dead hb hlt hold
        · exact ih m (hm.ascending hb hb.ascending_next m n (by omega) hm') hold
      rw [hnone] at hd
      cases hd

/-- Building that ends with the references it started with leaves every cell and every count as
it was. -/
theorem Moves.cells_eq (hm : Moves children R (Builds children h.next) (h, R) (h', R))
    (hb : Balanced children h R []) : h'.cells = h.cells := by
  have hb' : Balanced children h' R [] := hm.balanced hb
  have hnext : h.next ≤ h'.next := hm.next_le hb
  have hsame (n : ℕ) : SamePayload h h' n := by
    cases hold : h.cells n with
    | none => simp [SamePayload, hold, hm.built_dead hb hold]
    | some c => exact hm.live_kept hb rfl (fun _ _ _ hL => hL.1) (by simp [hold])
  have hslots (n : ℕ) : h'.slots children n = h.slots children n := by
    unfold Heap.slots
    simp only [(hsame _).edges hb hb']
    refine (Finset.sum_subset (Finset.range_mono hnext) fun m _ hm' => ?_).symm
    rw [Heap.edges_of_none (hb.bound m (by simpa using hm')), List.count_nil]
  funext n
  have hpay := hsame n
  cases hold : h.cells n with
  | none => exact hm.built_dead hb hold
  | some c =>
    cases hnew : h'.cells n with
    | none => simp [SamePayload, hold, hnew] at hpay
    | some d =>
      have hcount : d.refcount = c.refcount := by
        rw [hb'.count n d hnew, hb.count n c hold, hslots]
      have hpayload : c.payload = d.payload := by simpa [SamePayload, hold, hnew] using hpay
      cases c
      cases d
      simp_all

end Built

end RefCount
