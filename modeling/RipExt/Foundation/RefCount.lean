import RipExt.Foundation.Ownership
import Mathlib.Algebra.BigOperators.Group.Finset.Basic
import Mathlib.Algebra.Order.BigOperators.Group.Finset
import Mathlib.Data.Multiset.Count
import Mathlib.Tactic

/-! Reference counting over an arbitrary payload whose `children` are the references it owns.
Dropping the last reference to a cell drops its children one after the other and frees the
cell afterwards, as a recursive release does; the list of tasks is the call stack of that
recursion. Touching a freed cell, or dropping a reference that nobody owns, has no result. -/
namespace RefCount
open scoped BigOperators

structure Cell (π : Type*) where
  refcount : ℕ
  payload : π
  deriving DecidableEq

structure Heap (π : Type*) where
  cells : ℕ → Option (Cell π)
  next : ℕ

inductive Task where
  | drop (n : ℕ)
  | free (n : ℕ)
  deriving DecidableEq

@[simp] def Task.dropped : Task → Option ℕ
  | .drop n => some n
  | .free _ => none

@[simp] def Task.freed : Task → Option ℕ
  | .drop _ => none
  | .free n => some n

theorem filterMap_dropped_map_drop (ns : List ℕ) :
    (ns.map Task.drop).filterMap Task.dropped = ns := by
  simp [List.filterMap_map, Function.comp_def]

theorem filterMap_freed_map_drop (ns : List ℕ) :
    (ns.map Task.drop).filterMap Task.freed = [] := by
  simp [List.filterMap_map, Function.comp_def]

/-- Changing one summand. -/
theorem sum_range_update {N m : ℕ} (hm : m < N) {f g : ℕ → ℕ} (hfg : ∀ k, k ≠ m → g k = f k) :
    ∑ k ∈ Finset.range N, g k + f m = ∑ k ∈ Finset.range N, f k + g m := by
  have hmem : m ∈ Finset.range N := Finset.mem_range.mpr hm
  rw [← Finset.add_sum_erase _ g hmem, ← Finset.add_sum_erase _ f hmem]
  have hrest : ∑ k ∈ (Finset.range N).erase m, g k = ∑ k ∈ (Finset.range N).erase m, f k :=
    Finset.sum_congr rfl fun k hk => hfg k (Finset.ne_of_mem_erase hk)
  omega

namespace Heap
variable {π : Type*}

def set (h : Heap π) (n : ℕ) (c : Option (Cell π)) : Heap π :=
  { h with cells := fun m => if m = n then c else h.cells m }

@[simp] theorem set_next (h : Heap π) (n : ℕ) (c : Option (Cell π)) : (h.set n c).next = h.next :=
  rfl

@[simp] theorem set_cells_self (h : Heap π) (n : ℕ) (c : Option (Cell π)) :
    (h.set n c).cells n = c := by simp [set]

theorem set_cells_of_ne (h : Heap π) {m n : ℕ} (c : Option (Cell π)) (hm : m ≠ n) :
    (h.set n c).cells m = h.cells m := by simp [set, hm]

/-- A fresh cell, owned once by whoever asked for it. -/
def alloc (h : Heap π) (p : π) : Heap π :=
  { h.set h.next (some ⟨1, p⟩) with next := h.next + 1 }

def incref (h : Heap π) (n : ℕ) : Option (Heap π) :=
  (h.cells n).map fun c => h.set n (some { c with refcount := c.refcount + 1 })

def setPayload (h : Heap π) (n : ℕ) (p : π) : Heap π :=
  match h.cells n with
  | some c => h.set n (some { c with payload := p })
  | none => h

section Children
variable (children : π → List ℕ)

/-- The references a cell owns; a cell on its way out owns none. -/
def edges (h : Heap π) (n : ℕ) : List ℕ :=
  match h.cells n with
  | some c => if c.refcount = 0 then [] else children c.payload
  | none => []

/-- How many slots of the heap refer to `n`. -/
def slots (h : Heap π) (n : ℕ) : ℕ := ∑ m ∈ Finset.range h.next, (h.edges children m).count n

def mass (h : Heap π) (n : ℕ) : ℕ :=
  match h.cells n with
  | some c => if c.refcount = 0 then 0 else (children c.payload).length + 1
  | none => 0

/-- A bound on the work a release can still do. -/
def weight (h : Heap π) : ℕ := ∑ m ∈ Finset.range h.next, h.mass children m

def release : ℕ → List Task → Heap π → Option (Heap π)
  | _, [], h => some h
  | 0, _ :: _, _ => none
  | fuel + 1, .drop n :: ts, h =>
    match h.cells n with
    | none => none
    | some c =>
      match c.refcount with
      | 0 => none
      | 1 =>
        release fuel ((children c.payload).map .drop ++ .free n :: ts)
          (h.set n (some { c with refcount := 0 }))
      | k + 2 => release fuel ts (h.set n (some { c with refcount := k + 1 }))
  | fuel + 1, .free n :: ts, h =>
    match h.cells n with
    | none => none
    | some _ => release fuel ts (h.set n none)

/-- Drops the references `ns` in order. -/
def decrefAll (h : Heap π) (ns : List ℕ) : Option (Heap π) :=
  release children (h.weight children + ns.length) (ns.map .drop) h

def decref (h : Heap π) (n : ℕ) : Option (Heap π) := h.decrefAll children [n]

variable {children} {h : Heap π} {n m : ℕ} {c : Cell π}

theorem edges_of_alive (hc : h.cells n = some c) (hr : c.refcount ≠ 0) :
    h.edges children n = children c.payload := by simp [edges, hc, hr]

theorem edges_set_self {d : Cell π} (hd : d.refcount ≠ 0) :
    (h.set n (some d)).edges children n = children d.payload :=
  edges_of_alive (set_cells_self h n _) hd

theorem edges_of_dying (hc : h.cells n = some c) (hr : c.refcount = 0) :
    h.edges children n = [] := by simp [edges, hc, hr]

theorem edges_of_none (hc : h.cells n = none) : h.edges children n = [] := by simp [edges, hc]

theorem edges_set_of_ne (o : Option (Cell π)) (hm : m ≠ n) :
    (h.set n o).edges children m = h.edges children m := by
  simp [edges, set_cells_of_ne h o hm]

theorem mem_edges_exists (hm : m ∈ h.edges children n) :
    ∃ c, h.cells n = some c ∧ c.refcount ≠ 0 ∧ m ∈ children c.payload := by
  unfold edges at hm
  split at hm
  next c hc =>
    split_ifs at hm with hr
    · cases hm
    · exact ⟨c, hc, hr, hm⟩
  next => cases hm

variable (children) in
theorem slots_set (o : Option (Cell π)) (hn : n < h.next) (m : ℕ) :
    (h.set n o).slots children m + (h.edges children n).count m =
      h.slots children m + ((h.set n o).edges children n).count m := by
  apply sum_range_update hn
  intro k hk
  rw [edges_set_of_ne o hk]

variable (children) in
theorem weight_set (o : Option (Cell π)) (hn : n < h.next) :
    (h.set n o).weight children + h.mass children n =
      h.weight children + (h.set n o).mass children n := by
  apply sum_range_update hn
  intro k hk
  simp [mass, set_cells_of_ne h o hk]

theorem slots_pos_of_mem (hn : n < h.next) (hm : m ∈ h.edges children n) :
    0 < h.slots children m := by
  have hle : (h.edges children n).count m ≤ h.slots children m :=
    Finset.single_le_sum (f := fun k => (h.edges children k).count m) (fun _ _ => Nat.zero_le _)
      (Finset.mem_range.mpr hn)
  have hpos := List.count_pos_iff.mpr hm
  omega

theorem exists_mem_of_slots_pos (hm : 0 < h.slots children m) : ∃ p, m ∈ h.edges children p := by
  by_contra hno
  push Not at hno
  have hzero : h.slots children m = 0 :=
    Finset.sum_eq_zero fun p _ => List.count_eq_zero.mpr (hno p)
  omega

end Children
end Heap

section Balance
variable {π : Type*} (children : π → List ℕ)

/-- Every count is the number of references: one for each root, one for each slot, and one
for each drop still to be done. -/
structure Balanced (h : Heap π) (R : Multiset ℕ) (ts : List Task) : Prop where
  bound : ∀ n, h.next ≤ n → h.cells n = none
  count : ∀ n c, h.cells n = some c →
    c.refcount = R.count n + h.slots children n + (ts.filterMap Task.dropped).count n
  live : ∀ n, h.cells n = none →
    R.count n + h.slots children n + (ts.filterMap Task.dropped).count n = 0
  dying : ∀ n c, h.cells n = some c → c.refcount = 0 → n ∈ ts.filterMap Task.freed
  freed : ∀ n ∈ ts.filterMap Task.freed, ∃ c, h.cells n = some c ∧ c.refcount = 0
  once : (ts.filterMap Task.freed).Nodup

/-- What a release leaves is part of what there was. -/
structure Pruned (h h' : Heap π) : Prop where
  next : h'.next = h.next
  cells : ∀ n c', h'.cells n = some c' →
    ∃ c, h.cells n = some c ∧ c.payload = c'.payload ∧ c'.refcount ≤ c.refcount

theorem Pruned.refl (h : Heap π) : Pruned h h := ⟨rfl, fun _ c hc => ⟨c, hc, rfl, le_rfl⟩⟩

theorem Pruned.trans {h₁ h₂ h₃ : Heap π} (h₁₂ : Pruned h₁ h₂) (h₂₃ : Pruned h₂ h₃) :
    Pruned h₁ h₃ := by
  refine ⟨h₂₃.next.trans h₁₂.next, fun n c₃ hc₃ => ?_⟩
  obtain ⟨c₂, hc₂, hp₂, hr₂⟩ := h₂₃.cells n c₃ hc₃
  obtain ⟨c₁, hc₁, hp₁, hr₁⟩ := h₁₂.cells n c₂ hc₂
  exact ⟨c₁, hc₁, hp₁.trans hp₂, hr₂.trans hr₁⟩

theorem pruned_set_some {h : Heap π} {n : ℕ} {c : Cell π} (hc : h.cells n = some c) {k : ℕ}
    (hk : k ≤ c.refcount) : Pruned h (h.set n (some { c with refcount := k })) := by
  refine ⟨rfl, fun m c' hc' => ?_⟩
  by_cases hm : m = n
  · subst hm
    rw [Heap.set_cells_self] at hc'
    cases hc'
    exact ⟨c, hc, rfl, hk⟩
  · rw [Heap.set_cells_of_ne h _ hm] at hc'
    exact ⟨c', hc', rfl, le_rfl⟩

theorem pruned_set_none (h : Heap π) (n : ℕ) : Pruned h (h.set n none) := by
  refine ⟨rfl, fun m c' hc' => ?_⟩
  by_cases hm : m = n
  · subst hm
    simp at hc'
  · rw [Heap.set_cells_of_ne h _ hm] at hc'
    exact ⟨c', hc', rfl, le_rfl⟩

variable {children} {h : Heap π} {R : Multiset ℕ} {ts : List Task} {n k : ℕ} {c : Cell π}

theorem Balanced.lt_next (hb : Balanced children h R ts) (hc : h.cells n = some c) :
    n < h.next := by
  by_contra hn
  rw [hb.bound n (by omega)] at hc
  cases hc

theorem Balanced.keep (hb : Balanced children h R (.drop n :: ts)) (hc : h.cells n = some c)
    (hk : c.refcount = k + 2) :
    Balanced children (h.set n (some { c with refcount := k + 1 })) R ts := by
  have hn := hb.lt_next hc
  have hedges : (h.set n (some { c with refcount := k + 1 })).edges children n =
      h.edges children n := by
    rw [Heap.edges_of_alive hc (by omega), Heap.edges_of_alive (Heap.set_cells_self _ _ _)]
    simp
  have hslots (m : ℕ) : (h.set n (some { c with refcount := k + 1 })).slots children m =
      h.slots children m := by
    have := Heap.slots_set children (some { c with refcount := k + 1 }) hn m
    rw [hedges] at this
    omega
  refine ⟨?_, ?_, ?_, ?_, ?_, hb.once⟩
  · intro m hm
    rw [Heap.set_cells_of_ne h _ (by simp at hm; omega)]
    exact hb.bound m hm
  · intro m d hd
    rw [hslots]
    by_cases hm : m = n
    · subst hm
      rw [Heap.set_cells_self] at hd
      cases hd
      have := hb.count m c hc
      simp only [List.filterMap_cons, Task.dropped, List.count_cons_self] at this
      simp only
      omega
    · rw [Heap.set_cells_of_ne h _ hm] at hd
      have := hb.count m d hd
      simpa [List.count_cons, Ne.symm hm] using this
  · intro m hm
    rw [hslots]
    have hmn : m ≠ n := by
      rintro rfl
      simp at hm
    rw [Heap.set_cells_of_ne h _ hmn] at hm
    have := hb.live m hm
    simpa [List.count_cons, Ne.symm hmn] using this
  · intro m d hd hr
    by_cases hm : m = n
    · subst hm
      rw [Heap.set_cells_self] at hd
      cases hd
      simp at hr
    · rw [Heap.set_cells_of_ne h _ hm] at hd
      exact hb.dying m d hd hr
  · intro m hm
    obtain ⟨d, hd, hr⟩ := hb.freed m hm
    have hmn : m ≠ n := by
      rintro rfl
      rw [hc] at hd
      cases hd
      omega
    exact ⟨d, by rw [Heap.set_cells_of_ne h _ hmn]; exact hd, hr⟩

/-- Dropping the last reference turns the slots of `n` into drops. -/
theorem Balanced.kill (hb : Balanced children h R (.drop n :: ts)) (hc : h.cells n = some c)
    (hk : c.refcount = 1) :
    Balanced children (h.set n (some { c with refcount := 0 })) R
      ((children c.payload).map .drop ++ .free n :: ts) := by
  have hn := hb.lt_next hc
  have hslots (m : ℕ) : (h.set n (some { c with refcount := 0 })).slots children m +
      (children c.payload).count m = h.slots children m := by
    have hset := Heap.slots_set children (some { c with refcount := 0 }) hn m
    rw [Heap.edges_of_alive hc (by omega), Heap.edges_of_dying (Heap.set_cells_self _ _ _) rfl,
      List.count_nil] at hset
    exact hset
  have hdropped (m : ℕ) : (((children c.payload).map Task.drop ++ .free n :: ts).filterMap
      Task.dropped).count m = (children c.payload).count m +
        (ts.filterMap Task.dropped).count m := by
    rw [List.filterMap_append, filterMap_dropped_map_drop, List.count_append]
    rfl
  have hfreed : ((children c.payload).map Task.drop ++ .free n :: ts).filterMap Task.freed =
      n :: ts.filterMap Task.freed := by
    rw [List.filterMap_append, filterMap_freed_map_drop]
    rfl
  refine ⟨?_, ?_, ?_, ?_, ?_, ?_⟩
  · intro m hm
    rw [Heap.set_cells_of_ne h _ (by simp at hm; omega)]
    exact hb.bound m hm
  · intro m d hd
    rw [hdropped]
    have hs := hslots m
    by_cases hm : m = n
    · subst hm
      rw [Heap.set_cells_self] at hd
      cases hd
      have hcount := hb.count m c hc
      simp only [List.filterMap_cons, Task.dropped, List.count_cons_self] at hcount
      simp only
      omega
    · rw [Heap.set_cells_of_ne h _ hm] at hd
      have hcount := hb.count m d hd
      simp only [List.filterMap_cons, Task.dropped, List.count_cons_of_ne (Ne.symm hm)] at hcount
      omega
  · intro m hm
    rw [hdropped]
    have hs := hslots m
    have hmn : m ≠ n := by
      rintro rfl
      simp at hm
    rw [Heap.set_cells_of_ne h _ hmn] at hm
    have hlive := hb.live m hm
    simp only [List.filterMap_cons, Task.dropped, List.count_cons_of_ne (Ne.symm hmn)] at hlive
    omega
  · intro m d hd hr
    rw [hfreed]
    by_cases hm : m = n
    · exact hm ▸ List.mem_cons_self
    · rw [Heap.set_cells_of_ne h _ hm] at hd
      exact List.mem_cons_of_mem _ (hb.dying m d hd hr)
  · intro m hm
    rw [hfreed] at hm
    by_cases hmn : m = n
    · subst hmn
      exact ⟨_, Heap.set_cells_self _ _ _, rfl⟩
    · obtain ⟨d, hd, hr⟩ := hb.freed m (List.mem_of_ne_of_mem hmn hm)
      exact ⟨d, by rw [Heap.set_cells_of_ne h _ hmn]; exact hd, hr⟩
  · rw [hfreed]
    refine List.nodup_cons.mpr ⟨fun hmem => ?_, hb.once⟩
    obtain ⟨d, hd, hr⟩ := hb.freed n hmem
    rw [hc] at hd
    cases hd
    omega

theorem Balanced.free (hb : Balanced children h R (.free n :: ts)) :
    ∃ c, h.cells n = some c ∧ c.refcount = 0 ∧ Balanced children (h.set n none) R ts := by
  obtain ⟨c, hc, hr⟩ := hb.freed n (by simp)
  have hn := hb.lt_next hc
  have hslots (m : ℕ) : (h.set n none).slots children m = h.slots children m := by
    have hset := Heap.slots_set children none hn m
    rw [Heap.edges_of_dying hc hr, Heap.edges_of_none (Heap.set_cells_self _ _ _)] at hset
    omega
  have hcount := hb.count n c hc
  have honce := List.nodup_cons.mp hb.once
  refine ⟨c, hc, hr, ?_, ?_, ?_, ?_, ?_, honce.2⟩
  · intro m hm
    rw [Heap.set_cells_of_ne h _ (by simp at hm; omega)]
    exact hb.bound m hm
  · intro m d hd
    have hmn : m ≠ n := by
      rintro rfl
      simp at hd
    rw [Heap.set_cells_of_ne h _ hmn] at hd
    rw [hslots]
    exact hb.count m d hd
  · intro m hm
    rw [hslots]
    by_cases hmn : m = n
    · subst hmn
      simp only [List.filterMap_cons, Task.dropped] at hcount
      omega
    · rw [Heap.set_cells_of_ne h _ hmn] at hm
      exact hb.live m hm
  · intro m d hd hd0
    have hmn : m ≠ n := by
      rintro rfl
      simp at hd
    rw [Heap.set_cells_of_ne h _ hmn] at hd
    have hmem : m ∈ n :: ts.filterMap Task.freed := hb.dying m d hd hd0
    exact List.mem_of_ne_of_mem hmn hmem
  · intro m hm
    obtain ⟨d, hd, hd0⟩ := hb.freed m (List.mem_cons_of_mem _ hm)
    have hmn : m ≠ n := by
      rintro rfl
      exact honce.1 hm
    exact ⟨d, by rw [Heap.set_cells_of_ne h _ hmn]; exact hd, hd0⟩

/-- `m` is referred to by a slot of `p`. -/
def Owns (children : π → List ℕ) (h : Heap π) (p m : ℕ) : Prop := m ∈ h.edges children p

theorem Balanced.anchored_count (hb : Balanced children h R ts) {S : Set ℕ}
    (hS : Ownership.Anchored {n | n ∈ R} (Owns children h) S) {m : ℕ} (hm : m ∈ S) :
    0 < R.count m + h.slots children m := by
  rcases hS m hm with hr | ⟨p, -, hp⟩
  · have := Multiset.count_pos.mpr hr
    omega
  · obtain ⟨d, hd, -⟩ := Heap.mem_edges_exists hp
    have := Heap.slots_pos_of_mem (hb.lt_next hd) hp
    omega

/-- Changing a cell outside an anchored set keeps the set anchored. -/
theorem anchored_set {S : Set ℕ} (hS : Ownership.Anchored {n | n ∈ R} (Owns children h) S)
    (hn : n ∉ S) (o : Option (Cell π)) :
    Ownership.Anchored {n | n ∈ R} (Owns children (h.set n o)) S := by
  refine hS.mono (fun _ _ => id) fun p hp m _ hpm => ?_
  have hpn : p ≠ n := by
    rintro rfl
    exact hn hp
  unfold Owns
  rw [Heap.edges_set_of_ne o hpn]
  exact hpm

theorem anchored_keep {S : Set ℕ} (hS : Ownership.Anchored {n | n ∈ R} (Owns children h) S)
    (hc : h.cells n = some c) (hk : c.refcount = k + 2) :
    Ownership.Anchored {n | n ∈ R}
      (Owns children (h.set n (some { c with refcount := k + 1 }))) S := by
  refine hS.mono (fun _ _ => id) fun p _ m _ hpm => ?_
  unfold Owns at hpm ⊢
  by_cases hpn : p = n
  · subst hpn
    rw [Heap.edges_of_alive hc (by omega)] at hpm
    rw [Heap.edges_of_alive (Heap.set_cells_self _ _ _) (by simp)]
    exact hpm
  · rw [Heap.edges_set_of_ne _ hpn]
    exact hpm

/-- A release from a balanced heap runs to its end without touching a freed cell, leaves the
heap balanced, and frees nothing that is anchored. -/
theorem release_balanced {fuel : ℕ} (hb : Balanced children h R ts)
    (hfuel : h.weight children + ts.length ≤ fuel) :
    ∃ h', Heap.release children fuel ts h = some h' ∧ Balanced children h' R [] ∧
      Pruned h h' ∧ ∀ S, Ownership.Anchored {n | n ∈ R} (Owns children h) S →
        Ownership.Anchored {n | n ∈ R} (Owns children h') S := by
  induction fuel generalizing h ts with
  | zero =>
    cases ts with
    | nil => exact ⟨h, rfl, hb, Pruned.refl h, fun _ => id⟩
    | cons t ts => simp at hfuel
  | succ fuel ih =>
    cases ts with
    | nil => exact ⟨h, rfl, hb, Pruned.refl h, fun _ => id⟩
    | cons t ts =>
      simp only [List.length_cons] at hfuel
      cases t with
      | drop n =>
        have hlive : h.cells n ≠ none := by
          intro hnone
          have := hb.live n hnone
          simp at this
        obtain ⟨c, hc⟩ := Option.ne_none_iff_exists'.mp hlive
        have hcount := hb.count n c hc
        simp only [List.filterMap_cons, Task.dropped, List.count_cons_self] at hcount
        have hn := hb.lt_next hc
        obtain hk | ⟨k, hk⟩ : c.refcount = 1 ∨ ∃ k, c.refcount = k + 2 := by
          rcases Nat.lt_or_ge c.refcount 2 with hlt | hge
          · left
            omega
          · exact .inr ⟨c.refcount - 2, by omega⟩
        · have hweight := Heap.weight_set children (some { c with refcount := 0 }) hn
          simp only [Heap.mass, hc, Heap.set_cells_self, hk] at hweight
          obtain ⟨h', hr, hb', hp, hS⟩ := ih (hb.kill hc hk) (by simp at hweight ⊢; omega)
          refine ⟨h', ?_, hb', (pruned_set_some hc (Nat.zero_le _)).trans hp, fun S hanch => ?_⟩
          · simpa [Heap.release, hc, hk] using hr
          · apply hS S
            apply anchored_set hanch
            intro hmem
            have := hb.anchored_count hanch hmem
            omega
        · have hweight := Heap.weight_set children
            (some { c with refcount := k + 1 }) hn
          simp only [Heap.mass, hc, Heap.set_cells_self, hk] at hweight
          obtain ⟨h', hr, hb', hp, hS⟩ := ih (hb.keep hc hk) (by simp at hweight; omega)
          refine ⟨h', ?_, hb', (pruned_set_some hc (by omega)).trans hp, fun S hanch => ?_⟩
          · simpa [Heap.release, hc, hk] using hr
          · exact hS S (anchored_keep hanch hc hk)
      | free n =>
        obtain ⟨c, hc, hr0, hb₁⟩ := hb.free
        have hn := hb.lt_next hc
        have hweight := Heap.weight_set children none hn
        simp only [Heap.mass, hc, Heap.set_cells_self, hr0] at hweight
        obtain ⟨h', hr, hb', hp, hS⟩ := ih hb₁ (by simp at hweight; omega)
        refine ⟨h', ?_, hb', (pruned_set_none h n).trans hp, fun S hanch => ?_⟩
        · simpa [Heap.release, hc] using hr
        · apply hS S
          apply anchored_set hanch
          intro hmem
          have := hb.anchored_count hanch hmem
          have := hb.count n c hc
          omega

theorem Balanced.alive (hb : Balanced children h R []) (hc : h.cells n = some c) :
    c.refcount ≠ 0 := by
  intro hr
  cases hb.dying n c hc hr

theorem Pruned.edges_eq {h' : Heap π} (hp : Pruned h h') (hc : h'.cells n = some c)
    (hr : c.refcount ≠ 0) : h.edges children n = h'.edges children n := by
  obtain ⟨d, hd, hpay, hle⟩ := hp.cells n c hc
  rw [Heap.edges_of_alive hd (by omega), Heap.edges_of_alive hc hr, hpay]

theorem Balanced.live_of_anchored (hb : Balanced children h R ts) {S : Set ℕ}
    (hS : Ownership.Anchored {n | n ∈ R} (Owns children h) S) {m : ℕ} (hm : m ∈ S) :
    h.cells m ≠ none := by
  intro hnone
  have hpos := hb.anchored_count hS hm
  have hzero := hb.live m hnone
  omega

theorem Balanced.anchored_live (hb : Balanced children h R []) :
    Ownership.Anchored {n | n ∈ R} (Owns children h) {n | h.cells n ≠ none} := by
  intro n hn
  obtain ⟨c, hc⟩ := Option.ne_none_iff_exists'.mp hn
  have hcount := hb.count n c hc
  have halive := hb.alive hc
  by_cases hr : n ∈ R
  · exact .inl hr
  · right
    have hzero := Multiset.count_eq_zero.mpr hr
    have hslots : 0 < h.slots children n := by
      simp only [List.filterMap_nil, List.count_nil] at hcount
      omega
    obtain ⟨p, hp⟩ := Heap.exists_mem_of_slots_pos hslots
    obtain ⟨d, hd, -⟩ := Heap.mem_edges_exists hp
    exact ⟨p, by simp [hd], hp⟩

/-- In a balanced heap with nothing left to do, exactly what is held is live. -/
theorem Balanced.live_iff_held (hb : Balanced children h R []) (n : ℕ) :
    h.cells n ≠ none ↔ Ownership.Held {n | n ∈ R} (Owns children h) n := by
  constructor
  · intro hn
    exact ⟨_, hb.anchored_live, hn⟩
  · rintro ⟨S, hS, hn⟩
    exact hb.live_of_anchored hS hn

/-- A release frees exactly what is not held. -/
theorem release_held {fuel : ℕ} (hb : Balanced children h R ts)
    (hfuel : h.weight children + ts.length ≤ fuel) :
    ∃ h', Heap.release children fuel ts h = some h' ∧ Balanced children h' R [] ∧
      Pruned h h' ∧
      ∀ n, h'.cells n ≠ none ↔ Ownership.Held {n | n ∈ R} (Owns children h) n := by
  obtain ⟨h', hr, hb', hp, hS⟩ := release_balanced hb hfuel
  refine ⟨h', hr, hb', hp, fun n => ⟨fun hn => ?_, ?_⟩⟩
  · refine ⟨_, hb'.anchored_live.mono (fun _ _ => id) fun p hp' m _ hpm => ?_, hn⟩
    obtain ⟨c, hc⟩ := Option.ne_none_iff_exists'.mp hp'
    unfold Owns
    rw [hp.edges_eq hc (hb'.alive hc)]
    exact hpm
  · rintro ⟨S, hanch, hn⟩
    exact hb'.live_of_anchored (hS S hanch) hn

variable (children ts) in
/-- Fuel beyond the weight changes nothing. -/
theorem release_add_fuel {fuel : ℕ} (hbound : ∀ n, h.next ≤ n → h.cells n = none)
    (hfuel : h.weight children + ts.length ≤ fuel) (k : ℕ) :
    Heap.release children (fuel + k) ts h = Heap.release children fuel ts h := by
  induction fuel generalizing h ts with
  | zero =>
    cases ts with
    | nil => simp [Heap.release]
    | cons t ts => simp at hfuel
  | succ fuel ih =>
    cases ts with
    | nil => simp [Heap.release]
    | cons t ts =>
      simp only [List.length_cons] at hfuel
      have hlt {n : ℕ} {c : Cell π} (hc : h.cells n = some c) : n < h.next := by
        by_contra hn
        rw [hbound n (by omega)] at hc
        cases hc
      have hset {n : ℕ} (hn : n < h.next) (o : Option (Cell π)) (m : ℕ)
          (hm : (h.set n o).next ≤ m) : (h.set n o).cells m = none := by
        rw [Heap.set_next] at hm
        rw [Heap.set_cells_of_ne h o (by omega)]
        exact hbound m hm
      rw [show fuel + 1 + k = (fuel + k) + 1 by omega]
      cases t with
      | drop n =>
        cases hc : h.cells n with
        | none => simp [Heap.release, hc]
        | some c =>
          have hn := hlt hc
          match hk : c.refcount with
          | 0 => simp [Heap.release, hc, hk]
          | 1 =>
            have hweight :=
              Heap.weight_set children (some { c with refcount := 0 }) hn
            simp [Heap.mass, hc, Heap.set_cells_self, hk] at hweight
            simpa [Heap.release, hc, hk] using ih _ (hset hn _) (by simp; omega)
          | j + 2 =>
            have hweight :=
              Heap.weight_set children (some { c with refcount := j + 1 }) hn
            simp [Heap.mass, hc, Heap.set_cells_self, hk] at hweight
            simpa [Heap.release, hc, hk] using ih _ (hset hn _) (by omega)
      | free n =>
        cases hc : h.cells n with
        | none => simp [Heap.release, hc]
        | some c =>
          have hn := hlt hc
          have hweight := Heap.weight_set children none hn
          have hmass : (h.set n none).mass children n = 0 := by simp [Heap.mass]
          simpa [Heap.release, hc] using ih _ (hset hn _) (by omega)

/-- A cell that is gone or on its way out does not come back. -/
theorem release_not_alive {h' : Heap π} {fuel a : ℕ}
    (ha : ∀ c, h.cells a = some c → c.refcount = 0)
    (hr : Heap.release children fuel ts h = some h') :
    ∀ c, h'.cells a = some c → c.refcount = 0 := by
  induction fuel generalizing h ts with
  | zero =>
    cases ts with
    | nil => simpa [Heap.release] using (Option.some.inj hr) ▸ ha
    | cons t ts => cases hr
  | succ fuel ih =>
    cases ts with
    | nil => simpa [Heap.release] using (Option.some.inj hr) ▸ ha
    | cons t ts =>
      have hset {n : ℕ} (o : Option (Cell π))
          (ho : n = a → ∀ c, o = some c → c.refcount = 0) (d : Cell π)
          (hd : (h.set n o).cells a = some d) : d.refcount = 0 := by
        by_cases han : a = n
        · subst han
          rw [Heap.set_cells_self] at hd
          exact ho rfl d hd
        · rw [Heap.set_cells_of_ne h o han] at hd
          exact ha d hd
      cases t with
      | drop n =>
        simp only [Heap.release] at hr
        split at hr
        next => cases hr
        next c hc =>
          split at hr
          next => cases hr
          next hk => exact ih (hset _ (by simp)) hr
          next k hk =>
            refine ih (hset _ fun hna => ?_) hr
            subst hna
            have := ha c hc
            omega
      | free n =>
        simp only [Heap.release] at hr
        split at hr
        next => cases hr
        next => exact ih (hset none (by simp)) hr

namespace Heap

theorem setPayload_of_some (hc : h.cells n = some c) (p : π) :
    h.setPayload n p = h.set n (some { c with payload := p }) := by simp [setPayload, hc]

theorem set_comm {m : ℕ} (hmn : m ≠ n) (o o' : Option (Cell π)) :
    (h.set n o).set m o' = (h.set m o').set n o := by
  unfold set
  congr 1
  funext k
  by_cases hkm : k = m
  · subst hkm
    simp [hmn]
  · simp [hkm]

theorem setPayload_set_of_ne {a : ℕ} (hna : n ≠ a) (o : Option (Cell π)) (p : π) :
    (h.setPayload a p).set n o = (h.set n o).setPayload a p := by
  cases hc : h.cells a with
  | none =>
    have hc' : (h.set n o).cells a = none := by rw [set_cells_of_ne h o (Ne.symm hna), hc]
    simp [setPayload, hc, hc']
  | some c =>
    have hc' : (h.set n o).cells a = some c := by rw [set_cells_of_ne h o (Ne.symm hna), hc]
    rw [setPayload_of_some hc, setPayload_of_some hc', set_comm hna]

@[simp] theorem setPayload_next (h : Heap π) (a : ℕ) (p : π) :
    (h.setPayload a p).next = h.next := by
  unfold setPayload
  split <;> rfl

theorem setPayload_cells_of_ne {a m : ℕ} (hm : m ≠ a) (p : π) :
    (h.setPayload a p).cells m = h.cells m := by
  unfold setPayload
  split
  · rw [set_cells_of_ne h _ hm]
  · rfl

theorem set_set (o o' : Option (Cell π)) : (h.set n o).set n o' = h.set n o' := by
  unfold set
  congr 1
  funext k
  by_cases hk : k = n <;> simp [hk]

theorem setPayload_setPayload (p q : π) : (h.setPayload n p).setPayload n q = h.setPayload n q := by
  cases hc : h.cells n with
  | none => simp [setPayload, hc]
  | some c =>
    rw [setPayload_of_some hc, setPayload_of_some (set_cells_self _ _ _), set_set,
      setPayload_of_some hc]

theorem setPayload_payload (hc : h.cells n = some c) : h.setPayload n c.payload = h := by
  rw [setPayload_of_some hc]
  unfold set
  congr 1
  funext k
  by_cases hk : k = n
  · subst hk
    simp [hc]
  · simp [hk]

end Heap

/-- A payload that is never read can be exchanged before a release or after it. -/
theorem release_setPayload {h' : Heap π} {fuel a : ℕ} {d : Cell π} (p : π)
    (hr : Heap.release children fuel ts h = some h') (ha : h'.cells a = some d)
    (hd : d.refcount ≠ 0) :
    Heap.release children fuel ts (h.setPayload a p) = some (h'.setPayload a p) := by
  induction fuel generalizing h ts with
  | zero =>
    cases ts with
    | nil =>
      obtain rfl : h = h' := by simpa [Heap.release] using hr
      simp [Heap.release]
    | cons t ts => cases hr
  | succ fuel ih =>
    cases ts with
    | nil =>
      obtain rfl : h = h' := by simpa [Heap.release] using hr
      simp [Heap.release]
    | cons t ts =>
      cases t with
      | drop n =>
        simp only [Heap.release] at hr
        split at hr
        next => cases hr
        next c hc =>
          by_cases hna : n = a
          · subst hna
            split at hr
            next => cases hr
            next hk =>
              have hdead := release_not_alive (a := n) (by simp) hr
              exact absurd (hdead d ha) hd
            next k hk =>
              have hih := ih hr
              rw [Heap.setPayload_of_some (Heap.set_cells_self _ _ _), Heap.set_set] at hih
              rw [Heap.setPayload_of_some hc]
              simpa [Heap.release, hk, Heap.set_set] using hih
          · have hcell : (h.setPayload a p).cells n = some c := by
              rw [Heap.setPayload_cells_of_ne hna, hc]
            split at hr
            next => cases hr
            next hk =>
              have hih := ih hr
              rw [← Heap.setPayload_set_of_ne hna] at hih
              simpa [Heap.release, hcell, hk] using hih
            next k hk =>
              have hih := ih hr
              rw [← Heap.setPayload_set_of_ne hna] at hih
              simpa [Heap.release, hcell, hk] using hih
      | free n =>
        simp only [Heap.release] at hr
        split at hr
        next => cases hr
        next c hc =>
          have hna : n ≠ a := by
            rintro rfl
            have hdead := release_not_alive (a := n) (by simp) hr
            exact absurd (hdead d ha) hd
          have hcell : (h.setPayload a p).cells n = some c := by
            rw [Heap.setPayload_cells_of_ne hna, hc]
          have hih := ih hr
          rw [← Heap.setPayload_set_of_ne hna] at hih
          simpa [Heap.release, hcell] using hih

end Balance

/-- Every payload in the heap has the property. -/
def Heap.Each {π : Type*} (P : π → Prop) (h : Heap π) : Prop :=
  ∀ n c, h.cells n = some c → P c.payload

section Each
variable {π : Type*} {children : π → List ℕ} {P : π → Prop} {h h' : Heap π} {n : ℕ}

/-- A release takes cells away and changes no payload, whatever the counts are. -/
theorem release_pruned {fuel : ℕ} {ts : List Task}
    (hr : Heap.release children fuel ts h = some h') : Pruned h h' := by
  induction fuel generalizing h ts with
  | zero =>
    cases ts with
    | nil =>
      cases hr
      exact .refl _
    | cons t ts => cases hr
  | succ fuel ih =>
    cases ts with
    | nil =>
      cases hr
      exact .refl _
    | cons t ts =>
      cases t with
      | drop n =>
        simp only [Heap.release] at hr
        split at hr
        next => cases hr
        next c hc =>
          split at hr
          next => cases hr
          next hk => exact (pruned_set_some hc (Nat.zero_le _)).trans (ih hr)
          next k hk => exact (pruned_set_some hc (by omega)).trans (ih hr)
      | free n =>
        simp only [Heap.release] at hr
        split at hr
        next => cases hr
        next => exact (pruned_set_none h n).trans (ih hr)

namespace Heap

theorem Each.pruned (hh : h.Each P) (hp : Pruned h h') : h'.Each P := by
  intro n c hc
  obtain ⟨c', hc', hpay, -⟩ := hp.cells n c hc
  rw [← hpay]
  exact hh n c' hc'

theorem Each.set (hh : h.Each P) {c : Cell π} (hc : P c.payload) : (h.set n (some c)).Each P := by
  intro m d hd
  by_cases hm : m = n
  · rw [hm, set_cells_self] at hd
    cases hd
    exact hc
  · rw [set_cells_of_ne h _ hm] at hd
    exact hh m d hd

theorem Each.alloc (hh : h.Each P) {p : π} (hp : P p) : (h.alloc p).Each P :=
  hh.set (c := ⟨1, p⟩) hp

theorem Each.incref (hh : h.Each P) (hi : h.incref n = some h') : h'.Each P := by
  obtain ⟨c, hc, rfl⟩ := Option.map_eq_some_iff.mp hi
  exact hh.set (c := { c with refcount := c.refcount + 1 }) (hh n c hc)

theorem Each.setPayload (hh : h.Each P) {p : π} (hp : P p) : (h.setPayload n p).Each P := by
  cases hc : h.cells n with
  | none =>
    rw [Heap.setPayload, hc]
    exact hh
  | some c =>
    rw [setPayload_of_some hc]
    exact hh.set (c := { c with payload := p }) hp

theorem Each.decrefAll (hh : h.Each P) {ns : List ℕ} (hd : h.decrefAll children ns = some h') :
    h'.Each P := hh.pruned (release_pruned hd)

end Heap

end Each

end RefCount
