import Mathlib.Data.Set.Finite.Basic
import Mathlib.Logic.Relation
import Mathlib.Order.WellFounded
import Mathlib.Tactic.Common

/-! Ownership graphs: what a collector that only counts references can keep. A node is held
if it lies in a set whose members are all roots or owned by a member of the set; over
finitely many owners this is reachability from a root or from a cycle. -/
namespace Ownership
variable {α : Type*}

def Anchored (R : Set α) (E : α → α → Prop) (S : Set α) : Prop := ∀ n ∈ S, n ∈ R ∨ ∃ p ∈ S, E p n

def Held (R : Set α) (E : α → α → Prop) (n : α) : Prop := ∃ S, Anchored R E S ∧ n ∈ S

variable {R R' : Set α} {E E' : α → α → Prop} {S : Set α} {a n p : α}

theorem Anchored.mono (hS : Anchored R E S) (hR : ∀ n ∈ S, n ∈ R → n ∈ R')
    (hE : ∀ p ∈ S, ∀ n ∈ S, E p n → E' p n) : Anchored R' E' S := by
  intro n hn
  rcases hS n hn with hr | ⟨p, hp, hpn⟩
  · exact .inl (hR n hn hr)
  · exact .inr ⟨p, hp, hE p hp n hn hpn⟩

theorem anchored_held : Anchored R E {n | Held R E n} := by
  rintro n ⟨S, hS, hn⟩
  rcases hS n hn with hr | ⟨p, hp, hpn⟩
  · exact .inl hr
  · exact .inr ⟨p, ⟨S, hS, hp⟩, hpn⟩

theorem Held.mono (h : Held R E n) (hR : R ⊆ R') (hE : ∀ p n, E p n → E' p n) : Held R' E' n := by
  obtain ⟨S, hS, hn⟩ := h
  exact ⟨S, hS.mono (fun _ _ hr => hR hr) (fun p _ n _ => hE p n), hn⟩

theorem held_of_root (h : n ∈ R) : Held R E n :=
  ⟨{n}, fun _ hm => .inl (Set.mem_singleton_iff.mp hm ▸ h), rfl⟩

theorem Held.own (h : Held R E p) (hpn : E p n) : Held R E n := by
  refine ⟨insert n {m | Held R E m}, ?_, Set.mem_insert _ _⟩
  intro m hm
  rcases Set.mem_insert_iff.mp hm with rfl | hm
  · exact .inr ⟨p, Set.mem_insert_of_mem _ h, hpn⟩
  · rcases anchored_held m hm with hr | ⟨q, hq, hqm⟩
    · exact .inl hr
    · exact .inr ⟨q, Set.mem_insert_of_mem _ hq, hqm⟩

theorem Held.reach (h : Held R E p) (hpn : Relation.ReflTransGen E p n) : Held R E n := by
  induction hpn with
  | refl => exact h
  | tail _ hlast ih => exact ih.own hlast

/-- A cycle holds itself. -/
theorem held_of_cycle (h : Relation.TransGen E n n) : Held R E n := by
  refine ⟨{m | Relation.TransGen E m m ∧ Relation.TransGen E n m}, ?_, h, h⟩
  rintro m ⟨hm, hnm⟩
  right
  obtain ⟨p, hmp, hpm⟩ := Relation.TransGen.tail'_iff.mp hm
  refine ⟨p, ⟨(Relation.TransGen.single hpm).trans_left hmp, ?_⟩, hpm⟩
  exact hnm.trans_left hmp

/-- Every non-empty set in which each member is owned by a member contains a cycle, if only
finitely many nodes own anything. -/
theorem exists_cycle_of_owned (hfin : {p | ∃ n, E p n}.Finite) (hne : S.Nonempty)
    (hS : ∀ n ∈ S, ∃ p ∈ S, E p n) : ∃ n ∈ S, Relation.TransGen E n n := by
  by_contra hno
  push Not at hno
  let B : Set α := S ∩ {p | ∃ n, E p n}
  have hB (n : α) (hn : n ∈ S) : ∃ p ∈ B, E p n := by
    obtain ⟨p, hp, hpn⟩ := hS n hn
    exact ⟨p, ⟨hp, n, hpn⟩, hpn⟩
  have : Finite B := (hfin.subset Set.inter_subset_right).to_subtype
  let r : B → B → Prop := fun x y => Relation.TransGen E x y
  have : IsTrans B r := ⟨fun _ _ _ hxy hyz => Relation.TransGen.trans hxy hyz⟩
  have : Std.Irrefl r := ⟨fun x => hno x x.2.1⟩
  have hwf : WellFounded r := Finite.wellFounded_of_trans_of_irrefl r
  obtain ⟨n, hn⟩ := hne
  obtain ⟨p, hp, -⟩ := hB n hn
  have hmin := hwf.has_min Set.univ ⟨⟨p, hp⟩, trivial⟩
  obtain ⟨m, -, hm⟩ := hmin
  obtain ⟨q, hq, hqm⟩ := hB m m.2.1
  exact hm ⟨q, hq⟩ trivial (Relation.TransGen.single hqm)

/-- Over finitely many owners, held means reachable from a root or from a cycle. -/
theorem held_iff_reachable (hfin : {p | ∃ n, E p n}.Finite) :
    Held R E n ↔
      ∃ m, (m ∈ R ∨ Relation.TransGen E m m) ∧ Relation.ReflTransGen E m n := by
  constructor
  · rintro ⟨S, hS, hn⟩
    by_contra hno
    push Not at hno
    let A : Set α := S ∩ {m | Relation.ReflTransGen E m n}
    have hA : ∀ m ∈ A, ∃ p ∈ A, E p m := by
      rintro m ⟨hm, hmn⟩
      rcases hS m hm with hr | ⟨p, hp, hpm⟩
      · exact absurd hmn (hno m (.inl hr))
      · exact ⟨p, ⟨hp, hmn.head hpm⟩, hpm⟩
    have hnA : n ∈ A := ⟨hn, .refl⟩
    obtain ⟨m, hm, hcycle⟩ := exists_cycle_of_owned hfin ⟨n, hnA⟩ hA
    exact hno m (.inr hcycle) hm.2
  · rintro ⟨m, hm | hm, hmn⟩
    · exact (held_of_root hm).reach hmn
    · exact (held_of_cycle hm).reach hmn

/-- A path through new edges out of `a` either avoids them or passes through `a` and one of
the new targets. -/
theorem transGen_insert {N : α → Prop}
    (h : Relation.TransGen (fun p n => E p n ∨ p = a ∧ N n) p n) :
    Relation.TransGen E p n ∨
      Relation.ReflTransGen E p a ∧ ∃ v, N v ∧ Relation.ReflTransGen E v n := by
  induction h with
  | single h =>
    rcases h with h | ⟨rfl, h⟩
    · exact .inl (.single h)
    · exact .inr ⟨.refl, _, h, .refl⟩
  | tail _ hlast ih =>
    rcases ih with ih | ⟨hpa, v, hv, hvm⟩
    · rcases hlast with hlast | ⟨rfl, hlast⟩
      · exact .inl (ih.tail hlast)
      · exact .inr ⟨ih.to_reflTransGen, _, hlast, .refl⟩
    · rcases hlast with hlast | ⟨rfl, hlast⟩
      · exact .inr ⟨hpa, v, hv, hvm.tail hlast⟩
      · exact .inr ⟨hpa, _, hlast, .refl⟩

/-- New edges from `a` to nodes that do not lead back to `a` close no cycle. -/
theorem acyclic_insert {N : α → Prop} (hE : ∀ n, ¬Relation.TransGen E n n)
    (hN : ∀ v, N v → ¬Relation.ReflTransGen E v a)
    (hsub : ∀ p n, E' p n → E p n ∨ p = a ∧ N n) (n : α) : ¬Relation.TransGen E' n n := by
  intro h
  rcases transGen_insert (Relation.TransGen.mono hsub n n h) with h | ⟨hna, v, hv, hvn⟩
  · exact hE n h
  · exact hN v hv (hvn.trans hna)

end Ownership
