import Mathlib.Data.List.Infix
import Mathlib.Tactic.Common

/-! Runs of a labelled transition system given by a partial step function, with
the induction rules that carry invariants and per-step conditions along them. -/
namespace Transition

/-- `step s a = none` means that action `a` is not enabled in state `s`. -/
structure System (σ α : Type*) where
  init : σ
  step : σ → α → Option σ

namespace System
variable {σ α : Type*} (M : System σ α)

def run : σ → List α → Option σ
  | s, [] => some s
  | s, a :: as => (M.step s a).bind (run · as)

@[simp] theorem run_nil (s : σ) : M.run s [] = some s := rfl

theorem run_cons {s t : σ} {a : α} {as : List α} :
    M.run s (a :: as) = some t ↔ ∃ u, M.step s a = some u ∧ M.run u as = some t := by
  simp [run, Option.bind_eq_some_iff]

theorem run_append {s t : σ} {as bs : List α} :
    M.run s (as ++ bs) = some t ↔ ∃ u, M.run s as = some u ∧ M.run u bs = some t := by
  induction as generalizing s with
  | nil => simp
  | cons a as ih =>
    simp only [List.cons_append, run_cons, ih]
    constructor
    · rintro ⟨v, hv, u, hu, ht⟩
      exact ⟨u, ⟨v, hv, hu⟩, ht⟩
    · rintro ⟨u, ⟨v, hv, hu⟩, ht⟩
      exact ⟨v, hv, u, hu, ht⟩

def Reachable (s : σ) : Prop := ∃ as, M.run M.init as = some s

/-- `P` holds of every step of the run, in the state that step starts from. -/
def Along (P : σ → α → Prop) : σ → List α → Prop
  | _, [] => True
  | s, a :: as => P s a ∧ ∀ t, M.step s a = some t → Along P t as

instance decidableAlong (P : σ → α → Prop) [∀ s a, Decidable (P s a)] :
    ∀ s as, Decidable (M.Along P s as)
  | _, [] => isTrue trivial
  | s, a :: as =>
    match h : M.step s a with
    | none => decidable_of_iff (P s a) (by simp [Along, h])
    | some t =>
      haveI := decidableAlong P t as
      decidable_of_iff (P s a ∧ M.Along P t as) (by simp [Along, h])

/-- `t` is one of the states the run `as` from `s` goes through. -/
def Visits (s : σ) (as : List α) (t : σ) : Prop := ∃ pre, pre <+: as ∧ M.run s pre = some t

variable {M}

theorem Reachable.step {s t : σ} {a : α} (h : M.Reachable s) (ht : M.step s a = some t) :
    M.Reachable t := by
  obtain ⟨as, hr⟩ := h
  exact ⟨as ++ [a], M.run_append.mpr ⟨s, hr, M.run_cons.mpr ⟨t, ht, rfl⟩⟩⟩

theorem Along.mono {P Q : σ → α → Prop} (hPQ : ∀ s a, P s a → Q s a) {s : σ} {as : List α}
    (h : M.Along P s as) : M.Along Q s as := by
  induction as generalizing s with
  | nil => trivial
  | cons a as ih => exact ⟨hPQ s a h.1, fun t ht => ih (h.2 t ht)⟩

/-- An invariant kept by every step that meets `P` holds after every run whose steps do. -/
theorem run_invariant {I : σ → Prop} {P : σ → α → Prop}
    (hstep : ∀ s a t, I s → P s a → M.step s a = some t → I t) {s t : σ} {as : List α}
    (hs : I s) (hP : M.Along P s as) (hr : M.run s as = some t) : I t := by
  induction as generalizing s with
  | nil => simpa using (Option.some.inj hr) ▸ hs
  | cons a as ih =>
    obtain ⟨u, hu, hr⟩ := M.run_cons.mp hr
    exact ih (hstep s a u hs hP.1 hu) (hP.2 u hu) hr

theorem along_true {s : σ} {as : List α} : M.Along (fun _ _ => True) s as := by
  induction as generalizing s with
  | nil => trivial
  | cons a as ih => exact ⟨trivial, fun t _ => ih⟩

theorem reachable_invariant {I : σ → Prop} (hinit : I M.init)
    (hstep : ∀ s a t, I s → M.step s a = some t → I t) {s : σ} (h : M.Reachable s) : I s := by
  obtain ⟨as, hr⟩ := h
  exact run_invariant (fun s a t hs _ ht => hstep s a t hs ht) hinit along_true hr

/-- Forward simulation: if `f` turns every step of `M` into some run of `N`, then it turns
the states `M` reaches into states `N` reaches. -/
theorem reachable_simulation {τ β : Type*} {N : System τ β} (f : σ → τ) {I : σ → Prop}
    (hf : f M.init = N.init) (hinit : I M.init)
    (hI : ∀ s a t, I s → M.step s a = some t → I t)
    (hstep : ∀ s a t, I s → M.step s a = some t → ∃ bs, N.run (f s) bs = some (f t))
    {s : σ} (h : M.Reachable s) : N.Reachable (f s) := by
  have hboth : I s ∧ N.Reachable (f s) := by
    refine reachable_invariant (I := fun s => I s ∧ N.Reachable (f s)) ?_ ?_ h
    · exact ⟨hinit, [], by rw [hf]; rfl⟩
    · rintro s a t ⟨hs, as, hr⟩ ht
      obtain ⟨bs, hb⟩ := hstep s a t hs ht
      exact ⟨hI s a t hs ht, as ++ bs, N.run_append.mpr ⟨f s, hr, hb⟩⟩
  exact hboth.2

/-- Every action of a run was enabled. -/
theorem enabled_of_run {s t u : σ} {a : α} {pre as : List α} (hr : M.run s as = some t)
    (hpre : pre ++ [a] <+: as) (hu : M.run s pre = some u) : ∃ v, M.step u a = some v := by
  obtain ⟨post, rfl⟩ := hpre
  obtain ⟨v, hv, -⟩ := M.run_append.mp hr
  obtain ⟨w, hw, hstep⟩ := M.run_append.mp hv
  obtain rfl := Option.some.inj (hu.symm.trans hw)
  obtain ⟨x, hx, -⟩ := M.run_cons.mp hstep
  exact ⟨x, hx⟩

/-- A condition holds along a run exactly when it holds of every step, wherever it stands. -/
theorem along_iff {P : σ → α → Prop} {s : σ} {as : List α} :
    M.Along P s as ↔
      ∀ pre a t, pre ++ [a] <+: as → M.run s pre = some t → P t a := by
  induction as generalizing s with
  | nil => simp [Along]
  | cons b as ih =>
    constructor
    · rintro ⟨hb, hrest⟩ pre a t hpre hr
      cases pre with
      | nil =>
        obtain ⟨rfl, -⟩ := List.cons_prefix_cons.mp hpre
        cases hr
        exact hb
      | cons c pre =>
        obtain ⟨rfl, htail⟩ := List.cons_prefix_cons.mp hpre
        obtain ⟨u, hu, hr⟩ := M.run_cons.mp hr
        exact ih.mp (hrest u hu) pre a t htail hr
    · intro hall
      refine ⟨hall [] b s (by simp) rfl, fun u hu => ih.mpr fun pre a t hpre hr => ?_⟩
      exact hall (b :: pre) a t (List.cons_prefix_cons.mpr ⟨rfl, hpre⟩)
        (M.run_cons.mpr ⟨u, hu, hr⟩)

/-- The induction over a run for a property of the state and of what has happened so far. -/
theorem run_history {I : List α → σ → Prop} {s : σ} {as : List α} (hnil : I [] s)
    (hstep : ∀ pre a t u, pre ++ [a] <+: as → M.run s pre = some t → I pre t →
      M.step t a = some u → I (pre ++ [a]) u)
    {pre : List α} {t : σ} (hpre : pre <+: as) (hr : M.run s pre = some t) : I pre t := by
  induction pre using List.reverseRecOn generalizing t with
  | nil =>
    cases hr
    exact hnil
  | append_singleton pre a ih =>
    obtain ⟨u, hu, hlast⟩ := M.run_append.mp hr
    obtain ⟨v, hv, hnil'⟩ := M.run_cons.mp hlast
    cases hnil'
    exact hstep pre a u t hpre hu (ih ((List.prefix_append pre [a]).trans hpre) hu) hv

/-- An invariant that counts the occurrences of an action holds after every run with their
number. -/
theorem run_counted [DecidableEq α] {I : ℕ → σ → Prop} {P : α → Prop} (b : α)
    (hstep : ∀ k s a t, I k s → P a → M.step s a = some t → I (if a = b then k + 1 else k) t)
    {k : ℕ} {s t : σ} {as : List α} (hs : I k s) (hP : ∀ a ∈ as, P a)
    (hr : M.run s as = some t) : I (k + as.count b) t := by
  induction as generalizing k s with
  | nil => simpa using (Option.some.inj hr) ▸ hs
  | cons a as ih =>
    obtain ⟨u, hu, hr⟩ := M.run_cons.mp hr
    rw [List.forall_mem_cons] at hP
    have hrest := ih (hstep k s a u hs hP.1 hu) hP.2 hr
    by_cases ha : a = b
    · rw [if_pos ha] at hrest
      rwa [ha, List.count_cons_self, Nat.add_comm _ 1, ← Nat.add_assoc]
    · rw [if_neg ha] at hrest
      rwa [List.count_cons_of_ne ha]

theorem visits_self {s : σ} {as : List α} : M.Visits s as s := ⟨[], List.nil_prefix, rfl⟩

theorem visits_nil {s t : σ} : M.Visits s [] t ↔ t = s := by
  constructor
  · rintro ⟨pre, hp, hr⟩
    rw [List.prefix_nil.mp hp] at hr
    exact (Option.some.inj hr).symm
  · rintro rfl
    exact visits_self

theorem visits_cons {s t : σ} {a : α} {as : List α} :
    M.Visits s (a :: as) t ↔ t = s ∨ ∃ u, M.step s a = some u ∧ M.Visits u as t := by
  constructor
  · rintro ⟨pre, hp, hr⟩
    cases pre with
    | nil => exact .inl (Option.some.inj hr).symm
    | cons b pre =>
      obtain ⟨rfl, hpre⟩ := List.cons_prefix_cons.mp hp
      obtain ⟨u, hu, hr⟩ := M.run_cons.mp hr
      exact .inr ⟨u, hu, pre, hpre, hr⟩
  · rintro (rfl | ⟨u, hu, pre, hp, hr⟩)
    · exact visits_self
    · exact ⟨a :: pre, List.cons_prefix_cons.mpr ⟨rfl, hp⟩, M.run_cons.mpr ⟨u, hu, hr⟩⟩

/-- The rest of a run starts in any state it goes through. -/
theorem Visits.exists_run {s t u : σ} {as : List α} (h : M.Visits s as t)
    (hr : M.run s as = some u) : ∃ bs, M.run t bs = some u := by
  obtain ⟨pre, ⟨bs, rfl⟩, ht⟩ := h
  obtain ⟨v, hv, hr⟩ := M.run_append.mp hr
  obtain rfl := Option.some.inj (ht.symm.trans hv)
  exact ⟨bs, hr⟩

theorem visits_last {s t : σ} {as : List α} (hr : M.run s as = some t) : M.Visits s as t :=
  ⟨as, List.prefix_rfl, hr⟩

theorem Visits.reachable {as : List α} {t : σ} (h : M.Visits M.init as t) : M.Reachable t := by
  obtain ⟨pre, -, hr⟩ := h
  exact ⟨pre, hr⟩

/-- An invariant kept by every step that meets `P` holds throughout a run whose steps do. -/
theorem visits_invariant {I : σ → Prop} {P : σ → α → Prop}
    (hstep : ∀ s a t, I s → P s a → M.step s a = some t → I t) {s t : σ} {as : List α}
    (hs : I s) (hP : M.Along P s as) (ht : M.Visits s as t) : I t := by
  induction as generalizing s with
  | nil =>
    rw [visits_nil.mp ht]
    exact hs
  | cons a as ih =>
    rcases visits_cons.mp ht with rfl | ⟨u, hu, ht⟩
    · exact hs
    · exact ih (hstep s a u hs hP.1 hu) (hP.2 u hu) ht

/-- If a step from a good state keeps the state good exactly when it meets `P`, then a run
stays good throughout exactly when all of its steps meet `P`. -/
theorem visits_iff_along {I Q : σ → Prop} {A P : σ → α → Prop}
    (hI : ∀ s a t, I s → A s a → M.step s a = some t → I t)
    (hQ : ∀ s a t, I s → A s a → Q s → M.step s a = some t → (Q t ↔ P s a))
    {s u : σ} {as : List α} (hs : I s) (hq : Q s) (hA : M.Along A s as)
    (hr : M.run s as = some u) : (∀ t, M.Visits s as t → Q t) ↔ M.Along P s as := by
  induction as generalizing s with
  | nil =>
    refine ⟨fun _ => trivial, fun _ t ht => ?_⟩
    rw [visits_nil.mp ht]
    exact hq
  | cons a as ih =>
    obtain ⟨v, hv, hr⟩ := M.run_cons.mp hr
    have hIv := hI s a v hs hA.1 hv
    have hstep := hQ s a v hs hA.1 hq hv
    constructor
    · intro hall
      have hQv : Q v := hall v (visits_cons.mpr (.inr ⟨v, hv, visits_self⟩))
      refine ⟨hstep.mp hQv, fun t ht => ?_⟩
      obtain rfl := Option.some.inj (hv.symm.trans ht)
      exact (ih hIv hQv (hA.2 v hv) hr).mp
        fun t ht => hall t (visits_cons.mpr (.inr ⟨v, hv, ht⟩))
    · rintro ⟨hPa, hrest⟩ t ht
      rcases visits_cons.mp ht with rfl | ⟨w, hw, ht⟩
      · exact hq
      · obtain rfl := Option.some.inj (hv.symm.trans hw)
        have hQv := hstep.mpr hPa
        exact (ih hIv hQv (hA.2 v hv) hr).mpr (hrest v hv) t ht

end System
end Transition
