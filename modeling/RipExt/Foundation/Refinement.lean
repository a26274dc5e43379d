import Mathlib.Tactic.Common

/-! Machines that answer every call, and refinement between two of them: a call that one machine
answers gets the same answer from the other, and the states stay related. -/
namespace Refinement

/-- `step s a = none` means that the call `a` has no meaning in the state `s`. -/
structure Machine (σ α ο : Type*) where
  init : σ
  step : σ → α → Option (ο × σ)

namespace Machine
variable {σ τ α ο : Type*} (M : Machine σ α ο)

/-- The answers to a sequence of calls, and the state after it. -/
def run : σ → List α → Option (List ο × σ)
  | s, [] => some ([], s)
  | s, a :: as =>
    (M.step s a).bind fun r => (run r.2 as).map fun q => (r.1 :: q.1, q.2)

theorem run_cons {s t : σ} {a : α} {as : List α} {answers : List ο} :
    M.run s (a :: as) = some (answers, t) ↔
      ∃ o u os, M.step s a = some (o, u) ∧ M.run u as = some (os, t) ∧ answers = o :: os := by
  rw [run, Option.bind_eq_some_iff]
  constructor
  · rintro ⟨⟨o, u⟩, hstep, hrest⟩
    obtain ⟨⟨os, v⟩, hrun, heq⟩ := Option.map_eq_some_iff.mp hrest
    cases heq
    exact ⟨o, u, os, hstep, hrun, rfl⟩
  · rintro ⟨o, u, os, hstep, hrun, rfl⟩
    exact ⟨(o, u), hstep, by rw [hrun]; rfl⟩

variable {M}

/-- If every call that `N` answers is answered alike by `M`, so is every sequence of calls. -/
theorem run_refines {N : Machine τ α ο} {R : σ → τ → Prop}
    (hstep : ∀ s t a o t', R s t → N.step t a = some (o, t') →
      ∃ s', M.step s a = some (o, s') ∧ R s' t')
    {s : σ} {t t' : τ} {as : List α} {answers : List ο} (hR : R s t)
    (hrun : N.run t as = some (answers, t')) :
    ∃ s', M.run s as = some (answers, s') ∧ R s' t' := by
  induction as generalizing s t answers with
  | nil =>
    cases hrun
    exact ⟨s, rfl, hR⟩
  | cons a as ih =>
    obtain ⟨o, u, os, hu, hrest, rfl⟩ := N.run_cons.mp hrun
    obtain ⟨v, hv, hR'⟩ := hstep s t a o u hR hu
    obtain ⟨s', hs', hR''⟩ := ih hR' hrest
    exact ⟨s', M.run_cons.mpr ⟨o, v, os, hv, hs', rfl⟩, hR''⟩

end Machine
end Refinement
