import RipExt.Foundation.Refinement

/-! Machines whose state is their own history: an answer depends on the calls so far and on what
they were answered. A machine that keeps any other state is described by such a one. -/
namespace Refinement

section LastValue
variable {α β : Type*} (f : α → Option β)

/-- The last value that `f` finds in a list. -/
def lastOf (xs : List α) : Option β := (xs.filterMap f).getLast?

@[simp] theorem lastOf_concat (xs : List α) (x : α) : lastOf f (xs ++ [x]) = (f x).or (lastOf f xs) := by
  unfold lastOf
  rw [List.filterMap_append, List.getLast?_append]
  cases h : f x with
  | none => simp [h]
  | some y => simp [h]

end LastValue

namespace Machine
variable {σ α ο : Type*}

/-- The answers to a sequence of calls, if all of them have one. -/
def answers (M : Machine σ α ο) (s : σ) (as : List α) : Option (List ο) := (M.run s as).map (·.1)

theorem answers_cons (M : Machine σ α ο) (s : σ) (a : α) (as : List α) :
    M.answers s (a :: as) = (M.step s a).bind fun r => (M.answers r.2 as).map (r.1 :: ·) := by
  unfold answers
  rw [run, Option.map_bind]
  congr 1
  funext r
  show Option.map _ (Option.map _ _) = Option.map _ (Option.map _ _)
  rw [Option.map_map, Option.map_map]
  rfl

/-- The machine that answers a call from the history alone. -/
def ofHistory (answer : List (α × ο) → α → Option ο) : Machine (List (α × ο)) α ο where
  init := []
  step h a := (answer h a).map fun o => (o, h ++ [(a, o)])

/-- A relation of states to histories under which the answers are the same, and which every step
keeps. -/
structure Recorded (N : Machine σ α ο) (answer : List (α × ο) → α → Option ο)
    (R : σ → List (α × ο) → Prop) : Prop where
  answers : ∀ s h a, R s h → (N.step s a).map (·.1) = answer h a
  keeps : ∀ s h a o s', R s h → N.step s a = some (o, s') → R s' (h ++ [(a, o)])

variable {N : Machine σ α ο} {answer : List (α × ο) → α → Option ο} {R : σ → List (α × ο) → Prop}

/-- From related states both machines have the same answers, or both have none. -/
theorem Recorded.answers_eq (hN : N.Recorded answer R) {s : σ} {h : List (α × ο)} (hR : R s h)
    (as : List α) : N.answers s as = (ofHistory answer).answers h as := by
  induction as generalizing s h with
  | nil => rfl
  | cons a as ih =>
    have hsame := hN.answers s h a hR
    rw [answers_cons, answers_cons]
    cases hstep : N.step s a with
    | none =>
      rw [hstep] at hsame
      simp [ofHistory, ← hsame]
    | some r =>
      have hrest := ih (hN.keeps s h a r.1 r.2 hR hstep)
      rw [hstep] at hsame
      show (N.answers r.2 as).map (r.1 :: ·) = ((answer h a).map _).bind _
      rw [← hsame, hrest]
      rfl

end Machine
end Refinement
