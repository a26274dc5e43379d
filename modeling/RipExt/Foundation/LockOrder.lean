import Mathlib.Logic.Relation
import Mathlib.Order.Nat
import Mathlib.Tactic.Common

/-! Freedom from deadlock by a lock order, for any number of threads and mutexes. -/
namespace LockOrder

variable {τ κ : Type*} (wants : τ → Option κ) (owner : κ → Option τ)

/-- `p` cannot go on before `q` releases a mutex. A thread that locks a mutex it already
holds waits for itself. -/
def Waits (p q : τ) : Prop := ∃ m, wants p = some m ∧ owner m = some q

/-- Every mutex a thread holds ranks below the one it wants. -/
def Ordered (rank : κ → ℕ) : Prop :=
  ∀ p m k, wants p = some m → owner k = some p → rank k < rank m

variable {wants owner}

/-- Along a chain of waiting threads the rank of the wanted mutex grows. -/
theorem rank_lt_of_transGen {rank : κ → ℕ} (h : Ordered wants owner rank) {p q : τ}
    (hw : Relation.TransGen (Waits wants owner) p q) {m k : κ} (hp : wants p = some m)
    (hq : wants q = some k) : rank m < rank k := by
  induction hw generalizing k with
  | single hpq =>
    obtain ⟨m', hm', ho⟩ := hpq
    obtain rfl := Option.some.inj (hp.symm.trans hm')
    exact h _ _ _ hq ho
  | tail _ hqr ih =>
    obtain ⟨m', hm', ho⟩ := hqr
    exact (ih hm').trans (h _ _ _ hq ho)

/-- No thread waits for itself, directly or through any chain of other threads. -/
theorem not_transGen_self {rank : κ → ℕ} (h : Ordered wants owner rank) (p : τ) :
    ¬ Relation.TransGen (Waits wants owner) p p := by
  intro hw
  obtain ⟨q, ⟨m, hm, -⟩, -⟩ := Relation.TransGen.head'_iff.mp hw
  exact (rank_lt_of_transGen h hw hm hm).false

end LockOrder
