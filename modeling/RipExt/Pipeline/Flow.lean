import RipExt.Foundation.Transition
import Mathlib.Data.List.Nodup
import Mathlib.Tactic

/-! The pipeline as its users see it: items wait in a queue, are prepared one at a time,
work in a pool, and come back through a second queue in the order the pool reported them.
Threads, locks and resources do not appear; `α` is any type of item. -/
namespace RipExt.Flow

variable {α : Type*} [DecidableEq α]

/-- The lists `taken`, `ready`, `carried`, `popped` and `delivering` are the hands
of the two workers and hold at most one item. -/
structure Places (α : Type*) where
  waiting : List α
  taken : List α
  ready : List α
  active : List α
  unread : List α
  carried : List α
  completed : List α
  popped : List α
  delivering : List α
  destroyed : List α
  added : List α
  initialised : List α
  handed : List α
  reported : List α
  pushed : List α
  completions : List α

inductive Move (α : Type*) where
  | add (a : α)
  | take | initOk | dropTaken | hand
  | report (a : α)
  | remove | push | pop | complete | destroy
  deriving DecidableEq

def empty : Places α := ⟨[], [], [], [], [], [], [], [], [], [], [], [], [], [], [], []⟩

/-- The moves of an item. New items are fresh, and the pool reports an item at most once,
while it is active. -/
def move (p : Places α) : Move α → Option (Places α)
  | .add a =>
    if a ∈ p.added then none
    else some { p with waiting := p.waiting ++ [a], added := p.added ++ [a] }
  | .take =>
    match p.waiting, p.taken with
    | a :: w, [] => some { p with waiting := w, taken := [a] }
    | _, _ => none
  | .initOk =>
    match p.taken, p.ready with
    | [a], [] => some { p with taken := [], ready := [a], initialised := p.initialised ++ [a] }
    | _, _ => none
  | .dropTaken =>
    match p.taken with
    | [a] => some { p with taken := [], destroyed := p.destroyed ++ [a] }
    | _ => none
  | .hand =>
    match p.ready with
    | [a] => some { p with ready := [], active := p.active ++ [a], handed := p.handed ++ [a] }
    | _ => none
  | .report a =>
    if a ∈ p.active ∧ a ∉ p.reported then
      some { p with unread := p.unread ++ [a], reported := p.reported ++ [a] }
    else none
  | .remove =>
    match p.unread, p.carried with
    | a :: u, [] => some { p with unread := u, active := p.active.erase a, carried := [a] }
    | _, _ => none
  | .push =>
    match p.carried with
    | [a] =>
      some { p with carried := [], completed := p.completed ++ [a], pushed := p.pushed ++ [a] }
    | _ => none
  | .pop =>
    match p.completed, p.popped with
    | a :: q, [] => some { p with completed := q, popped := [a] }
    | _, _ => none
  | .complete =>
    match p.popped, p.delivering with
    | [a], [] =>
      some { p with popped := [], delivering := [a], completions := p.completions ++ [a] }
    | _, _ => none
  | .destroy =>
    match p.delivering with
    | [a] => some { p with delivering := [], destroyed := p.destroyed ++ [a] }
    | _ => none

def system (α : Type*) [DecidableEq α] : Transition.System (Places α) (Move α) := ⟨empty, move⟩

/-- How often an item occurs in the places that own items. `unread` is not one of them: the
pool still owns an item it has reported. -/
def Places.occurrences (p : Places α) (a : α) : ℕ :=
  p.waiting.count a + p.taken.count a + p.ready.count a + p.active.count a +
    p.carried.count a + p.completed.count a + p.popped.count a + p.delivering.count a +
    p.destroyed.count a

/-- Conservation, and the two orders: items are handed over in the order they were added and
come back in the order they were reported. -/
structure Conserved (p : Places α) : Prop where
  nodup : p.added.Nodup
  counted : ∀ a, p.occurrences a = p.added.count a
  handedOrder : (p.handed ++ (p.ready ++ (p.taken ++ p.waiting))).Sublist p.added
  initialised : ∀ a ∈ p.handed ++ p.ready, a ∈ p.initialised
  reportedOrder : p.reported = p.pushed ++ (p.carried ++ p.unread)
  pushedOrder : p.pushed = p.completions ++ (p.popped ++ p.completed)
  reportedOnce : p.reported.Nodup
  reportedHanded : ∀ a ∈ p.reported, a ∈ p.handed
  unreadActive : ∀ a ∈ p.unread, a ∈ p.active
  activeHanded : ∀ a ∈ p.active, a ∈ p.handed
  completedGone : ∀ a ∈ p.completions, a ∈ p.delivering ∨ a ∈ p.destroyed

theorem conserved_empty : Conserved (empty : Places α) := by
  constructor <;> simp [empty, Places.occurrences]

theorem add_conserved {p : Places α} {a : α} (hp : Conserved p) (ha : a ∉ p.added) :
    Conserved { p with waiting := p.waiting ++ [a], added := p.added ++ [a] } := by
  refine { hp with nodup := ?_, counted := ?_, handedOrder := ?_ }
  · simpa using List.Nodup.concat ha hp.nodup
  · intro b
    have hb := hp.counted b
    simp only [Places.occurrences, List.count_append] at hb ⊢
    omega
  · simpa using hp.handedOrder.append (List.Sublist.refl [a])

theorem take_conserved {p : Places α} {a : α} {w : List α} (hp : Conserved p)
    (hw : p.waiting = a :: w) (ht : p.taken = []) :
    Conserved { p with waiting := w, taken := [a] } := by
  refine { hp with counted := ?_, handedOrder := ?_ }
  · intro b
    have hb := hp.counted b
    simp only [Places.occurrences, hw, ht, List.count_cons, List.count_nil] at hb ⊢
    omega
  · simpa [hw, ht] using hp.handedOrder

theorem initOk_conserved {p : Places α} {a : α} (hp : Conserved p) (ht : p.taken = [a])
    (hr : p.ready = []) :
    Conserved { p with taken := [], ready := [a], initialised := p.initialised ++ [a] } := by
  refine { hp with counted := ?_, handedOrder := ?_, initialised := ?_ }
  · intro b
    have hb := hp.counted b
    simp only [Places.occurrences, ht, hr, List.count_cons, List.count_nil] at hb ⊢
    omega
  · simpa [ht, hr] using hp.handedOrder
  · intro b hb
    rcases List.mem_append.mp hb with hb | hb
    · exact List.mem_append_left _ (hp.initialised b (List.mem_append_left _ hb))
    · exact List.mem_append_right _ hb

theorem dropTaken_conserved {p : Places α} {a : α} (hp : Conserved p) (ht : p.taken = [a]) :
    Conserved { p with taken := [], destroyed := p.destroyed ++ [a] } := by
  refine { hp with counted := ?_, handedOrder := ?_, completedGone := ?_ }
  · intro b
    have hb := hp.counted b
    simp only [Places.occurrences, ht, List.count_append, List.count_nil] at hb ⊢
    omega
  · refine List.Sublist.trans ?_ hp.handedOrder
    simp [ht]
  · exact fun b hb => (hp.completedGone b hb).imp_right (List.mem_append_left _)

theorem hand_conserved {p : Places α} {a : α} (hp : Conserved p) (hr : p.ready = [a]) :
    Conserved { p with ready := [], active := p.active ++ [a], handed := p.handed ++ [a] } := by
  refine { hp with
    counted := ?_, handedOrder := ?_, initialised := ?_, reportedHanded := ?_,
    unreadActive := ?_, activeHanded := ?_ }
  · intro b
    have hb := hp.counted b
    simp only [Places.occurrences, hr, List.count_append, List.count_nil] at hb ⊢
    omega
  · simpa [hr] using hp.handedOrder
  · simpa [hr] using hp.initialised
  · exact fun b hb => List.mem_append_left _ (hp.reportedHanded b hb)
  · exact fun b hb => List.mem_append_left _ (hp.unreadActive b hb)
  · intro b hb
    rcases List.mem_append.mp hb with hb | hb
    · exact List.mem_append_left _ (hp.activeHanded b hb)
    · exact List.mem_append_right _ hb

theorem report_conserved {p : Places α} {a : α} (hp : Conserved p) (ha : a ∈ p.active)
    (hr : a ∉ p.reported) :
    Conserved { p with unread := p.unread ++ [a], reported := p.reported ++ [a] } := by
  refine { hp with
    reportedOrder := ?_, reportedOnce := ?_, reportedHanded := ?_, unreadActive := ?_ }
  · simp [hp.reportedOrder]
  · simpa using List.Nodup.concat hr hp.reportedOnce
  · intro b hb
    rcases List.mem_append.mp hb with hb | hb
    · exact hp.reportedHanded b hb
    · obtain rfl := List.mem_singleton.mp hb
      exact hp.activeHanded b ha
  · intro b hb
    rcases List.mem_append.mp hb with hb | hb
    · exact hp.unreadActive b hb
    · obtain rfl := List.mem_singleton.mp hb
      exact ha

/-- An item that is still unread stays active when an earlier one is removed, because no
item is reported twice. -/
theorem remove_conserved {p : Places α} {a : α} {u : List α} (hp : Conserved p)
    (hu : p.unread = a :: u) (hc : p.carried = []) :
    Conserved { p with unread := u, active := p.active.erase a, carried := [a] } := by
  have ha : a ∈ p.active := hp.unreadActive a (by simp [hu])
  refine { hp with counted := ?_, reportedOrder := ?_, unreadActive := ?_, activeHanded := ?_ }
  · intro b
    have hb := hp.counted b
    have hpos : 0 < p.active.count a := List.count_pos_iff.mpr ha
    simp only [Places.occurrences, hc, List.count_nil, List.count_erase, List.count_cons] at hb ⊢
    by_cases hab : a = b
    · subst hab
      simp only [beq_self_eq_true, if_true]
      omega
    · simp only [beq_iff_eq, hab, if_false]
      omega
  · simpa [hu, hc] using hp.reportedOrder
  · intro b hb
    have hnd : (a :: u).Nodup := by
      have h := hp.reportedOnce
      rw [hp.reportedOrder, hu, hc] at h
      exact (List.nodup_append.mp h).2.1
    have hne : b ≠ a := by
      rintro rfl
      exact (List.nodup_cons.mp hnd).1 hb
    exact (List.mem_erase_of_ne hne).mpr (hp.unreadActive b (by simp [hu, hb]))
  · exact fun b hb => hp.activeHanded b (List.mem_of_mem_erase hb)

theorem push_conserved {p : Places α} {a : α} (hp : Conserved p) (hc : p.carried = [a]) :
    Conserved { p with
      carried := [], completed := p.completed ++ [a], pushed := p.pushed ++ [a] } := by
  refine { hp with counted := ?_, reportedOrder := ?_, pushedOrder := ?_ }
  · intro b
    have hb := hp.counted b
    simp only [Places.occurrences, hc, List.count_append, List.count_nil] at hb ⊢
    omega
  · simpa [hc] using hp.reportedOrder
  · simp [hp.pushedOrder]

theorem pop_conserved {p : Places α} {a : α} {q : List α} (hp : Conserved p)
    (hq : p.completed = a :: q) (hd : p.popped = []) :
    Conserved { p with completed := q, popped := [a] } := by
  refine { hp with counted := ?_, pushedOrder := ?_ }
  · intro b
    have hb := hp.counted b
    simp only [Places.occurrences, hq, hd, List.count_cons, List.count_nil] at hb ⊢
    omega
  · simpa [hq, hd] using hp.pushedOrder

theorem complete_conserved {p : Places α} {a : α} (hp : Conserved p) (ha : p.popped = [a])
    (hd : p.delivering = []) :
    Conserved { p with
      popped := [], delivering := [a], completions := p.completions ++ [a] } := by
  refine { hp with counted := ?_, pushedOrder := ?_, completedGone := ?_ }
  · intro b
    have hb := hp.counted b
    simp only [Places.occurrences, ha, hd, List.count_nil] at hb ⊢
    omega
  · simpa [ha] using hp.pushedOrder
  · intro b hb
    rcases List.mem_append.mp hb with hb | hb
    · right
      simpa [hd] using hp.completedGone b hb
    · exact .inl hb

theorem destroy_conserved {p : Places α} {a : α} (hp : Conserved p) (hd : p.delivering = [a]) :
    Conserved { p with delivering := [], destroyed := p.destroyed ++ [a] } := by
  refine { hp with counted := ?_, completedGone := ?_ }
  · intro b
    have hb := hp.counted b
    simp only [Places.occurrences, hd, List.count_append, List.count_nil] at hb ⊢
    omega
  · intro b hb
    right
    have hgone := hp.completedGone b hb
    rw [hd] at hgone
    exact List.mem_append.mpr hgone.symm

/-- Every move keeps the invariant. -/
theorem move_conserved {p q : Places α} {m : Move α} (hp : Conserved p)
    (h : move p m = some q) : Conserved q := by
  cases m with
  | add a =>
    simp only [move] at h
    split at h
    next => contradiction
    next ha =>
      cases h
      exact add_conserved hp ha
  | take =>
    simp only [move] at h
    split at h
    next a w hw ht =>
      cases h
      exact take_conserved hp hw ht
    next => contradiction
  | initOk =>
    simp only [move] at h
    split at h
    next a ht hr =>
      cases h
      exact initOk_conserved hp ht hr
    next => contradiction
  | dropTaken =>
    simp only [move] at h
    split at h
    next a ht =>
      cases h
      exact dropTaken_conserved hp ht
    next => contradiction
  | hand =>
    simp only [move] at h
    split at h
    next a hr =>
      cases h
      exact hand_conserved hp hr
    next => contradiction
  | report a =>
    simp only [move] at h
    split at h
    next ha =>
      cases h
      exact report_conserved hp ha.1 ha.2
    next => contradiction
  | remove =>
    simp only [move] at h
    split at h
    next a u hu hc =>
      cases h
      exact remove_conserved hp hu hc
    next => contradiction
  | push =>
    simp only [move] at h
    split at h
    next a hc =>
      cases h
      exact push_conserved hp hc
    next => contradiction
  | pop =>
    simp only [move] at h
    split at h
    next a q hq hd =>
      cases h
      exact pop_conserved hp hq hd
    next => contradiction
  | complete =>
    simp only [move] at h
    split at h
    next a ha hd =>
      cases h
      exact complete_conserved hp ha hd
    next => contradiction
  | destroy =>
    simp only [move] at h
    split at h
    next a hd =>
      cases h
      exact destroy_conserved hp hd
    next => contradiction

theorem reachable_conserved {p : Places α} (h : (system α).Reachable p) : Conserved p :=
  Transition.System.reachable_invariant (I := Conserved) conserved_empty
    (fun _ _ _ hs hm => move_conserved hs hm) h

end RipExt.Flow
