import Mathlib.Data.List.Infix
import Mathlib.Tactic.Common

/-! Reading a list that grows at its end, one element at a time. A reader learns of a new element
only while there is still something it has not read. -/
namespace Enumeration
variable {α : Type*}

inductive Event (α : Type*) where
  | insert (a : α)
  | read
  deriving DecidableEq

/-- The elements that the reader will get, and how often it has read. -/
structure Progress (α : Type*) where
  known : List α
  reads : ℕ

namespace Progress
variable (p : Progress α)

def next : Event α → Progress α
  | .insert a => if p.reads < p.known.length then { p with known := p.known ++ [a] } else p
  | .read => { p with reads := p.reads + 1 }

def run (es : List (Event α)) : Progress α := es.foldl next p

/-- What the next read gives. -/
def answer : Option α := p.known[p.reads]?

/-- The answers to all reads. -/
def answers : Progress α → List (Event α) → List (Option α)
  | _, [] => []
  | p, .insert a :: es => answers (p.next (.insert a)) es
  | p, .read :: es => p.answer :: answers (p.next .read) es

variable {p}

theorem run_cons (e : Event α) (es : List (Event α)) : p.run (e :: es) = (p.next e).run es := rfl

theorem run_append (es fs : List (Event α)) : p.run (es ++ fs) = (p.run es).run fs :=
  List.foldl_append

theorem answers_append (es fs : List (Event α)) :
    p.answers (es ++ fs) = p.answers es ++ (p.run es).answers fs := by
  induction es generalizing p with
  | nil => rfl
  | cons e es ih =>
    cases e with
    | insert a => exact ih
    | read =>
      rw [List.cons_append, answers, answers, ih, List.cons_append, run_cons]

theorem prefix_next (e : Event α) : p.known <+: (p.next e).known := by
  cases e with
  | insert a =>
    unfold next
    split_ifs
    · exact List.prefix_append _ _
    · exact List.prefix_rfl
  | read => exact List.prefix_rfl

theorem prefix_run (es : List (Event α)) : p.known <+: (p.run es).known := by
  induction es generalizing p with
  | nil => exact List.prefix_rfl
  | cons e es ih => exact (prefix_next e).trans ih

/-- A reader that has read everything learns nothing more. -/
theorem run_exhausted (es : List (Event α)) (h : p.known.length ≤ p.reads) :
    (p.run es).known = p.known := by
  induction es generalizing p with
  | nil => rfl
  | cons e es ih =>
    rw [run_cons]
    cases e with
    | insert a =>
      have hsame : p.next (.insert a) = p := if_neg (Nat.not_lt.mpr h)
      rw [hsame, ih h]
    | read =>
      have hread : (p.next .read).known.length ≤ (p.next .read).reads := Nat.le_succ_of_le h
      exact ih hread

/-- What is read does not depend on what is inserted later. -/
theorem answer_run (es : List (Event α)) : p.answer = (p.run es).known[p.reads]? := by
  unfold answer
  by_cases h : p.reads < p.known.length
  · obtain ⟨rest, hrest⟩ := prefix_run (p := p) es
    rw [← hrest, List.getElem?_append_left h]
  · rw [run_exhausted es (Nat.not_lt.mp h)]

/-- The reads give the known elements in their order, each of them once, and nothing more. -/
theorem answers_eq (es : List (Event α)) : p.answers es =
    (List.range (p.answers es).length).map fun i => (p.run es).known[p.reads + i]? := by
  induction es generalizing p with
  | nil => rfl
  | cons e es ih =>
    cases e with
    | insert a =>
      have hreads : (p.next (.insert a)).reads = p.reads := by
        unfold next
        split_ifs <;> rfl
      have hrest := ih (p := p.next (.insert a))
      rw [hreads] at hrest
      exact hrest
    | read =>
      rw [answers, List.length_cons, List.range_succ_eq_map, List.map_cons, List.map_map, run_cons]
      have hfirst : p.answer = ((p.next .read).run es).known[p.reads + 0]? :=
        answer_run (.read :: es)
      rw [← hfirst]
      refine congrArg _ (ih.trans (List.map_congr_left fun i _ => ?_))
      have hnext : (p.next .read).reads + i = p.reads + (i + 1) := by
        show p.reads + 1 + i = p.reads + (i + 1)
        omega
      rw [hnext]
      rfl

theorem run_of_no_insert {es : List (Event α)} (h : ∀ a, .insert a ∉ es) :
    (p.run es).known = p.known := by
  induction es generalizing p with
  | nil => rfl
  | cons e es ih =>
    cases e with
    | insert a => exact absurd (List.mem_cons_self ..) (h a)
    | read => exact ih (p := p.next .read) fun a ha => h a (List.mem_cons_of_mem _ ha)

end Progress

end Enumeration
