import Mathlib.Data.List.Basic
import Mathlib.Logic.Function.Basic
import Mathlib.Tactic

/-! The heap of a C program as `realloc` and `free` see it: blocks of bytes at addresses. What the
allocator is free to choose is part of the input. Access outside of a block, and `realloc` or `free`
of a pointer without one, have no result. -/
namespace Allocator

abbrev Block := List UInt8

abbrev Heap := ℕ → Option Block

/-- No object has this many bytes. -/
def objectLimit : ℕ := 2 ^ 63

/-- Where `realloc` puts the block, and what stands in the part that is new. -/
structure Answer where
  address : ℕ
  filler : Block
  deriving DecidableEq, Repr

section Operations

/-- The old bytes as far as they fit, and the filler after them. -/
def resized (old : Block) (n : ℕ) (filler : Block) : Block :=
  (old ++ filler ++ List.replicate n 0).take n

/-- The block that a pointer which may be null points to. -/
def block (heap : Heap) : Option ℕ → Option Block
  | none => some []
  | some p => heap p

/-- The heap without the block of a pointer. -/
def without (heap : Heap) : Option ℕ → Heap
  | none => heap
  | some p => Function.update heap p none

/-- `realloc(p, n)`. It fails if it is not answered, or if the answer is not a possible one: the
address is not free, or there is no object of this size. -/
def realloc (heap : Heap) (p : Option ℕ) (n : ℕ) (answer : Option Answer) :
    Option (Option ℕ × Heap) :=
  (block heap p).map fun old =>
    match answer with
    | none => (none, heap)
    | some a =>
      if a.address ≠ 0 ∧ n < objectLimit ∧ without heap p a.address = none then
        (some a.address, Function.update (without heap p) a.address (some (resized old n a.filler)))
      else (none, heap)

/-- `free(p)`. -/
def free (heap : Heap) (p : Option ℕ) : Option Heap := (block heap p).map fun _ => without heap p

/-- The bytes from `offset` on are overwritten. -/
def splice (old : Block) (offset : ℕ) (bytes : Block) : Block :=
  old.take offset ++ bytes ++ old.drop (offset + bytes.length)

/-- `memcpy(&p[offset], bytes, ..)`. -/
def write (heap : Heap) (p offset : ℕ) (bytes : Block) : Option Heap :=
  (heap p).bind fun old =>
    if offset + bytes.length ≤ old.length then
      some (Function.update heap p (some (splice old offset bytes)))
    else none

end Operations

section Ownership
variable {base heap : Heap} {p : Option ℕ} {q offset n : ℕ} {content bytes : Block}

theorem resized_length (old : Block) (n : ℕ) (filler : Block) : (resized old n filler).length = n := by
  rw [resized, List.length_take, List.length_append, List.length_replicate]
  omega

theorem resized_take {k : ℕ} (hk : k ≤ content.length) (hn : k ≤ n) (filler : Block) :
    (resized content n filler).take k = content.take k := by
  rw [resized, List.take_take, min_eq_left hn, List.append_assoc, List.take_append_of_le_length hk]

theorem splice_length (h : offset + bytes.length ≤ content.length) :
    (splice content offset bytes).length = content.length := by
  simp only [splice, List.length_append, List.length_take, List.length_drop]
  omega

/-- A write that reaches the end of the block leaves nothing of the old bytes after it. -/
theorem splice_to_end (h : content.length = offset + bytes.length) :
    splice content offset bytes = content.take offset ++ bytes := by
  rw [splice, List.drop_eq_nil_of_le h.le, List.append_nil]

theorem splice_take (h : offset ≤ content.length) :
    (splice content offset bytes).take (offset + bytes.length) = content.take offset ++ bytes := by
  have hlength : (content.take offset ++ bytes).length = offset + bytes.length := by
    rw [List.length_append, List.length_take, min_eq_left h]
  rw [splice, ← hlength, List.take_left]

/-- The heap is `base` with one more block, the one that the pointer owns; a null pointer owns
none. -/
def Owns (base : Heap) (p : Option ℕ) (content : Block) (heap : Heap) : Prop :=
  match p with
  | none => heap = base ∧ content = []
  | some q => base q = none ∧ heap = Function.update base q (some content)

theorem Owns.block_eq (h : Owns base p content heap) : block heap p = some content := by
  cases p with
  | none =>
    obtain ⟨-, rfl⟩ := h
    rfl
  | some q =>
    obtain ⟨-, rfl⟩ := h
    exact Function.update_self ..

theorem Owns.without_eq (h : Owns base p content heap) : without heap p = base := by
  cases p with
  | none => exact h.1
  | some q =>
    obtain ⟨hfree, rfl⟩ := h
    show Function.update (Function.update base q (some content)) q none = base
    rw [Function.update_idem, ← hfree, Function.update_eq_self]

/-- The pointer is resized in place or moved, and owns the one block again; or nothing happens. -/
theorem Owns.realloc (h : Owns base p content heap) (n : ℕ) (answer : Option Answer) :
    Allocator.realloc heap p n answer = some (none, heap) ∨
      ∃ a heap', answer = some a ∧ n < objectLimit ∧
        Allocator.realloc heap p n answer = some (some a.address, heap') ∧
        Owns base (some a.address) (resized content n a.filler) heap' := by
  unfold Allocator.realloc
  rw [h.block_eq, h.without_eq]
  cases answer with
  | none => exact .inl rfl
  | some a =>
    by_cases hpossible : a.address ≠ 0 ∧ n < objectLimit ∧ base a.address = none
    · refine .inr ⟨a, _, rfl, hpossible.2.1, ?_, hpossible.2.2, rfl⟩
      simp [hpossible]
    · left
      simp only [Option.map_some, if_neg hpossible]

theorem Owns.write (h : Owns base (some q) content heap)
    (hfits : offset + bytes.length ≤ content.length) :
    ∃ heap', Allocator.write heap q offset bytes = some heap' ∧
      Owns base (some q) (splice content offset bytes) heap' := by
  obtain ⟨hfree, rfl⟩ := h
  refine ⟨_, ?_, hfree, rfl⟩
  rw [Allocator.write, Function.update_self, Option.bind_some, if_pos hfits, Function.update_idem]

theorem Owns.free (h : Owns base p content heap) : Allocator.free heap p = some base := by
  rw [Allocator.free, h.block_eq, Option.map_some, h.without_eq]

end Ownership

end Allocator
