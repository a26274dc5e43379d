import Mathlib.Data.List.Nodup
import Mathlib.Logic.Function.Basic
import Mathlib.Tactic

/-! Circular doubly linked lists. A list is a ring of nodes through a head, and an empty list is
a head that is linked to itself; a node is inserted before another one and unlinked in constant
time. -/
namespace Ring

/-- The `next` and `prev` fields of all nodes. -/
structure Links (α : Type*) where
  next : α → α
  prev : α → α

namespace Links
variable {α : Type*} [DecidableEq α]

def init (l : Links α) (a : α) : Links α :=
  ⟨Function.update l.next a a, Function.update l.prev a a⟩

/-- `node` is linked in before `a`. -/
def insert (l : Links α) (a node : α) : Links α :=
  let next := Function.update l.next node a
  let prev := Function.update l.prev node (l.prev a)
  ⟨Function.update next (prev a) node, Function.update prev a node⟩

def remove (l : Links α) (a : α) : Links α :=
  let next := Function.update l.next (l.prev a) (l.next a)
  ⟨next, Function.update l.prev (next a) (l.prev a)⟩

end Links

section Paths
variable {α : Type*} {l m : Links α} {a b x : α} {xs ys : List α}

/-- `b` comes right after `a`. -/
def Links.Linked (l : Links α) (a b : α) : Prop := l.next a = b ∧ l.prev b = a

/-- From `a` through the nodes in order to `b`. -/
def Links.Path (l : Links α) : α → List α → α → Prop
  | a, [], b => l.Linked a b
  | a, x :: xs, b => l.Linked a x ∧ l.Path x xs b

theorem path_append :
    l.Path a (xs ++ x :: ys) b ↔ l.Path a xs x ∧ l.Path x ys b := by
  induction xs generalizing a with
  | nil => rfl
  | cons c xs ih => simp only [List.cons_append, Links.Path, ih, and_assoc]

/-- The end of a path is known by its last node. -/
theorem Links.Path.prev_eq (h : l.Path a xs b) : l.prev b = xs.getLastD a := by
  induction xs generalizing a with
  | nil => exact h.2
  | cons c xs ih =>
    rw [ih h.2]
    cases xs <;> rfl

theorem Links.Path.next_eq (h : l.Path a xs b) : l.next a = xs.headD b := by
  cases xs with
  | nil => exact h.1
  | cons c xs => exact h.1.1

theorem Links.Path.prev_mem (h : l.Path a xs b) : l.prev b ∈ a :: xs := by
  induction xs generalizing a with
  | nil =>
    rw [h.2]
    exact List.mem_cons_self
  | cons c xs ih => exact List.mem_cons_of_mem a (ih h.2)

/-- A path depends on the links of its own nodes only. -/
theorem Links.Path.congr (h : l.Path a xs b) (hnext : ∀ c ∈ a :: xs, m.next c = l.next c)
    (hprev : ∀ c ∈ xs ++ [b], m.prev c = l.prev c) : m.Path a xs b := by
  induction xs generalizing a with
  | nil =>
    refine ⟨?_, ?_⟩
    · rw [hnext a List.mem_cons_self]
      exact h.1
    · rw [hprev b (by simp)]
      exact h.2
  | cons c xs ih =>
    refine ⟨⟨?_, ?_⟩, ih h.2 ?_ ?_⟩
    · rw [hnext a List.mem_cons_self]
      exact h.1.1
    · rw [hprev c (by simp)]
      exact h.1.2
    · intro d hd
      exact hnext d (List.mem_cons_of_mem a hd)
    · intro d hd
      exact hprev d (List.mem_cons_of_mem c hd)

/-- A path whose last node is linked to another end. -/
theorem Links.Path.retarget {b' : α} (h : l.Path a xs b) (hnodup : (a :: xs).Nodup)
    (hnext : ∀ c ∈ a :: xs, c ≠ l.prev b → m.next c = l.next c)
    (hprev : ∀ c ∈ xs, m.prev c = l.prev c) (hend : m.Linked (l.prev b) b') :
    m.Path a xs b' := by
  induction xs generalizing a with
  | nil =>
    have hb : l.prev b = a := h.2
    rw [hb] at hend
    exact hend
  | cons c xs ih =>
    have hmem := h.2.prev_mem
    obtain ⟨ha, hnodup⟩ := List.nodup_cons.mp hnodup
    have hne : a ≠ l.prev b := fun heq => ha (heq ▸ hmem)
    refine ⟨⟨?_, ?_⟩, ih h.2 hnodup ?_ ?_⟩
    · rw [hnext a List.mem_cons_self hne]
      exact h.1.1
    · rw [hprev c List.mem_cons_self]
      exact h.1.2
    · intro d hd
      exact hnext d (List.mem_cons_of_mem a hd)
    · intro d hd
      exact hprev d (List.mem_cons_of_mem c hd)

/-- Following the links from a node of `xs` leads through the rest of it and to `b`, whatever
leads into it. -/
def Links.Leads (l : Links α) : List α → α → Prop
  | [], _ => True
  | x :: xs, b => l.next x = xs.headD b ∧ l.Leads xs b

theorem Links.Path.leads (h : l.Path a xs b) : l.Leads xs b := by
  induction xs generalizing a with
  | nil => trivial
  | cons c xs ih => exact ⟨h.2.next_eq, ih h.2⟩

theorem Links.Leads.congr (h : l.Leads xs b) (hnext : ∀ c ∈ xs, m.next c = l.next c) :
    m.Leads xs b := by
  induction xs with
  | nil => trivial
  | cons c xs ih =>
    refine ⟨?_, ih h.2 fun d hd => hnext d (List.mem_cons_of_mem c hd)⟩
    rw [hnext c List.mem_cons_self]
    exact h.1

theorem Links.Leads.append (h : l.Leads (xs ++ ys) b) : l.Leads ys b := by
  induction xs with
  | nil => exact h
  | cons c xs ih => exact ih h.2

end Paths

section Rings
variable {α : Type*} {l : Links α} {head node x : α} {xs ys : List α}

/-- The ring through `head` holds the nodes in order. -/
structure Links.Holds (l : Links α) (head : α) (xs : List α) : Prop where
  nodup : (head :: xs).Nodup
  path : l.Path head xs head

theorem Links.Holds.split (h : l.Holds head (xs ++ ys)) :
    (head :: xs).Nodup ∧ ys.Nodup ∧ ∀ c ∈ head :: xs, ∀ d ∈ ys, c ≠ d := by
  have hnodup := h.nodup
  rw [← List.cons_append] at hnodup
  exact List.nodup_append.mp hnodup

theorem Links.Holds.next_head (h : l.Holds head xs) : l.next head = xs.headD head :=
  h.path.next_eq

theorem Links.Holds.next_mid (h : l.Holds head (xs ++ x :: ys)) : l.next x = ys.headD head :=
  (path_append.mp h.path).2.next_eq

theorem Links.Holds.prev_mid (h : l.Holds head (xs ++ x :: ys)) : l.prev x = xs.getLastD head :=
  (path_append.mp h.path).1.prev_eq

theorem Links.Holds.prev_mem {a : α} (h : l.Holds head xs) (ha : a ∈ head :: xs) :
    l.prev a ∈ head :: xs := by
  rcases List.mem_cons.mp ha with rfl | ha
  · exact h.path.prev_mem
  · obtain ⟨ys, zs, rfl⟩ := List.append_of_mem ha
    rw [← List.cons_append]
    exact List.mem_append_left _ (path_append.mp h.path).1.prev_mem

theorem Links.Holds.leads (h : l.Holds head xs) : l.Leads xs head := h.path.leads

variable [DecidableEq α]

theorem holds_init (l : Links α) (head : α) : (l.init head).Holds head [] :=
  ⟨by simp, by simp [Links.init], by simp [Links.init]⟩

/-- A node outside of the ring may be linked to itself. -/
theorem Links.Holds.init_of_notMem (h : l.Holds head xs) (hnode : node ∉ head :: xs) :
    (l.init node).Holds head xs := by
  refine ⟨h.nodup, h.path.congr (fun c hc => ?_) fun c hc => ?_⟩
  · have hne : c ≠ node := fun heq => hnode (heq ▸ hc)
    exact Function.update_of_ne hne _ _
  · refine Function.update_of_ne (fun heq => hnode ?_) _ _
    rw [← heq]
    rcases List.mem_append.mp hc with hc | hc
    · exact List.mem_cons_of_mem head hc
    · rw [List.mem_singleton.mp hc]
      exact List.mem_cons_self

theorem Links.insert_next_of_ne {a : α} (hnode : node ≠ a) {c : α} (hc : c ≠ node)
    (hp : c ≠ l.prev a) : (l.insert a node).next c = l.next c := by
  simp [Links.insert, Function.update_of_ne hnode.symm, hp, hc]

theorem Links.insert_prev_of_ne {a c : α} (hc : c ≠ node) (ha : c ≠ a) :
    (l.insert a node).prev c = l.prev c := by
  simp [Links.insert, hc, ha]

/-- The new node stands between the old neighbour of `a` and `a`. -/
theorem Links.insert_linked {a : α} (hnode : node ≠ a) (hp : node ≠ l.prev a) :
    (l.insert a node).Linked (l.prev a) node ∧ (l.insert a node).Linked node a := by
  refine ⟨⟨?_, ?_⟩, ?_, ?_⟩
  · simp [Links.insert, Function.update_of_ne hnode.symm]
  · simp [Links.insert, Function.update_of_ne hnode]
  · simp [Links.insert, Function.update_of_ne hnode.symm, hp]
  · simp [Links.insert]

/-- Inserting before the first node of `ys`, or before the head if there is none. -/
theorem Links.Holds.insert (h : l.Holds head (xs ++ ys)) (hnode : node ∉ head :: (xs ++ ys)) :
    (l.insert (ys.headD head) node).Holds head (xs ++ node :: ys) := by
  refine ⟨?_, ?_⟩
  · rw [← List.cons_append, List.nodup_middle, List.cons_append]
    exact List.nodup_cons.mpr ⟨hnode, h.nodup⟩
  · obtain ⟨hnodup, hys, hdisj⟩ := h.split
    have hhead : node ≠ head := fun heq => hnode (heq ▸ List.mem_cons_self)
    have hxs : ∀ c ∈ head :: xs, c ≠ node := by
      intro c hc heq
      apply hnode
      rw [← heq, ← List.cons_append]
      exact List.mem_append_left ys hc
    rw [path_append]
    cases ys with
    | nil =>
      rw [List.append_nil] at h
      show (l.insert head node).Path head xs node ∧ (l.insert head node).Linked node head
      have hlinked := l.insert_linked hhead (hxs _ h.path.prev_mem).symm
      refine ⟨h.path.retarget hnodup ?_ ?_ hlinked.1, hlinked.2⟩
      · exact fun c hc hp => Links.insert_next_of_ne hhead (hxs c hc) hp
      · intro c hc
        have hne : c ≠ head := fun heq => (List.nodup_cons.mp hnodup).1 (heq ▸ hc)
        exact Links.insert_prev_of_ne (hxs c (List.mem_cons_of_mem head hc)) hne
    | cons y ys =>
      obtain ⟨hpre, hpost⟩ := path_append.mp h.path
      have hy : node ≠ y := fun heq => hnode (by simp [heq])
      have hlinked := l.insert_linked hy (hxs _ hpre.prev_mem).symm
      show (l.insert y node).Path head xs node ∧ (l.insert y node).Linked node y ∧
        (l.insert y node).Path y ys head
      refine ⟨hpre.retarget hnodup ?_ ?_ hlinked.1, hlinked.2, hpost.congr ?_ ?_⟩
      · exact fun c hc hp => Links.insert_next_of_ne hy (hxs c hc) hp
      · intro c hc
        have hne : c ≠ y := hdisj c (List.mem_cons_of_mem head hc) y List.mem_cons_self
        exact Links.insert_prev_of_ne (hxs c (List.mem_cons_of_mem head hc)) hne
      · intro c hc
        have hcn : c ≠ node := fun heq => hnode (by
          rw [← heq, ← List.cons_append]
          exact List.mem_append_right _ hc)
        exact Links.insert_next_of_ne hy hcn (hdisj _ hpre.prev_mem c hc).symm
      · intro c hc
        rcases List.mem_append.mp hc with hc | hc
        · have hcn : c ≠ node := fun heq => hnode (by simp [← heq, hc])
          have hcy : c ≠ y := fun heq => (List.nodup_cons.mp hys).1 (heq ▸ hc)
          exact Links.insert_prev_of_ne hcn hcy
        · rw [List.mem_singleton.mp hc]
          exact Links.insert_prev_of_ne hhead.symm
            (hdisj head List.mem_cons_self y List.mem_cons_self)

/-- What an insertion does not touch on the way forward. -/
theorem Links.Leads.insert {a b : α} {zs : List α} (h : l.Leads zs b) (hnode : node ≠ a)
    (hzs : node ∉ zs) (hp : l.prev a ∉ zs) : (l.insert a node).Leads zs b :=
  h.congr fun _ hc => Links.insert_next_of_ne hnode (fun heq => hzs (heq ▸ hc))
    fun heq => hp (heq ▸ hc)

theorem Links.Holds.remove (h : l.Holds head (xs ++ x :: ys)) :
    (l.remove x).Holds head (xs ++ ys) := by
  have hsub : (head :: (xs ++ ys)).Sublist (head :: (xs ++ x :: ys)) :=
    ((List.sublist_cons_self x ys).append_left xs).cons_cons head
  obtain ⟨hpre, hpost⟩ := path_append.mp h.path
  obtain ⟨hnodup, hys, hdisj⟩ := h.split
  have hx : ∀ c ∈ head :: xs, c ≠ x := fun c hc => hdisj c hc x List.mem_cons_self
  have hself : Function.update l.next (l.prev x) (l.next x) x = l.next x :=
    Function.update_of_ne (hx _ hpre.prev_mem).symm _ _
  have hnext : ∀ c, c ≠ l.prev x → (l.remove x).next c = l.next c := fun c hc =>
    Function.update_of_ne hc _ _
  have hprev : ∀ c, c ≠ l.next x → (l.remove x).prev c = l.prev c := by
    intro c hc
    show Function.update l.prev (Function.update l.next (l.prev x) (l.next x) x) (l.prev x) c = _
    rw [hself]
    exact Function.update_of_ne hc _ _
  have hlinked : (l.remove x).Linked (l.prev x) (l.next x) := by
    refine ⟨Function.update_self _ _ _, ?_⟩
    show Function.update l.prev (Function.update l.next (l.prev x) (l.next x) x) (l.prev x)
      (l.next x) = _
    rw [hself]
    exact Function.update_self _ _ _
  refine ⟨h.nodup.sublist hsub, ?_⟩
  cases ys with
  | nil =>
    have hn : l.next x = head := hpost.1
    rw [List.append_nil]
    refine hpre.retarget hnodup (fun c _ => hnext c) (fun c hc => hprev c ?_) (hn ▸ hlinked)
    rw [hn]
    exact fun heq => (List.nodup_cons.mp hnodup).1 (heq ▸ hc)
  | cons y ys =>
    have hn : l.next x = y := hpost.1.1
    have hy : y ∉ ys := (List.nodup_cons.mp (List.nodup_cons.mp hys).2).1
    rw [path_append]
    refine ⟨hpre.retarget hnodup (fun c _ => hnext c) (fun c hc => hprev c ?_) (hn ▸ hlinked),
      hpost.2.congr (fun c hc => hnext c ?_) fun c hc => hprev c ?_⟩
    · rw [hn]
      exact hdisj c (List.mem_cons_of_mem head hc) y (by simp)
    · exact (hdisj _ hpre.prev_mem c (List.mem_cons_of_mem x hc)).symm
    · rw [hn]
      rcases List.mem_append.mp hc with hc | hc
      · exact fun heq => hy (heq ▸ hc)
      · rw [List.mem_singleton.mp hc]
        exact hdisj head List.mem_cons_self y (by simp)

end Rings

end Ring
