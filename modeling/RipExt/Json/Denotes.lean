import RipExt.Json.Accept
import RipExt.Json.Numerals

/-! The value of a document in the store: the tree that it unfolds to. A document that contains
itself has none. The parser builds from a tree a document whose value is that tree. -/
namespace RipExt.Json
open RefCount

section Trees

mutual

/-- The tree is the value of `json`, up to the mantissas of its real numbers. -/
def Denotes (s : Store) : Text → Ref → Prop
  | .string v, json => Store.read s json = some (some (.string v))
  | .integer v, json => Store.read s json = some (some (.integer v))
  | .real y, json => ∃ x, Store.read s json = some (some (.real x)) ∧ x.Same y
  | .true, json => json = .true
  | .false, json => json = .false
  | .null, json => json = .null
  | .object ms, json =>
    ∃ es, Store.read s json = some (some (.object es)) ∧ DenotesMembers s ms es
  | .array is, json => ∃ t, Store.read s json = some (some (.array t)) ∧ DenotesItems s is t
  | .invalid, _ => False

def DenotesMembers (s : Store) : Members → List Entry → Prop
  | .closed, es => es = []
  | .broken, _ => False
  | .member key value rest, es =>
    ∃ e es', es = e :: es' ∧ e.key = key ∧ Denotes s value e.value ∧ DenotesMembers s rest es'

def DenotesItems (s : Store) : Items → List Ref → Prop
  | .closed, t => t = []
  | .broken, _ => False
  | .item value rest, t => ∃ v t', t = v :: t' ∧ Denotes s value v ∧ DenotesItems s rest t'

end

mutual

/-- How deeply a text is nested; a value in no container has the depth 1. -/
def Text.depth : Text → ℕ
  | .object ms => ms.depth + 1
  | .array is => is.depth + 1
  | .invalid => 0
  | .string _ | .integer _ | .real _ | .true | .false | .null => 1

def Members.depth : Members → ℕ
  | .closed | .broken => 0
  | .member _ value rest => max value.depth rest.depth

def Items.depth : Items → ℕ
  | .closed | .broken => 0
  | .item value rest => max value.depth rest.depth

end

def Members.keys : Members → List Bytes
  | .closed | .broken => []
  | .member key _ rest => key :: rest.keys

mutual

/-- No object has a key twice. -/
def Text.Distinct : Text → Prop
  | .object ms => ms.Distinct
  | .array is => is.Distinct
  | _ => True

def Members.Distinct : Members → Prop
  | .closed | .broken => True
  | .member key value rest => key ∉ rest.keys ∧ value.Distinct ∧ rest.Distinct

def Items.Distinct : Items → Prop
  | .closed | .broken => True
  | .item value rest => value.Distinct ∧ rest.Distinct

end

/-- Following the slots of containers from `json` leads to nothing beyond the depth. A document
that contains itself is within none. -/
def nestedWithin (s : Store) : ℕ → Ref → Bool
  | 0, _ => false
  | depth + 1, json =>
    match Store.read s json with
    | none => false
    | some (some (.array t)) => t.all (nestedWithin s depth)
    | some (some (.object es)) => es.all fun e => nestedWithin s depth e.value
    | some _ => true

end Trees

section Facts
variable {s s' : Store}

theorem Denotes.depth_pos {t : Text} {json : Ref} (h : Denotes s t json) : 1 ≤ t.depth := by
  cases t with
  | invalid => exact h.elim
  | object ms => exact Nat.le_add_left 1 _
  | array is => exact Nat.le_add_left 1 _
  | _ => exact le_rfl

mutual

theorem Denotes.nested {t : Text} {json : Ref} {depth : ℕ} (h : Denotes s t json)
    (hdepth : t.depth ≤ depth) : nestedWithin s depth json = true := by
  obtain ⟨depth, rfl⟩ := Nat.exists_eq_add_of_le' (h.depth_pos.trans hdepth)
  rw [nestedWithin]
  cases t with
  | object ms =>
    obtain ⟨es, hread, hms⟩ := h
    rw [hread]
    exact List.all_eq_true.mpr (DenotesMembers.nested hms (Nat.le_of_succ_le_succ hdepth))
  | array is =>
    obtain ⟨table, hread, his⟩ := h
    rw [hread]
    exact List.all_eq_true.mpr (DenotesItems.nested his (Nat.le_of_succ_le_succ hdepth))
  | string v =>
    have hread : Store.read s json = some (some (.string v)) := h
    rw [hread]
  | integer v =>
    have hread : Store.read s json = some (some (.integer v)) := h
    rw [hread]
  | real y =>
    obtain ⟨x, hread, -⟩ := h
    rw [hread]
  | true =>
    obtain rfl : json = .true := h
    rfl
  | false =>
    obtain rfl : json = .false := h
    rfl
  | null =>
    obtain rfl : json = .null := h
    rfl
  | invalid => exact h.elim

theorem DenotesMembers.nested {ms : Members} {es : List Entry} {depth : ℕ}
    (h : DenotesMembers s ms es) (hdepth : ms.depth ≤ depth) :
    ∀ e ∈ es, nestedWithin s depth e.value = true := by
  cases ms with
  | closed =>
    obtain rfl : es = [] := h
    simp
  | broken => exact h.elim
  | member key value rest =>
    obtain ⟨e, es', rfl, -, hvalue, hrest⟩ := h
    rw [Members.depth] at hdepth
    intro x hx
    rcases List.mem_cons.mp hx with rfl | hx
    · exact Denotes.nested hvalue (by omega)
    · exact DenotesMembers.nested hrest (by omega) x hx

theorem DenotesItems.nested {is : Items} {table : List Ref} {depth : ℕ}
    (h : DenotesItems s is table) (hdepth : is.depth ≤ depth) :
    ∀ v ∈ table, nestedWithin s depth v = true := by
  cases is with
  | closed =>
    obtain rfl : table = [] := h
    simp
  | broken => exact h.elim
  | item value rest =>
    obtain ⟨v, t', rfl, hvalue, hrest⟩ := h
    rw [Items.depth] at hdepth
    intro x hx
    rcases List.mem_cons.mp hx with rfl | hx
    · exact Denotes.nested hvalue (by omega)
    · exact DenotesItems.nested hrest (by omega) x hx

end

theorem nestedWithin_mono {depth depth' : ℕ} {json : Ref} (hle : depth ≤ depth')
    (h : nestedWithin s depth json = true) : nestedWithin s depth' json = true := by
  induction depth generalizing depth' json with
  | zero => cases h
  | succ depth ih =>
    obtain ⟨depth', rfl⟩ := Nat.exists_eq_add_of_le' (Nat.le_of_add_left_le hle)
    rw [nestedWithin] at h ⊢
    split at h
    · cases h
    · next t hread =>
      rw [List.all_eq_true] at h ⊢
      exact fun v hv => ih (by omega) (h v hv)
    · next es hread =>
      rw [List.all_eq_true] at h ⊢
      exact fun e he => ih (by omega) (h e he)
    · rfl

mutual

/-- What is read in one store and in the other gives the same value. -/
theorem Denotes.mono (hsub : ∀ json p, Store.read s json = some p → Store.read s' json = some p)
    {t : Text} {json : Ref} (h : Denotes s t json) : Denotes s' t json := by
  cases t with
  | object ms =>
    obtain ⟨es, hread, hms⟩ := h
    exact ⟨es, hsub _ _ hread, DenotesMembers.mono hsub hms⟩
  | array is =>
    obtain ⟨table, hread, his⟩ := h
    exact ⟨table, hsub _ _ hread, DenotesItems.mono hsub his⟩
  | string v => exact hsub _ _ h
  | integer v => exact hsub _ _ h
  | real y =>
    obtain ⟨x, hread, hsame⟩ := h
    exact ⟨x, hsub _ _ hread, hsame⟩
  | true => exact h
  | false => exact h
  | null => exact h
  | invalid => exact h.elim

theorem DenotesMembers.mono
    (hsub : ∀ json p, Store.read s json = some p → Store.read s' json = some p)
    {ms : Members} {es : List Entry} (h : DenotesMembers s ms es) : DenotesMembers s' ms es := by
  cases ms with
  | closed => exact h
  | broken => exact h.elim
  | member key value rest =>
    obtain ⟨e, es', heq, hkey, hvalue, hrest⟩ := h
    exact ⟨e, es', heq, hkey, Denotes.mono hsub hvalue, DenotesMembers.mono hsub hrest⟩

theorem DenotesItems.mono
    (hsub : ∀ json p, Store.read s json = some p → Store.read s' json = some p)
    {is : Items} {table : List Ref} (h : DenotesItems s is table) : DenotesItems s' is table := by
  cases is with
  | closed => exact h
  | broken => exact h.elim
  | item value rest =>
    obtain ⟨v, t', heq, hvalue, hrest⟩ := h
    exact ⟨v, t', heq, Denotes.mono hsub hvalue, DenotesItems.mono hsub hrest⟩

end

mutual

theorem Denotes.complete {t : Text} {json : Ref} (h : Denotes s t json) : t.complete = true := by
  cases t with
  | object ms =>
    obtain ⟨es, -, hms⟩ := h
    exact DenotesMembers.complete hms
  | array is =>
    obtain ⟨table, -, his⟩ := h
    exact DenotesItems.complete his
  | invalid => exact h.elim
  | _ => rfl

theorem DenotesMembers.complete {ms : Members} {es : List Entry} (h : DenotesMembers s ms es) :
    ms.complete = true := by
  cases ms with
  | closed => rfl
  | broken => exact h.elim
  | member key value rest =>
    obtain ⟨e, es', -, -, hvalue, hrest⟩ := h
    rw [Members.complete, Denotes.complete hvalue, DenotesMembers.complete hrest]
    rfl

theorem DenotesItems.complete {is : Items} {table : List Ref} (h : DenotesItems s is table) :
    is.complete = true := by
  cases is with
  | closed => rfl
  | broken => exact h.elim
  | item value rest =>
    obtain ⟨v, t', -, hvalue, hrest⟩ := h
    rw [Items.complete, Denotes.complete hvalue, DenotesItems.complete hrest]
    rfl

end

theorem DenotesMembers.keys {ms : Members} {es : List Entry} (h : DenotesMembers s ms es) :
    ms.keys = es.map (·.key) := by
  induction es generalizing ms with
  | nil =>
    cases ms with
    | closed => rfl
    | broken => exact h.elim
    | member key value rest =>
      obtain ⟨e, es', heq, -⟩ := h
      cases heq
  | cons e es ih =>
    cases ms with
    | closed => cases h
    | broken => exact h.elim
    | member key value rest =>
      obtain ⟨e', es', heq, hkey, -, hrest⟩ := h
      cases heq
      rw [Members.keys, List.map_cons, hkey, ih hrest]

/-- The keys of every object in the store are distinct. -/
def KeysDistinct (s : Store) : Prop :=
  ∀ json es, Store.read s json = some (some (.object es)) → (es.map (·.key)).Nodup

mutual

theorem Denotes.distinct (hs : KeysDistinct s) {t : Text} {json : Ref} (h : Denotes s t json) :
    t.Distinct := by
  cases t with
  | object ms =>
    obtain ⟨es, hread, hms⟩ := h
    exact DenotesMembers.distinct hs hms (hs json es hread)
  | array is =>
    obtain ⟨table, -, his⟩ := h
    exact DenotesItems.distinct hs his
  | _ => trivial

theorem DenotesMembers.distinct (hs : KeysDistinct s) {ms : Members} {es : List Entry}
    (h : DenotesMembers s ms es) (hkeys : (es.map (·.key)).Nodup) : ms.Distinct := by
  cases ms with
  | closed => trivial
  | broken => trivial
  | member key value rest =>
    obtain ⟨e, es', rfl, rfl, hvalue, hrest⟩ := h
    obtain ⟨hkey, hkeys⟩ := List.nodup_cons.mp hkeys
    refine ⟨?_, Denotes.distinct hs hvalue, DenotesMembers.distinct hs hrest hkeys⟩
    rw [hrest.keys]
    exact hkey

theorem DenotesItems.distinct (hs : KeysDistinct s) {is : Items} {table : List Ref}
    (h : DenotesItems s is table) : is.Distinct := by
  cases is with
  | closed => trivial
  | broken => trivial
  | item value rest =>
    obtain ⟨v, t', -, hvalue, hrest⟩ := h
    exact ⟨Denotes.distinct hs hvalue, DenotesItems.distinct hs hrest⟩

end

end Facts

section Scanned
variable {strtod : Bytes → Option Double} {flags : LoadFlags}
  {value : Token × Bytes → Text × Option Bytes} {depth : ℕ}

theorem scanItems_depth (hv : ∀ cur, (value cur).1.depth ≤ depth) (fuel : ℕ)
    (cur : Token × Bytes) : (scanItems strtod flags value fuel cur).1.depth ≤ depth := by
  induction fuel generalizing cur with
  | zero => exact Nat.zero_le _
  | succ fuel ih =>
    have hitem := hv cur
    rw [scanItems]
    split_ifs
    · exact Nat.zero_le _
    · cases hvalue : value cur with
      | mk item rest =>
        rw [hvalue] at hitem
        cases rest with
        | none => exact max_le hitem (Nat.zero_le _)
        | some rest =>
          dsimp only
          split_ifs
          · exact max_le hitem (ih _)
          · exact max_le hitem (Nat.zero_le _)
          · exact max_le hitem (Nat.zero_le _)

theorem scanMembers_depth (hv : ∀ cur, (value cur).1.depth ≤ depth) (fuel : ℕ) (keys : List Bytes)
    (cur : Token × Bytes) : (scanMembers strtod flags value fuel keys cur).1.depth ≤ depth := by
  induction fuel generalizing keys cur with
  | zero => exact Nat.zero_le _
  | succ fuel ih =>
    obtain ⟨tok, r⟩ := cur
    cases tok with
    | string key =>
      have hmember := hv (lexScan strtod flags (lexScan strtod flags r).2)
      simp only [scanMembers]
      split_ifs
      · exact Nat.zero_le _
      · exact Nat.zero_le _
      · cases hvalue : value (lexScan strtod flags (lexScan strtod flags r).2) with
        | mk member rest =>
          rw [hvalue] at hmember
          cases rest with
          | none => exact max_le hmember (Nat.zero_le _)
          | some rest =>
            dsimp only
            split_ifs
            · exact max_le hmember (ih _ _)
            · exact max_le hmember (Nat.zero_le _)
            · exact max_le hmember (Nat.zero_le _)
    | _ => exact Nat.zero_le _

/-- `parse_value` does not go deeper than it may. -/
theorem scanValue_depth (strtod : Bytes → Option Double) (flags : LoadFlags) (depth : ℕ)
    (cur : Token × Bytes) : (scanValue strtod flags depth cur).1.depth ≤ depth := by
  induction depth generalizing cur with
  | zero => exact Nat.zero_le _
  | succ depth ih =>
    have hone : 1 ≤ depth + 1 := Nat.le_add_left 1 depth
    obtain ⟨tok, rest⟩ := cur
    cases tok with
    | string v =>
      simp only [scanValue]
      split_ifs
      · exact Nat.zero_le _
      · exact hone
    | char c =>
      simp only [scanValue]
      split_ifs
      · exact hone
      · exact Nat.succ_le_succ (scanMembers_depth ih _ _ _)
      · exact hone
      · exact Nat.succ_le_succ (scanItems_depth ih _ _)
      · exact Nat.zero_le _
    | eof => exact Nat.zero_le _
    | invalid => exact Nat.zero_le _
    | _ => exact hone

theorem jsonLoadb_depth (report : Bytes → JsonError) (buffer : Bytes) :
    (jsonLoadb strtod flags report buffer).text.depth ≤ jsonParserMaxDepth := by
  have hscan := scanValue_depth strtod flags jsonParserMaxDepth (lexScan strtod flags buffer)
  unfold jsonLoadb
  dsimp only
  split_ifs
  · exact Nat.zero_le _
  · split
    · next text heq =>
      rw [heq] at hscan
      exact hscan
    · next text rest heq =>
      rw [heq] at hscan
      exact hscan

end Scanned

/-- The part of a store that was allocated from `base` on. -/
def Store.since (s : Store) (base : ℕ) : Store :=
  { s with cells := fun n => if n < base then none else s.cells n }

/-- Nothing is allocated beyond the next address. -/
def Bounded (s : Store) : Prop := ∀ n, s.next ≤ n → s.cells n = none

/-- The store grows, and only the old nodes in `T` are touched. -/
structure Grows (T : ℕ → Prop) (s s' : Store) : Prop where
  next_le : s.next ≤ s'.next
  cells : ∀ n < s.next, ¬T n → s'.cells n = s.cells n
  bounded : Bounded s'

section Growing
variable {H : Hashing} {T T' : ℕ → Prop} {s s₁ s₂ : Store} {base o : ℕ} {c : Cell Payload}

theorem Bounded.lt_next (hs : Bounded s) (hc : s.cells o = some c) : o < s.next := by
  by_contra hge
  rw [hs o (Nat.le_of_not_lt hge)] at hc
  cases hc

theorem Grows.trans (h : Grows T s s₁) (h' : Grows T s₁ s₂) : Grows T s s₂ where
  next_le := h.next_le.trans h'.next_le
  cells n hn ht := (h'.cells n (hn.trans_le h.next_le) ht).trans (h.cells n hn ht)
  bounded := h'.bounded

theorem Grows.mono (h : Grows T s s₁) (hT : ∀ n < s.next, T n → T' n) : Grows T' s s₁ where
  next_le := h.next_le
  cells n hn ht := h.cells n hn fun hTn => ht (hT n hn hTn)
  bounded := h.bounded

theorem grows_alloc (hs : Bounded s) (p : Payload) : Grows T s (s.alloc p) where
  next_le := Nat.le_succ _
  cells n hn _ := Heap.alloc_cells_of_ne (Nat.ne_of_lt hn) p
  bounded n hn := by
    have hlt : s.next < n := hn
    rw [Heap.alloc_cells_of_ne (Nat.ne_of_gt hlt)]
    exact hs n hlt.le

theorem grows_setPayload (hs : Bounded s) (o : ℕ) (p : Payload) :
    Grows (· = o) s (s.setPayload o p) where
  next_le := (Heap.setPayload_next s o p).ge
  cells n _ hne := Heap.setPayload_cells_of_ne hne p
  bounded n hn := by
    rw [Heap.setPayload_next] at hn
    by_cases hno : n = o
    · subst hno
      rw [Heap.setPayload, hs n hn]
      exact hs n hn
    · rw [Heap.setPayload_cells_of_ne hno]
      exact hs n hn

theorem read_since_node (s : Store) (base n : ℕ) : Store.read (Store.since s base) (.node n) =
    if n < base then none else Store.read s (.node n) := by
  simp only [Store.read, Store.since]
  split_ifs <;> rfl

/-- What was built stays as it is while older nodes are touched. -/
theorem Grows.since (h : Grows T s₁ s₂) (hs : Bounded s₁) (hT : ∀ n, T n → n < base) (json : Ref)
    (p : Option Payload) (hread : Store.read (Store.since s₁ base) json = some p) :
    Store.read (Store.since s₂ base) json = some p := by
  cases json with
  | node n =>
    rw [read_since_node] at hread ⊢
    split_ifs at hread ⊢ with hlt
    obtain ⟨c, hc, heq⟩ := Option.map_eq_some_iff.mp hread
    have hsame := h.cells n (hs.lt_next hc) fun hTn => hlt (hT n hTn)
    rw [Store.read, hsame, hc, Option.map_some, heq]
  | _ => exact hread

theorem read_since_mono {base' : ℕ} (hle : base' ≤ base) (json : Ref) (p : Option Payload)
    (hread : Store.read (Store.since s base) json = some p) :
    Store.read (Store.since s base') json = some p := by
  cases json with
  | node n =>
    rw [read_since_node] at hread ⊢
    split_ifs at hread with hlt
    rw [if_neg (by omega)]
    exact hread
  | _ => exact hread

theorem read_of_since (json : Ref) (p : Option Payload)
    (hread : Store.read (Store.since s base) json = some p) : Store.read s json = some p := by
  cases json with
  | node n =>
    rw [read_since_node] at hread
    split_ifs at hread
    exact hread
  | _ => exact hread

/-- A value that is built of new nodes is not an old one. -/
theorem Denotes.ne_node {t : Text} {v : Ref} (h : Denotes (Store.since s base) t v)
    (ho : o < base) : Ref.node o ≠ v := by
  rintro rfl
  have hnone : Store.read (Store.since s base) (.node o) = none := by
    rw [read_since_node, if_pos ho]
  cases t with
  | object ms =>
    obtain ⟨es, hread, -⟩ := h
    rw [hnone] at hread
    cases hread
  | array is =>
    obtain ⟨table, hread, -⟩ := h
    rw [hnone] at hread
    cases hread
  | string v =>
    have hread : Store.read (Store.since s base) (.node o) = some (some (.string v)) := h
    rw [hnone] at hread
    cases hread
  | integer v =>
    have hread : Store.read (Store.since s base) (.node o) = some (some (.integer v)) := h
    rw [hnone] at hread
    cases hread
  | real y =>
    obtain ⟨x, hread, -⟩ := h
    rw [hnone] at hread
    cases hread
  | true => cases h
  | false => cases h
  | null => cases h
  | invalid => exact h

/-- A scalar in a new node. -/
theorem read_since_alloc (s : Store) (p : Payload) :
    Store.read (Store.since (s.alloc p) s.next) (.node s.next) = some (some p) := by
  rw [read_since_node, if_neg (lt_irrefl _), Store.read, Heap.alloc_cells_self]
  rfl

/-- A new pair is linked into an object. -/
theorem setNew_grows (hs : Bounded s) {key : Bytes} {v : Ref} {es : List Entry}
    (hc : s.cells o = some c) (hp : c.payload = .object es) (hkey : key ∉ es.map (·.key))
    (hne : Ref.node o ≠ v) :
    ∃ s', jsonObjectSetNewNocheck H s (.node o) key (some v) = some (true, s') ∧
      Grows (· = o) s s' ∧ s'.cells o =
        some { c with payload := .object (es ++ [⟨s.next, key, v⟩]) } := by
  have hread : Store.read s (.node o) = some (some (.object es)) := by
    rw [Store.read, hc, Option.map_some, hp]
  have hbump : Bounded { s with next := s.next + 1 } := fun n hn => hs n (Nat.le_of_succ_le hn)
  have hgrows := grows_setPayload hbump o (.object (es ++ [⟨s.next, key, v⟩]))
  refine ⟨_, ?_, ⟨(Nat.le_succ _).trans hgrows.next_le, fun n hn hno =>
    hgrows.cells n (Nat.lt_succ_of_lt hn) hno, hgrows.bounded⟩, ?_⟩
  · simp [jsonObjectSetNewNocheck, hread, hne, hashtableSet, replaceValue_eq_none_iff.mpr hkey,
      Store.write, hc]
  · have hcell : ({ s with next := s.next + 1 } : Store).cells o = some c := hc
    rw [Heap.setPayload_of_some hcell, Heap.set_cells_self]

theorem appendNew_grows (hs : Bounded s) {v : Ref} {t : List Ref} (hc : s.cells o = some c)
    (hp : c.payload = .array t) (hne : Ref.node o ≠ v) :
    ∃ s', jsonArrayAppendNew H s (.node o) (some v) = some (true, s') ∧
      Grows (· = o) s s' ∧ s'.cells o = some { c with payload := .array (t ++ [v]) } := by
  have hread : Store.read s (.node o) = some (some (.array t)) := by
    rw [Store.read, hc, Option.map_some, hp]
  refine ⟨_, ?_, grows_setPayload hs o (.array (t ++ [v])), ?_⟩
  · simp [jsonArrayAppendNew, hread, hne, Store.write, hc]
  · rw [Heap.setPayload_of_some hc, Heap.set_cells_self]

end Growing

section Parsed
variable {H : Hashing}

mutual

/-- The parser builds a document whose value is the tree, out of new nodes. -/
theorem parseValue_denotes (t : Text) (hcomplete : t.complete = true) (hdistinct : t.Distinct)
    {s : Store} (hs : Bounded s) :
    ∃ json s', parseValue H s t = some (some json, s') ∧ Grows (fun _ => False) s s' ∧
      Denotes (Store.since s' s.next) t json := by
  cases t with
  | string v => exact ⟨_, _, rfl, grows_alloc hs _, read_since_alloc s _⟩
  | integer v => exact ⟨_, _, rfl, grows_alloc hs _, read_since_alloc s _⟩
  | real v => exact ⟨_, _, rfl, grows_alloc hs _, _, read_since_alloc s _, rfl, rfl⟩
  | true => exact ⟨_, _, rfl, ⟨le_rfl, fun _ _ _ => rfl, hs⟩, rfl⟩
  | false => exact ⟨_, _, rfl, ⟨le_rfl, fun _ _ _ => rfl, hs⟩, rfl⟩
  | null => exact ⟨_, _, rfl, ⟨le_rfl, fun _ _ _ => rfl, hs⟩, rfl⟩
  | invalid => cases hcomplete
  | object ms =>
    have halloc : Grows (· = s.next) s (s.alloc (.object [])) := grows_alloc hs _
    obtain ⟨s', c', es', hparse, hgrows, hc', hp', hms⟩ :=
      parseObject_denotes ms hcomplete hdistinct halloc.bounded
        (Heap.alloc_cells_self s (.object [])) rfl (by simp)
    refine ⟨_, s', hparse, (halloc.trans hgrows).mono fun n hn heq => ?_, es', ?_, ?_⟩
    · exact absurd heq (Nat.ne_of_lt hn)
    · rw [read_since_node, if_neg (lt_irrefl _), Store.read, hc', Option.map_some, hp']
      rfl
    · exact hms.mono (read_since_mono halloc.next_le)
  | array is =>
    have halloc : Grows (· = s.next) s (s.alloc (.array [])) := grows_alloc hs _
    obtain ⟨s', c', t', hparse, hgrows, hc', hp', his⟩ :=
      parseArray_denotes is hcomplete hdistinct halloc.bounded
        (Heap.alloc_cells_self s (.array [])) rfl
    refine ⟨_, s', hparse, (halloc.trans hgrows).mono fun n hn heq => ?_, t', ?_, ?_⟩
    · exact absurd heq (Nat.ne_of_lt hn)
    · rw [read_since_node, if_neg (lt_irrefl _), Store.read, hc', Option.map_some, hp']
      rfl
    · exact his.mono (read_since_mono halloc.next_le)

theorem parseObject_denotes (ms : Members) (hcomplete : ms.complete = true)
    (hdistinct : ms.Distinct) {s : Store} (hs : Bounded s) {o : ℕ} {c : Cell Payload}
    {es : List Entry} (hc : s.cells o = some c) (hp : c.payload = .object es)
    (hkeys : ∀ key ∈ ms.keys, key ∉ es.map (·.key)) :
    ∃ s' c' es', parseObject H s (.node o) ms = some (some (.node o), s') ∧ Grows (· = o) s s' ∧
      s'.cells o = some c' ∧ c'.payload = .object (es ++ es') ∧
      DenotesMembers (Store.since s' s.next) ms es' := by
  cases ms with
  | closed =>
    refine ⟨s, c, [], rfl, ⟨le_rfl, fun _ _ _ => rfl, hs⟩, hc, ?_, rfl⟩
    rw [hp, List.append_nil]
  | broken => cases hcomplete
  | member key value rest =>
    rw [Members.complete, Bool.and_eq_true] at hcomplete
    obtain ⟨hkey, hvalue, hrest⟩ := hdistinct
    have ho : o < s.next := hs.lt_next hc
    obtain ⟨v, s₁, hparse, hgrows, hdenotes⟩ := parseValue_denotes value hcomplete.1 hvalue hs
    have hc₁ : s₁.cells o = some c := (hgrows.cells o ho id).trans hc
    obtain ⟨s₂, hset, hgrows₂, hc₂⟩ := setNew_grows (H := H) hgrows.bounded hc₁ hp
      (hkeys key (List.mem_cons_self ..)) (hdenotes.ne_node ho)
    have hfresh : ∀ k ∈ rest.keys, k ∉ (es ++ [Entry.mk s₁.next key v]).map Entry.key := by
      intro k hk
      rw [List.map_append, List.mem_append, not_or]
      refine ⟨hkeys k (List.mem_cons_of_mem _ hk), fun heq => hkey ?_⟩
      obtain rfl : k = key := List.mem_singleton.mp heq
      exact hk
    obtain ⟨s', c', es', hparse', hgrows', hc', hp', hms⟩ :=
      parseObject_denotes rest hcomplete.2 hrest hgrows₂.bounded hc₂ rfl hfresh
    have hafter := hgrows₂.trans hgrows'
    refine ⟨s', c', ⟨s₁.next, key, v⟩ :: es', ?_, (hgrows.mono fun _ _ h => h.elim).trans hafter,
      hc', ?_, _, es', rfl, rfl, ?_, ?_⟩
    · simp [parseObject, hparse, hset, hparse']
    · rw [hp', List.append_assoc]
      rfl
    · exact hdenotes.mono (hafter.since hgrows.bounded fun n heq => heq ▸ ho)
    · exact hms.mono (read_since_mono (hgrows.next_le.trans hgrows₂.next_le))

theorem parseArray_denotes (is : Items) (hcomplete : is.complete = true) (hdistinct : is.Distinct)
    {s : Store} (hs : Bounded s) {o : ℕ} {c : Cell Payload} {t : List Ref}
    (hc : s.cells o = some c) (hp : c.payload = .array t) :
    ∃ s' c' t', parseArray H s (.node o) is = some (some (.node o), s') ∧ Grows (· = o) s s' ∧
      s'.cells o = some c' ∧ c'.payload = .array (t ++ t') ∧
      DenotesItems (Store.since s' s.next) is t' := by
  cases is with
  | closed =>
    refine ⟨s, c, [], rfl, ⟨le_rfl, fun _ _ _ => rfl, hs⟩, hc, ?_, rfl⟩
    rw [hp, List.append_nil]
  | broken => cases hcomplete
  | item value rest =>
    rw [Items.complete, Bool.and_eq_true] at hcomplete
    obtain ⟨hvalue, hrest⟩ := hdistinct
    have ho : o < s.next := hs.lt_next hc
    obtain ⟨v, s₁, hparse, hgrows, hdenotes⟩ := parseValue_denotes value hcomplete.1 hvalue hs
    have hc₁ : s₁.cells o = some c := (hgrows.cells o ho id).trans hc
    obtain ⟨s₂, happend, hgrows₂, hc₂⟩ := appendNew_grows (H := H) hgrows.bounded hc₁ hp
      (hdenotes.ne_node ho)
    obtain ⟨s', c', t', hparse', hgrows', hc', hp', his⟩ :=
      parseArray_denotes rest hcomplete.2 hrest hgrows₂.bounded hc₂ rfl
    have hafter := hgrows₂.trans hgrows'
    refine ⟨s', c', v :: t', ?_, (hgrows.mono fun _ _ h => h.elim).trans hafter, hc', ?_, v, t', rfl,
      ?_, ?_⟩
    · simp [parseArray, hparse, happend, hparse']
    · rw [hp', List.append_assoc]
      rfl
    · exact hdenotes.mono (hafter.since hgrows.bounded fun n heq => heq ▸ ho)
    · exact his.mono (read_since_mono (hgrows.next_le.trans hgrows₂.next_le))

end

/-- The decoder builds a document with the value that it has read. -/
theorem jsonLoads_denotes {d : Document} (hd : d.Accepted) (hdistinct : d.text.Distinct)
    {s : Store} (hs : Bounded s) :
    ∃ json s', jsonLoads H s d = some (some json, s') ∧ Denotes s' d.text json := by
  obtain ⟨json, s', hparse, -, hdenotes⟩ := parseValue_denotes (H := H) d.text hd.1 hdistinct hs
  refine ⟨json, s', ?_, hdenotes.mono read_of_since⟩
  simp [jsonLoads, hparse, hd.2]

end Parsed

end RipExt.Json
