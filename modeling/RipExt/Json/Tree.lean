import RipExt.Json.Callbacks

/-! What the encoder is for: it prints the tree of a document. Every byte of the text and what the
decoder reads in it follow from the tree. -/
namespace RipExt.Json

section Definitions

def Items.ofList : List Text → Items
  | [] => .closed
  | t :: ts => .item t (ofList ts)

def Members.ofList : List (Bytes × Text) → Members
  | [] => .closed
  | m :: ms => .member m.1 m.2 (ofList ms)

/-- The tree of a document down to a depth, with a function applied to the real numbers. -/
def tree (f : Double → Double) (s : Store) : ℕ → Ref → Text
  | 0, _ => .invalid
  | _ + 1, .true => .true
  | _ + 1, .false => .false
  | _ + 1, .null => .null
  | depth + 1, .node n =>
    match Store.read s (.node n) with
    | some (some (.integer v)) => .integer v
    | some (some (.real v)) => .real (f v)
    | some (some (.string v)) => .string v
    | some (some (.array table)) => .array (.ofList (table.map (tree f s depth)))
    | some (some (.object es)) =>
      .object (.ofList (es.map fun e => (e.key, tree f s depth e.value)))
    | _ => .invalid

/-- A pair goes before the first one whose key is not less. -/
def Members.insert (key : Bytes) (value : Text) : Members → Members
  | .member k v rest =>
    if Dump.compareKeys key k then .member key value (.member k v rest)
    else .member k v (rest.insert key value)
  | ms => .member key value ms

mutual

/-- The members of every object in the order of their keys. -/
def Text.sorted : Text → Text
  | .object ms => .object ms.sorted
  | .array is => .array is.sorted
  | t => t

def Members.sorted : Members → Members
  | .member key value rest => rest.sorted.insert key value.sorted
  | .closed => .closed
  | .broken => .broken

def Items.sorted : Items → Items
  | .item value rest => .item value.sorted rest.sorted
  | .closed => .closed
  | .broken => .broken

end

/-- The tree in the order in which the encoder writes it. -/
def Text.ordered (flags : DumpFlags) (t : Text) : Text := if flags.sortKeys then t.sorted else t

section Printing
variable (printf : ℕ → Double → Bytes) (flags : DumpFlags)

mutual

/-- The text of a tree. -/
def Text.print : Bool → ℕ → Text → Bytes
  | _, _, .true => trueText
  | _, _, .false => falseText
  | _, _, .null => nullText
  | _, _, .integer v => decimal v
  | _, _, .real v => (Dump.dtostr printf flags v).getD []
  | _, _, .string v => Dump.stringText flags v
  | embed, depth, .array is =>
    Dump.containerText flags embed depth 91 93 (is.texts (depth + 1))
  | embed, depth, .object ms =>
    Dump.containerText flags embed depth 123 125 (ms.texts (depth + 1))
  | _, _, .invalid => []

def Members.texts : ℕ → Members → List Bytes
  | depth, .member key value rest =>
    (Dump.stringText flags key ++ (Dump.separator flags ++ value.print false depth)) ::
      rest.texts depth
  | _, .closed | _, .broken => []

def Items.texts : ℕ → Items → List Bytes
  | depth, .item value rest => value.print false depth :: rest.texts depth
  | _, .closed | _, .broken => []

end

end Printing

end Definitions

section Lists
variable {printf : ℕ → Double → Bytes} {flags : DumpFlags}

theorem items_texts_ofList (depth : ℕ) (ts : List Text) :
    (Items.ofList ts).texts printf flags depth = ts.map (Text.print printf flags false depth) := by
  induction ts with
  | nil => simp [Items.ofList, Items.texts]
  | cons t ts ih => rw [Items.ofList, Items.texts, ih, List.map_cons]

theorem members_texts_ofList (depth : ℕ) (ms : List (Bytes × Text)) :
    (Members.ofList ms).texts printf flags depth = ms.map fun m =>
      Dump.stringText flags m.1 ++ (Dump.separator flags ++ m.2.print printf flags false depth) := by
  induction ms with
  | nil => simp [Members.ofList, Members.texts]
  | cons m ms ih => rw [Members.ofList, Members.texts, ih, List.map_cons]

theorem items_sorted_ofList (ts : List Text) :
    (Items.ofList ts).sorted = .ofList (ts.map Text.sorted) := by
  induction ts with
  | nil => simp [Items.ofList, Items.sorted]
  | cons t ts ih => rw [Items.ofList, Items.sorted, ih, List.map_cons, Items.ofList]

/-- The order of pairs by their keys. -/
def byKey (m m' : Bytes × Text) : Prop := Dump.compareKeys m.1 m'.1

instance : DecidableRel byKey := fun m m' => inferInstanceAs (Decidable (Dump.compareKeys m.1 m'.1))

theorem members_insert_ofList (key : Bytes) (value : Text) (ms : List (Bytes × Text)) :
    (Members.ofList ms).insert key value = .ofList (ms.orderedInsert byKey (key, value)) := by
  induction ms with
  | nil => rfl
  | cons m ms ih =>
    rw [Members.ofList, Members.insert, List.orderedInsert_cons, ih]
    by_cases h : byKey (key, value) m
    · rw [if_pos h]
      exact if_pos h
    · rw [if_neg h]
      exact if_neg h

theorem members_sorted_ofList (ms : List (Bytes × Text)) :
    (Members.ofList ms).sorted =
      .ofList ((ms.map fun m => (m.1, m.2.sorted)).insertionSort byKey) := by
  induction ms with
  | nil => simp [Members.ofList, Members.sorted]
  | cons m ms ih =>
    rw [Members.ofList, Members.sorted, ih, members_insert_ofList, List.map_cons,
      List.insertionSort_cons]

end Lists

section Order
variable {flags : DumpFlags} {es : List Entry}

/-- The pairs of an object in the order in which they are written. -/
def Dump.writeOrder (flags : DumpFlags) (es : List Entry) : List Entry :=
  if flags.sortKeys then es.insertionSort fun e e' => Dump.compareKeys e.key e'.key else es

theorem Dump.mem_writeOrder {e : Entry} : e ∈ Dump.writeOrder flags es ↔ e ∈ es := by
  unfold Dump.writeOrder
  split_ifs
  · exact List.mem_insertionSort _
  · rfl

theorem hashtableGet_of_mem (hkeys : (es.map (·.key)).Nodup) {e : Entry} (he : e ∈ es) :
    hashtableGet e.key es = some e.value := by
  obtain ⟨before, after, rfl⟩ := List.append_of_mem he
  have hbefore : ∀ f ∈ before, f.key ≠ e.key := by
    intro f hf heq
    rw [List.map_append, List.map_cons, List.nodup_append] at hkeys
    exact hkeys.2.2 _ (List.mem_map_of_mem hf) _ List.mem_cons_self heq
  rw [hashtableGet_append, hashtableGet_eq_none hbefore, Option.none_or, hashtableGet_cons,
    if_pos rfl]

/-- Under each sorted key, `json_object_get` finds the value of its own pair. -/
theorem Dump.orderedMembers_eq (hkeys : (es.map (·.key)).Nodup) :
    Dump.orderedMembers flags es = (Dump.writeOrder flags es).map fun e => (e.key, some e.value) := by
  unfold Dump.orderedMembers Dump.writeOrder
  split_ifs
  · have hsort := List.map_insertionSort (fun e e' : Entry => Dump.compareKeys e.key e'.key)
      Dump.compareKeys Entry.key es fun _ _ _ _ => Iff.rfl
    rw [← hsort, List.map_map]
    refine List.map_congr_left fun e he => ?_
    rw [Function.comp_apply, hashtableGet_of_mem hkeys ((List.mem_insertionSort _).mp he)]
  · rfl

/-- The tree of an object has its members in the same order. -/
theorem ordered_object (f : Entry → Text) :
    (Text.object (.ofList (es.map fun e => (e.key, f e)))).ordered flags =
      .object (.ofList ((Dump.writeOrder flags es).map fun e => (e.key, (f e).ordered flags))) := by
  unfold Text.ordered Dump.writeOrder
  split_ifs
  · have hsort := List.map_insertionSort (fun e e' : Entry => Dump.compareKeys e.key e'.key) byKey
      (fun e : Entry => (e.key, (f e).sorted)) es fun _ _ _ _ => Iff.rfl
    rw [Text.sorted, members_sorted_ofList, List.map_map, hsort]
    rfl
  · rfl

theorem ordered_array (ts : List Text) :
    (Text.array (.ofList ts)).ordered flags = .array (.ofList (ts.map (Text.ordered flags))) := by
  unfold Text.ordered
  split_ifs
  · rw [Text.sorted, items_sorted_ofList]
  · rw [List.map_id']

end Order

section Documents
variable {s : Store} {n depth : ℕ} {f : Double → Double}

theorem tree_mono {depth' : ℕ} {json : Ref} (hle : depth ≤ depth')
    (h : nestedWithin s depth json = true) : tree f s depth' json = tree f s depth json := by
  induction depth generalizing depth' json with
  | zero => cases h
  | succ depth ih =>
    obtain ⟨depth', rfl⟩ := Nat.exists_eq_add_one_of_ne_zero (by omega : depth' ≠ 0)
    have hle' : depth ≤ depth' := by omega
    rw [nestedWithin] at h
    cases json with
    | node n =>
      rw [tree, tree]
      cases hread : Store.read s (.node n) with
      | none => rfl
      | some p =>
        rw [hread] at h
        cases p with
        | none => rfl
        | some p =>
          cases p with
          | array table =>
            dsimp only at h ⊢
            rw [List.map_congr_left fun v hv => ih hle' (List.all_eq_true.mp h v hv)]
          | object es =>
            dsimp only at h ⊢
            rw [List.map_congr_left fun e he => by rw [ih hle' (List.all_eq_true.mp h e he)]]
          | _ => rfl
    | _ => rfl

section Nodes
variable (hs : Stored s)

theorem tree_integer {v : ℤ} (h : Store.read s (.node n) = some (some (.integer v))) :
    tree f s (depth + 1) (.node n) = .integer v := by rw [tree, h]

theorem tree_real {v : Double} (h : Store.read s (.node n) = some (some (.real v))) :
    tree f s (depth + 1) (.node n) = .real (f v) := by rw [tree, h]

theorem tree_string {v : Bytes} (h : Store.read s (.node n) = some (some (.string v))) :
    tree f s (depth + 1) (.node n) = .string v := by rw [tree, h]

theorem tree_array {table : List Ref} (h : Store.read s (.node n) = some (some (.array table))) :
    tree f s (depth + 1) (.node n) = .array (.ofList (table.map (tree f s depth))) := by rw [tree, h]

theorem tree_object {es : List Entry} (h : Store.read s (.node n) = some (some (.object es))) :
    tree f s (depth + 1) (.node n) =
      .object (.ofList (es.map fun e => (e.key, tree f s depth e.value))) := by rw [tree, h]

include hs in
/-- Induction over the documents that are nested within a depth. -/
theorem nested_induction {Q : ℕ → Ref → Prop} (htrue : ∀ d, Q (d + 1) .true)
    (hfalse : ∀ d, Q (d + 1) .false) (hnull : ∀ d, Q (d + 1) .null)
    (hinteger : ∀ d n v, Store.read s (.node n) = some (some (.integer v)) → InInt64 v →
      Q (d + 1) (.node n))
    (hreal : ∀ d n v, Store.read s (.node n) = some (some (.real v)) → Q (d + 1) (.node n))
    (hstring : ∀ d n v, Store.read s (.node n) = some (some (.string v)) → Utf8 v →
      Q (d + 1) (.node n))
    (harray : ∀ d n table, Store.read s (.node n) = some (some (.array table)) →
      (∀ v ∈ table, Q d v) → Q (d + 1) (.node n))
    (hobject : ∀ d n es, Store.read s (.node n) = some (some (.object es)) →
      (∀ e ∈ es, ValidKey e.key) → (es.map (·.key)).Nodup → (∀ e ∈ es, Q d e.value) →
      Q (d + 1) (.node n))
    {depth : ℕ} {json : Ref} (h : nestedWithin s depth json = true) : Q depth json := by
  induction depth generalizing json with
  | zero => cases h
  | succ d ih =>
    cases json with
    | true => exact htrue d
    | false => exact hfalse d
    | null => exact hnull d
    | node n =>
      rw [nestedWithin] at h
      cases hc : s.cells n with
      | none => simp [Store.read, hc] at h
      | some c =>
        have hread : Store.read s (.node n) = some (some c.payload) := by
          rw [Store.read, hc, Option.map_some]
        have hvalid := hs n c hc
        rw [hread] at h
        cases hp : c.payload with
        | integer v =>
          rw [hp] at hread hvalid
          exact hinteger d n v hread hvalid
        | real v =>
          rw [hp] at hread
          exact hreal d n v hread
        | string v =>
          rw [hp] at hread hvalid
          exact hstring d n v hread (utf8CheckString_iff.mp hvalid)
        | array table =>
          rw [hp] at hread h
          exact harray d n table hread fun v hv => ih (List.all_eq_true.mp h v hv)
        | object es =>
          rw [hp] at hread hvalid h
          exact hobject d n es hread hvalid.1 hvalid.2 fun e he => ih (List.all_eq_true.mp h e he)

end Nodes

/-- The text of a number fits its buffer, and is not empty. -/
def RealsPrint (printf : ℕ → Double → Bytes) (flags : DumpFlags) (s : Store) : Prop :=
  ∀ json x, Store.read s json = some (some (.real x)) →
    ∃ text, Dump.dtostr printf flags x = some text ∧ text ≠ []

/-- `do_dump` at a live node. -/
theorem Dump.doDump_node {printf : ℕ → Double → Bytes} {flags : DumpFlags} {σ : Type*}
    {dump : Sink σ} {c : RefCount.Cell Payload} (hc : s.cells n = some c) (fuel : ℕ) (embed : Bool)
    (level : ℕ) {parents : List ℕ} (hnew : n ∉ parents) :
    Dump.doDump printf s dump flags (fuel + 1) embed level parents (.node n) =
      let child := Dump.doDump printf s dump flags fuel false (level + 1) (n :: parents)
      match c.payload with
      | .integer v => Dump.emitText dump (dumpInteger v)
      | .real v => Dump.emitText dump (Dump.dtostr printf flags v)
      | .string v => Dump.dumpString dump flags v
      | .array table => Dump.dumpContainer dump flags embed level 91 93 (table.map child)
      | .object es => Dump.dumpContainer dump flags embed level 123 125
          ((Dump.orderedMembers flags es).map fun m => Dump.dumpMember dump flags child m.1 m.2) := by
  funext out
  rw [Dump.doDump, hc]
  dsimp only
  rw [Option.bind_some]
  cases c.payload with
  | array table => exact if_neg hnew
  | object es => exact if_neg hnew
  | _ => rfl

theorem nestedWithin_pos {json : Ref} (h : nestedWithin s depth json = true) :
    ∃ d, depth = d + 1 := by
  cases depth with
  | zero => cases h
  | succ d => exact ⟨d, rfl⟩

theorem Text.ordered_of_sorted {flags : DumpFlags} {t : Text} (ht : t.sorted = t) :
    t.ordered flags = t := by
  unfold Text.ordered
  split_ifs
  · exact ht
  · rfl

/-- The encoder prints the tree of a document that is nested within some depth: the nodes above the
current one are nested more deeply, so that none of them comes again. -/
theorem doDump_prints {printf : ℕ → Double → Bytes} {flags : DumpFlags} {σ : Type*} {dump : Sink σ}
    {R : σ → Bytes → Prop} (hs : Stored s) (hbound : Bounded s)
    (hreals : RealsPrint printf flags s) (hdump : Takes dump R) (depth : ℕ) :
    ∀ level embed {json fuel parents}, nestedWithin s depth json = true → Path s parents →
      fuel + parents.length = s.next + 1 →
      (∀ m ∈ parents, nestedWithin s depth (.node m) = false) →
      Dump.Writes R (Dump.doDump printf s dump flags fuel embed level parents json)
        (((tree id s depth json).ordered flags).print printf flags embed level) := by
  induction depth using Nat.strong_induction_on with
  | h depth ih =>
    intro level embed json fuel parents hnested hpath hfuel hparents
    have hlength := hpath.length_le
    obtain ⟨fuel, rfl⟩ := Nat.exists_eq_add_one_of_ne_zero (by omega : fuel ≠ 0)
    obtain ⟨d, rfl⟩ := nestedWithin_pos hnested
    cases json with
    | true =>
      rw [tree, Text.ordered_of_sorted rfl]
      exact Dump.writes_emit hdump (by decide)
    | false =>
      rw [tree, Text.ordered_of_sorted rfl]
      exact Dump.writes_emit hdump (by decide)
    | null =>
      rw [tree, Text.ordered_of_sorted rfl]
      exact Dump.writes_emit hdump (by decide)
    | node n =>
      obtain ⟨k, hk, hwithin, hnot⟩ := exists_least_depth hnested
      rw [tree_mono hk hwithin]
      rw [nestedWithin] at hwithin
      cases hc : s.cells n with
      | none => simp [Store.read, hc] at hwithin
      | some c =>
        have hread : Store.read s (.node n) = some (some c.payload) := by
          rw [Store.read, hc, Option.map_some]
        have hvalid := hs n c hc
        have hnew : n ∉ parents := fun hmem => by
          rw [hparents n hmem] at hnested
          cases hnested
        have hchild {v : Ref} (hv : nestedWithin s k v = true) :
            Dump.Writes R (Dump.doDump printf s dump flags fuel false (level + 1) (n :: parents) v)
              (((tree id s k v).ordered flags).print printf flags false (level + 1)) := by
          refine ih k hk (level + 1) false hv (hpath.cons hnew (hbound.lt_next hc)) ?_ fun m hm => ?_
          · rw [List.length_cons]
            omega
          · rcases List.mem_cons.mp hm with rfl | hm
            · exact hnot
            · refine Bool.eq_false_of_not_eq_true fun hm' => ?_
              have hmono := nestedWithin_mono hk.le hm'
              rw [hparents m hm] at hmono
              cases hmono
        rw [hread] at hwithin
        rw [tree, hread, Dump.doDump_node hc fuel embed level hnew]
        cases hp : c.payload with
        | integer v =>
          rw [hp] at hvalid
          dsimp only
          rw [dumpInteger_inInt64 hvalid, Text.ordered_of_sorted rfl]
          exact Dump.writes_emit hdump (decimal_ne_nil v)
        | real x =>
          rw [hp] at hread
          obtain ⟨text, htext, hne⟩ := hreals _ x hread
          dsimp only
          rw [Text.ordered_of_sorted rfl, Text.print, id_eq, htext]
          exact Dump.writes_emit hdump hne
        | string v =>
          rw [hp] at hvalid
          dsimp only
          rw [Text.ordered_of_sorted rfl]
          exact Dump.writes_string hdump (utf8CheckString_iff.mp hvalid)
        | array table =>
          rw [hp] at hwithin
          have hall := List.all_eq_true.mp hwithin
          dsimp only
          rw [ordered_array, Text.print, items_texts_ofList, List.map_map, List.map_map]
          refine Dump.writes_container hdump embed level 91 93 ?_
          rw [List.forall₂_map_left_iff, List.forall₂_map_right_iff, List.forall₂_same]
          exact fun v hv => hchild (hall v hv)
        | object es =>
          rw [hp] at hwithin hvalid
          have hall := List.all_eq_true.mp hwithin
          dsimp only
          rw [Dump.orderedMembers_eq hvalid.2, ordered_object, Text.print, members_texts_ofList,
            List.map_map, List.map_map]
          refine Dump.writes_container hdump embed level 123 125 ?_
          rw [List.forall₂_map_left_iff, List.forall₂_map_right_iff, List.forall₂_same]
          intro e he
          have hmem := Dump.mem_writeOrder.mp he
          exact Dump.writes_member hdump (utf8CheckString_iff.mp (hvalid.1 e hmem).1)
            (hchild (hall e hmem))

end Documents

end RipExt.Json
