import RipExt.Json.Value

/-! Every function of `value.c` as moves of the counted heap: whatever it does to a document,
it takes, keeps and gives back exactly the references its callers count on. -/
namespace RipExt.Json
open RefCount

section Slots
variable (H : Hashing)

@[simp] theorem nodes_none : Pointer.nodes none = [] := rfl

@[simp] theorem nodes_node (n : ℕ) : Pointer.nodes (some (.node n)) = [n] := rfl

theorem mem_nodes {v : Pointer} {n : ℕ} (h : n ∈ v.nodes) : v = some (.node n) := by
  cases v with
  | none => cases h
  | some r =>
    cases r with
    | node m => simpa [eq_comm] using h
    | _ => cases h

theorem filterMap_node_cons (r : Ref) (t : List Ref) :
    (r :: t).filterMap Ref.node? = Pointer.nodes (some r) ++ t.filterMap Ref.node? := by
  cases r <;> rfl

/-- The slots of a list of entries. -/
def slotsOf (es : List Entry) : List ℕ := (es.map (·.value)).filterMap Ref.node?

theorem slotsOf_cons (e : Entry) (es : List Entry) :
    slotsOf (e :: es) = Pointer.nodes (some e.value) ++ slotsOf es :=
  filterMap_node_cons e.value _

theorem slotsOf_append (es fs : List Entry) : slotsOf (es ++ fs) = slotsOf es ++ slotsOf fs := by
  simp [slotsOf]

/-- The walk over the bucket list meets every slot once. -/
theorem children_object_perm (es : List Entry) :
    (H.children (.object es)).Perm (slotsOf es) := by
  have hperm := (H.perm es).filterMap (·.value.node?)
  rw [show slotsOf es = es.filterMap (·.value.node?) by
    simp [slotsOf, List.filterMap_map]]
  exact hperm

theorem count_children_object (es : List Entry) (m : ℕ) :
    (H.children (.object es)).count m = (slotsOf es).count m :=
  (children_object_perm H es).count_eq m

theorem mem_slots_of_mem {n : ℕ} {r : Ref} {t : List Ref} (hr : r ∈ t) (hn : r = .node n) :
    n ∈ t.filterMap Ref.node? := List.mem_filterMap.mpr ⟨r, hr, by rw [hn]; rfl⟩

theorem mem_children_object {n : ℕ} {es : List Entry} {e : Entry} (he : e ∈ es)
    (hn : e.value = .node n) : n ∈ H.children (.object es) := by
  rw [(children_object_perm H es).mem_iff, slotsOf]
  exact mem_slots_of_mem (List.mem_map_of_mem he) hn

section Pairs
variable {key : Bytes} {v old : Ref} {es es' : List Entry}

/-- The first pair with the key gets the value, and the others stay as they are. -/
theorem replaceValue_eq_some_iff : replaceValue key v es = some (old, es') ↔
    ∃ before e after, es = before ++ e :: after ∧ e.key = key ∧ e.value = old ∧
      (∀ f ∈ before, f.key ≠ key) ∧ es' = before ++ { e with value := v } :: after := by
  constructor
  · intro h
    induction es generalizing es' with
    | nil => cases h
    | cons e es ih =>
      unfold replaceValue at h
      split_ifs at h with hkey
      · cases h
        exact ⟨[], e, es, rfl, hkey, rfl, by simp, rfl⟩
      · obtain ⟨r, hr, heq⟩ := Option.map_eq_some_iff.mp h
        cases heq
        obtain ⟨before, f, after, rfl, hf, hold, hbefore, hes⟩ := ih hr
        refine ⟨e :: before, f, after, rfl, hf, hold, ?_, by rw [hes]; rfl⟩
        exact List.forall_mem_cons.mpr ⟨hkey, hbefore⟩
  · rintro ⟨before, e, after, rfl, hkey, rfl, hbefore, rfl⟩
    induction before with
    | nil => simp [replaceValue, hkey]
    | cons f before ih =>
      rw [List.forall_mem_cons] at hbefore
      simp [replaceValue, hbefore.1, ih hbefore.2]

theorem replaceValue_eq_none_iff : replaceValue key v es = none ↔ key ∉ es.map (·.key) := by
  induction es with
  | nil => simp [replaceValue]
  | cons e es ih =>
    by_cases hkey : e.key = key
    · simp [replaceValue, hkey]
    · rw [replaceValue, if_neg hkey, Option.map_eq_none_iff, ih, List.map_cons, List.mem_cons,
        not_or]
      exact (and_iff_right (Ne.symm hkey)).symm

theorem unlink_eq_some (h : unlink key es = some (old, es')) :
    ∃ before e after, es = before ++ e :: after ∧ e.value = old ∧ es' = before ++ after := by
  induction es generalizing es' with
  | nil => cases h
  | cons e es ih =>
    unfold unlink at h
    split_ifs at h with hkey
    · cases h
      exact ⟨[], e, es, rfl, rfl, rfl⟩
    · obtain ⟨r, hr, heq⟩ := Option.map_eq_some_iff.mp h
      cases heq
      obtain ⟨before, f, after, rfl, hold, hes⟩ := ih hr
      exact ⟨e :: before, f, after, rfl, hold, by rw [hes]; rfl⟩

theorem replaceValue_count (h : replaceValue key v es = some (old, es')) (m : ℕ) :
    (slotsOf es').count m + (Pointer.nodes (some old)).count m =
      (slotsOf es).count m + (Pointer.nodes (some v)).count m := by
  obtain ⟨before, e, after, rfl, -, rfl, -, rfl⟩ := replaceValue_eq_some_iff.mp h
  simp only [slotsOf_append, slotsOf_cons, List.count_append]
  omega

theorem replaceValue_pairs (h : replaceValue key v es = some (old, es')) :
    es'.map (fun e => (e.id, e.key)) = es.map fun e => (e.id, e.key) := by
  obtain ⟨before, e, after, rfl, -, -, -, rfl⟩ := replaceValue_eq_some_iff.mp h
  simp

theorem replaceValue_ids (h : replaceValue key v es = some (old, es')) :
    es'.map (·.id) = es.map (·.id) := by
  obtain ⟨before, e, after, rfl, -, -, -, rfl⟩ := replaceValue_eq_some_iff.mp h
  simp

theorem replaceValue_keys (h : replaceValue key v es = some (old, es')) :
    es'.map (·.key) = es.map (·.key) := by
  obtain ⟨before, e, after, rfl, -, -, -, rfl⟩ := replaceValue_eq_some_iff.mp h
  simp

theorem unlink_count (h : unlink key es = some (old, es')) (m : ℕ) :
    (slotsOf es').count m + (Pointer.nodes (some old)).count m = (slotsOf es).count m := by
  obtain ⟨before, e, after, rfl, rfl, rfl⟩ := unlink_eq_some h
  simp only [slotsOf_append, slotsOf_cons, List.count_append]
  omega

end Pairs

theorem set_count {t : List Ref} {i : ℕ} {old : Ref} (h : t[i]? = some old) (v : Ref) (m : ℕ) :
    ((t.set i v).filterMap Ref.node?).count m + (Pointer.nodes (some old)).count m =
      (t.filterMap Ref.node?).count m + (Pointer.nodes (some v)).count m := by
  induction t generalizing i with
  | nil => simp at h
  | cons r t ih =>
    cases i with
    | zero =>
      obtain rfl : r = old := by simpa using h
      simp only [List.set_cons_zero, filterMap_node_cons, List.count_append]
      omega
    | succ i =>
      have := ih (i := i) (by simpa using h)
      simp only [List.set_cons_succ, filterMap_node_cons, List.count_append]
      omega

theorem eraseIdx_count {t : List Ref} {i : ℕ} {old : Ref} (h : t[i]? = some old) (m : ℕ) :
    ((t.eraseIdx i).filterMap Ref.node?).count m + (Pointer.nodes (some old)).count m =
      (t.filterMap Ref.node?).count m := by
  induction t generalizing i with
  | nil => simp at h
  | cons r t ih =>
    cases i with
    | zero =>
      obtain rfl : r = old := by simpa using h
      simp only [List.eraseIdx_cons_zero, filterMap_node_cons, List.count_append]
      omega
    | succ i =>
      have := ih (i := i) (by simpa using h)
      simp only [List.eraseIdx_cons_succ, filterMap_node_cons, List.count_append]
      omega

end Slots

namespace Payload

/-- An object with `key` set; `id` is the address of the pair if it is a new one. -/
def put (id : ℕ) (key : Bytes) (v : Ref) : Payload → Option Payload
  | .object es =>
    match replaceValue key v es with
    | some (_, es') => some (.object es')
    | none => some (.object (es ++ [⟨id, key, v⟩]))
  | _ => none

def del (key : Bytes) : Payload → Option Payload
  | .object es => (unlink key es).map fun r => .object r.2
  | _ => none

def clearObject : Payload → Option Payload
  | .object _ => some (.object [])
  | _ => none

def putAt (index : ℕ) (v : Ref) : Payload → Option Payload
  | .array t => if index < t.length then some (.array (t.set index v)) else none
  | _ => none

def push (v : Ref) : Payload → Option Payload
  | .array t => some (.array (t ++ [v]))
  | _ => none

def removeAt (index : ℕ) : Payload → Option Payload
  | .array t => if index < t.length then some (.array (t.eraseIdx index)) else none
  | _ => none

def clearArray : Payload → Option Payload
  | .array _ => some (.array [])
  | _ => none

end Payload

/-- Moves that overwrite nothing. -/
def NoEdit (_ : Store) (_ : ℕ) (_ : Payload) : Prop := False

/-- What a function called with the references `R₀` did to the store: it failed and edited
nothing, or it edited the container `json` as `T` says, which took over the references `V`.
Either way it leaves `R`. -/
def Changed (H : Hashing) (s : Store) (R₀ : Multiset ℕ) (V : List ℕ) (R : Multiset ℕ)
    (json : Ref) (T : Payload → Payload → Prop) (r : Bool × Store) : Prop :=
  (r.1 = false ∧ Moves H.children R NoEdit (s, R₀) (r.2, R)) ∨
  (r.1 = true ∧ ∃ s₁ n c p, Moves H.children R NoEdit (s, R₀) (s₁, ↑V + R) ∧ json = .node n ∧
    s₁.cells n = some c ∧ T c.payload p ∧ Edit H.children s₁ (↑V + R) n p r.2 R)

section Functions
variable {H : Hashing} {s : Store} {R K : Multiset ℕ} {L : Store → ℕ → Payload → Prop}
  {json : Ref} {value : Pointer} {n : ℕ} {c : Cell Payload} {p : Payload} {olds : List ℕ}

theorem read_of_samePayload {s s' : Store} (h : SamePayload s s' n) :
    Store.read s' (.node n) = Store.read s (.node n) := by
  have hmap (heap : Store) : Store.read heap (.node n) =
      ((heap.cells n).map Cell.payload).map some := by
    simp [Store.read, Function.comp_def]
  rw [hmap, hmap, h]

theorem decrefAll_nil (H : Hashing) (s : Store) : s.decrefAll H.children [] = some s := by
  simp [Heap.decrefAll, Heap.release]

theorem jsonDecref_eq (H : Hashing) (s : Store) (v : Pointer) :
    jsonDecref H s v = s.decrefAll H.children v.nodes := by
  cases v with
  | none => exact (decrefAll_nil H s).symm
  | some r =>
    cases r with
    | node n => rfl
    | _ => exact (decrefAll_nil H s).symm

theorem coe_singleton_add (n : ℕ) (R : Multiset ℕ) : (↑[n] : Multiset ℕ) + R = n ::ₘ R := by
  rw [Multiset.coe_singleton, Multiset.singleton_add]

/-- Giving up one reference keeps exactly what is held without it. -/
theorem jsonDecref_held {s' : Store} (hb : Balanced H.children s (↑value.nodes + R) [])
    (hd : jsonDecref H s value = some s') : Balanced H.children s' R [] ∧ Pruned s s' ∧
      ∀ n, s'.cells n ≠ none ↔ Ownership.Held {n | n ∈ R} (Owns H.children s) n := by
  have hdrop : Balanced H.children s R (value.nodes.map .drop) := by
    apply Balanced.drops
    rw [add_comm]
    exact hb
  obtain ⟨s₁, hd₁, hspec⟩ := decrefAll_held hdrop
  rw [← jsonDecref_eq, hd] at hd₁
  cases hd₁
  exact hspec

theorem jsonDecref_moves (hb : Balanced H.children s (↑value.nodes + R) []) (hK : K ≤ R) :
    ∃ s', jsonDecref H s value = some s' ∧
      Moves H.children K L (s, ↑value.nodes + R) (s', R) := by
  cases value with
  | none =>
    refine ⟨s, rfl, ?_⟩
    simp only [nodes_none, Multiset.coe_nil, zero_add]
    exact .refl
  | some r =>
    cases r with
    | node n =>
      rw [nodes_node, coe_singleton_add] at hb ⊢
      obtain ⟨s', hd, -⟩ := decref_held hb
      exact ⟨s', hd, .single (.decref hK hd)⟩
    | _ =>
      refine ⟨s, rfl, ?_⟩
      simp only [Pointer.nodes, Ref.node?, Option.bind_some, Option.toList_none, Multiset.coe_nil,
        zero_add]
      exact .refl

theorem jsonIncref_moves (hlive : ∀ n, json = .node n → s.cells n ≠ none) :
    ∃ s', jsonIncref s json = some s' ∧
      Moves H.children K L (s, R) (s', ↑(Pointer.nodes (some json)) + R) := by
  cases json with
  | node n =>
    obtain ⟨c, hc⟩ := Option.ne_none_iff_exists'.mp (hlive n rfl)
    have hi : s.incref n = some (s.set n (some { c with refcount := c.refcount + 1 })) := by
      simp [Heap.incref, hc]
    refine ⟨_, hi, ?_⟩
    rw [nodes_node, coe_singleton_add]
    exact .single (.incref R hi)
  | _ =>
    refine ⟨s, rfl, ?_⟩
    simp only [Pointer.nodes, Ref.node?, Option.bind_some, Option.toList_none, Multiset.coe_nil,
      zero_add]
    exact .refl

theorem alloc_moves (hp : H.children p = []) :
    Moves H.children K L (s, R) (s.alloc p, ↑(Pointer.nodes (some (.node s.next))) + R) := by
  rw [nodes_node, coe_singleton_add]
  exact .single (.alloc s R p hp)

theorem live_of_mem (hb : Balanced H.children s R []) (hn : n ∈ R) : ∃ c, s.cells n = some c := by
  apply Option.ne_none_iff_exists'.mp
  rw [hb.live_iff_held]
  exact Ownership.held_of_root hn

theorem refuse_changed (json : Ref) (T : Payload → Payload → Prop)
    (hb : Balanced H.children s (↑value.nodes + R) []) :
    ∃ r, refuse H s value = some r ∧ Changed H s (↑value.nodes + R) value.nodes R json T r := by
  obtain ⟨s', hd, hm⟩ := jsonDecref_moves hb (le_refl R)
  exact ⟨(false, s'), by simp [refuse, hd], .inl ⟨rfl, hm⟩⟩

/-- A null pointer for the value brings no reference, and the store is left alone. -/
theorem changed_of_null (json : Ref) (T : Payload → Payload → Prop) :
    Changed H s (↑(Pointer.nodes none) + R) (Pointer.nodes none) R json T (false, s) := by
  refine .inl ⟨rfl, ?_⟩
  simp only [nodes_none, Multiset.coe_nil, zero_add]
  exact .refl

theorem edit_write {R₁ : Multiset ℕ} (hb : Balanced H.children s R₁ []) (hn : n ∈ R)
    (hc : s.cells n = some c)
    (hcount : ∀ m, (H.children p).count m + olds.count m + R.count m =
      (H.children c.payload).count m + R₁.count m) :
    ∃ s₁, s.decrefAll H.children olds = some s₁ ∧
      Store.write s₁ n p = some (s₁.setPayload n p) ∧
      (s.setPayload n p).decrefAll H.children olds = some (s₁.setPayload n p) ∧
      Edit H.children s R₁ n p (s₁.setPayload n p) R := by
  obtain ⟨s₁, hd, hd', ⟨d, hd₁, -⟩, -⟩ := decrefAll_setPayload hb hc hcount hn
  refine ⟨s₁, hd, ?_, hd', c, olds, s₁, hn, hc, hcount, hd, rfl⟩
  simp [Store.write, hd₁]

theorem Changed.prepend {s₀ : Store} {R₀ R₁ : Multiset ℕ} {V : List ℕ}
    {T : Payload → Payload → Prop} {r : Bool × Store}
    (hm : Moves H.children R NoEdit (s₀, R₀) (s, R₁)) (hc : Changed H s R₁ V R json T r) :
    Changed H s₀ R₀ V R json T r := by
  rcases hc with ⟨hr, hc⟩ | ⟨hr, s₁, n, c, p, hc, hrest⟩
  · exact .inl ⟨hr, hm.trans hc⟩
  · exact .inr ⟨hr, s₁, n, c, p, hm.trans hc, hrest⟩

theorem Changed.imp {T T' : Payload → Payload → Prop} {R₀ : Multiset ℕ} {V : List ℕ}
    {r : Bool × Store} (hc : Changed H s R₀ V R json T r) (hT : ∀ p p', T p p' → T' p p') :
    Changed H s R₀ V R json T' r := by
  rcases hc with hc | ⟨hr, s₁, n, c, p, hm, hj, hcell, hTp, he⟩
  · exact .inl hc
  · exact .inr ⟨hr, s₁, n, c, p, hm, hj, hcell, hT _ _ hTp, he⟩

theorem Changed.moves {T : Payload → Payload → Prop} {R₀ : Multiset ℕ} {V : List ℕ}
    {r : Bool × Store} (hc : Changed H s R₀ V R json T r) (hb : Balanced H.children s R₀ [])
    (hL : ∀ s₁ n p, json = .node n →
      (∀ w ∈ H.children p, w ∈ s₁.edges H.children n ∨ w ∈ V) → L s₁ n p) :
    Moves H.children R L (s, R₀) (r.2, R) := by
  have hnone : ∀ (s : Store) a p, NoEdit s a p → L s a p := fun _ _ _ => False.elim
  rcases hc with ⟨-, hm⟩ | ⟨-, s₁, n, c, p, hm, hj, hcell, hT, he⟩
  · exact hm.mono le_rfl hnone
  · refine (hm.mono le_rfl hnone).tail (.edit le_rfl he (hL s₁ n p hj fun w hw => ?_))
    rw [Heap.edges_of_alive hcell ((hm.balanced hb).alive hcell)]
    exact he.mem_or hcell hw

/-- The edit of one function: with the references `V` in hand it replaced the payload of a
container that the program holds in `R`. -/
theorem changed_of_edit {T : Payload → Payload → Prop} {V : List ℕ} {s' : Store}
    (hcell : s.cells n = some c) (hT : T c.payload p)
    (he : Edit H.children s (↑V + R) n p s' R) :
    Changed H s (↑V + R) V R (.node n) T (true, s') :=
  .inr ⟨rfl, s, n, c, p, .refl, rfl, hcell, hT, he⟩

/-- An edit that takes over no reference. -/
theorem changed_of_edit_nil {T : Payload → Payload → Prop} {s' : Store}
    (hcell : s.cells n = some c) (hT : T c.payload p) (he : Edit H.children s R n p s' R) :
    Changed H s R [] R (.node n) T (true, s') := by
  have hzero : (↑([] : List ℕ) : Multiset ℕ) + R = R := by simp
  refine .inr ⟨rfl, s, n, c, p, ?_, rfl, hcell, hT, ?_⟩
  · rw [hzero]
    exact .refl
  · rw [hzero]
    exact he

theorem jsonObjectSetNewNocheck_changed (json : Ref) (key : Bytes)
    (hb : Balanced H.children s (↑value.nodes + R) []) (hjson : ∀ n, json = .node n → n ∈ R) :
    ∃ r, jsonObjectSetNewNocheck H s json key value = some r ∧
      Changed H s (↑value.nodes + R) value.nodes R json
        (fun p p' => ∃ id v, value = some v ∧ json ≠ v ∧ p.put id key v = some p') r := by
  have hrefuse := refuse_changed json
    (fun p p' => ∃ id v, value = some v ∧ json ≠ v ∧ p.put id key v = some p') hb
  cases value with
  | none => exact ⟨(false, s), rfl, changed_of_null json _⟩
  | some v =>
    cases json with
    | node n =>
      obtain ⟨c, hc⟩ := live_of_mem hb (Multiset.mem_add.mpr (.inr (hjson n rfl)))
      cases hp : c.payload with
      | object es =>
        simp only [jsonObjectSetNewNocheck, Store.read, hc, hp, Option.map_some,
          Option.bind_eq_bind, Option.bind_some]
        split_ifs with heq
        · exact hrefuse
        · cases hrep : replaceValue key v es with
          | some r =>
            obtain ⟨old, es'⟩ := r
            have hcount (m : ℕ) : (H.children (.object es')).count m +
                (Pointer.nodes (some old)).count m + R.count m =
                  (H.children c.payload).count m +
                    (↑(Pointer.nodes (some v)) + R : Multiset ℕ).count m := by
              have := replaceValue_count hrep m
              rw [hp, count_children_object, count_children_object, Multiset.count_add,
                Multiset.coe_count]
              omega
            obtain ⟨s₁, hd, hw, -, he⟩ := edit_write hb (hjson n rfl) hc hcount
            refine ⟨(true, s₁.setPayload n (.object es')), ?_, changed_of_edit hc ?_ he⟩
            · simp [hashtableSet, hrep, jsonDecref_eq, hd, hw]
            · exact ⟨0, v, rfl, heq, by simp [Payload.put, hp, hrep]⟩
          | none =>
            have hcount (m : ℕ) : (H.children (.object (es ++ [⟨s.next, key, v⟩]))).count m +
                List.count m [] + R.count m = (H.children c.payload).count m +
                  (↑(Pointer.nodes (some v)) + R : Multiset ℕ).count m := by
              rw [hp, count_children_object, count_children_object, Multiset.count_add,
                Multiset.coe_count, slotsOf_append, List.count_append, slotsOf_cons]
              simp [slotsOf]
              omega
            have hc' : ({ s with next := s.next + 1 } : Store).cells n = some c := hc
            obtain ⟨s₁, hd, hw, -, he⟩ := edit_write hb.bump (hjson n rfl) hc' hcount
            obtain rfl := Option.some.inj ((decrefAll_nil H _).symm.trans hd)
            refine ⟨(true, Heap.setPayload { s with next := s.next + 1 } n
              (.object (es ++ [⟨s.next, key, v⟩]))), ?_, ?_⟩
            · simp [hashtableSet, hrep, hw]
            · refine Changed.prepend (.single (.bump s _)) (changed_of_edit hc' ?_ he)
              exact ⟨s.next, v, rfl, heq, by simp [Payload.put, hp, hrep]⟩
      | _ => simpa [jsonObjectSetNewNocheck, Store.read, hc, hp] using hrefuse
    | _ => simpa [jsonObjectSetNewNocheck, Store.read] using hrefuse

theorem jsonObjectSetNew_changed (json : Ref) (key : Bytes)
    (hb : Balanced H.children s (↑value.nodes + R) []) (hjson : ∀ n, json = .node n → n ∈ R) :
    ∃ r, jsonObjectSetNew H s json key value = some r ∧
      Changed H s (↑value.nodes + R) value.nodes R json (fun p p' => utf8CheckString key = true ∧
        ∃ id v, value = some v ∧ json ≠ v ∧ p.put id key v = some p') r := by
  unfold jsonObjectSetNew
  split_ifs with hkey
  · obtain ⟨r, hr, hc⟩ := jsonObjectSetNewNocheck_changed json key hb hjson
    exact ⟨r, hr, hc.imp fun _ _ hT => ⟨hkey, hT⟩⟩
  · exact refuse_changed json _ hb

theorem jsonArraySetNew_changed (json : Ref) (index : ℕ)
    (hb : Balanced H.children s (↑value.nodes + R) []) (hjson : ∀ n, json = .node n → n ∈ R) :
    ∃ r, jsonArraySetNew H s json index value = some r ∧
      Changed H s (↑value.nodes + R) value.nodes R json
        (fun p p' => ∃ v, value = some v ∧ json ≠ v ∧ p.putAt index v = some p') r := by
  have hrefuse := refuse_changed json
    (fun p p' => ∃ v, value = some v ∧ json ≠ v ∧ p.putAt index v = some p') hb
  cases value with
  | none => exact ⟨(false, s), rfl, changed_of_null json _⟩
  | some v =>
    cases json with
    | node n =>
      obtain ⟨c, hc⟩ := live_of_mem hb (Multiset.mem_add.mpr (.inr (hjson n rfl)))
      cases hp : c.payload with
      | array t =>
        simp only [jsonArraySetNew, Store.read, hc, hp, Option.map_some, Option.bind_eq_bind,
          Option.bind_some]
        split_ifs with heq
        · exact hrefuse
        · cases hold : t[index]? with
          | none => exact hrefuse
          | some old =>
            have hlt : index < t.length := (List.getElem?_eq_some_iff.mp hold).1
            have hcount (m : ℕ) : (H.children (.array (t.set index v))).count m +
                (Pointer.nodes (some old)).count m + R.count m =
                  (H.children c.payload).count m +
                    (↑(Pointer.nodes (some v)) + R : Multiset ℕ).count m := by
              have := set_count hold v m
              rw [hp, Multiset.count_add, Multiset.coe_count]
              simp only [Hashing.children]
              omega
            obtain ⟨s₁, hd, hw, -, he⟩ := edit_write hb (hjson n rfl) hc hcount
            refine ⟨(true, s₁.setPayload n (.array (t.set index v))), ?_,
              changed_of_edit hc ?_ he⟩
            · simp [jsonDecref_eq, hd, hw]
            · exact ⟨v, rfl, heq, by simp [Payload.putAt, hp, hlt]⟩
      | _ => simpa [jsonArraySetNew, Store.read, hc, hp] using hrefuse
    | _ => simpa [jsonArraySetNew, Store.read] using hrefuse

theorem jsonArrayAppendNew_changed (json : Ref)
    (hb : Balanced H.children s (↑value.nodes + R) []) (hjson : ∀ n, json = .node n → n ∈ R) :
    ∃ r, jsonArrayAppendNew H s json value = some r ∧
      Changed H s (↑value.nodes + R) value.nodes R json
        (fun p p' => ∃ v, value = some v ∧ json ≠ v ∧ p.push v = some p') r := by
  have hrefuse := refuse_changed json
    (fun p p' => ∃ v, value = some v ∧ json ≠ v ∧ p.push v = some p') hb
  cases value with
  | none => exact ⟨(false, s), rfl, changed_of_null json _⟩
  | some v =>
    cases json with
    | node n =>
      obtain ⟨c, hc⟩ := live_of_mem hb (Multiset.mem_add.mpr (.inr (hjson n rfl)))
      cases hp : c.payload with
      | array t =>
        simp only [jsonArrayAppendNew, Store.read, hc, hp, Option.map_some, Option.bind_eq_bind,
          Option.bind_some]
        split_ifs with heq
        · exact hrefuse
        · have hcount (m : ℕ) : (H.children (.array (t ++ [v]))).count m + List.count m [] +
              R.count m = (H.children c.payload).count m +
                (↑(Pointer.nodes (some v)) + R : Multiset ℕ).count m := by
            rw [hp, Multiset.count_add, Multiset.coe_count]
            simp only [Hashing.children, List.filterMap_append, List.count_append,
              filterMap_node_cons, List.filterMap_nil, List.append_nil, List.count_nil]
            omega
          obtain ⟨s₁, hd, hw, -, he⟩ := edit_write hb (hjson n rfl) hc hcount
          obtain rfl := Option.some.inj ((decrefAll_nil H s).symm.trans hd)
          refine ⟨(true, s.setPayload n (.array (t ++ [v]))), by simp [hw],
            changed_of_edit hc ?_ he⟩
          exact ⟨v, rfl, heq, by simp [Payload.push, hp]⟩
      | _ => simpa [jsonArrayAppendNew, Store.read, hc, hp] using hrefuse
    | _ => simpa [jsonArrayAppendNew, Store.read] using hrefuse

/-- A call that leaves the store alone. -/
theorem changed_refl (T : Payload → Payload → Prop) : Changed H s R [] R json T (false, s) :=
  .inl ⟨rfl, .refl⟩

theorem jsonObjectDel_changed (json : Ref) (key : Bytes) (hb : Balanced H.children s R [])
    (hjson : ∀ n, json = .node n → n ∈ R) :
    ∃ r, jsonObjectDel H s json key = some r ∧
      Changed H s R [] R json (fun p p' => p.del key = some p') r := by
  cases json with
  | node n =>
    obtain ⟨c, hc⟩ := live_of_mem hb (hjson n rfl)
    cases hp : c.payload with
    | object es =>
      simp only [jsonObjectDel, Store.read, hc, hp, Option.map_some, Option.bind_eq_bind,
        Option.bind_some]
      cases hu : unlink key es with
      | none => exact ⟨_, rfl, changed_refl _⟩
      | some r =>
        obtain ⟨old, es'⟩ := r
        have hcount (m : ℕ) : (H.children (.object es')).count m +
            (Pointer.nodes (some old)).count m + R.count m =
              (H.children c.payload).count m + R.count m := by
          have := unlink_count hu m
          rw [hp, count_children_object, count_children_object]
          omega
        obtain ⟨s₁, -, -, hd, he⟩ := edit_write hb (hjson n rfl) hc hcount
        have hw : Store.write s n (.object es') = some (s.setPayload n (.object es')) := by
          simp [Store.write, hc]
        refine ⟨(true, s₁.setPayload n (.object es')), ?_, changed_of_edit_nil hc ?_ he⟩
        · simp [hw, jsonDecref_eq, hd]
        · simp [Payload.del, hp, hu]
    | _ => exact ⟨(false, s), by simp [jsonObjectDel, Store.read, hc, hp], changed_refl _⟩
  | _ => exact ⟨(false, s), by simp [jsonObjectDel, Store.read], changed_refl _⟩

theorem jsonObjectClear_changed (json : Ref) (hb : Balanced H.children s R [])
    (hjson : ∀ n, json = .node n → n ∈ R) :
    ∃ r, jsonObjectClear H s json = some r ∧
      Changed H s R [] R json (fun p p' => p.clearObject = some p') r := by
  cases json with
  | node n =>
    obtain ⟨c, hc⟩ := live_of_mem hb (hjson n rfl)
    cases hp : c.payload with
    | object es =>
      have hempty : H.children (.object []) = [] := (children_object_perm H []).eq_nil
      have hcount (m : ℕ) : (H.children (.object [])).count m +
          (((H.bucketOrder es).map (·.value)).filterMap Ref.node?).count m + R.count m =
            (H.children c.payload).count m + R.count m := by
        rw [hempty, hp]
        simp [Hashing.children, List.filterMap_map]
      obtain ⟨s₁, hd, hw, -, he⟩ := edit_write hb (hjson n rfl) hc hcount
      have hall : jsonDecrefAll H s ((H.bucketOrder es).map (·.value)) = some s₁ := hd
      refine ⟨(true, s₁.setPayload n (.object [])), ?_, changed_of_edit_nil hc ?_ he⟩
      · simp [jsonObjectClear, Store.read, hc, hp, hall, hw]
      · simp [Payload.clearObject, hp]
    | _ => exact ⟨(false, s), by simp [jsonObjectClear, Store.read, hc, hp], changed_refl _⟩
  | _ => exact ⟨(false, s), by simp [jsonObjectClear, Store.read], changed_refl _⟩

theorem jsonArrayRemove_changed (json : Ref) (index : ℕ) (hb : Balanced H.children s R [])
    (hjson : ∀ n, json = .node n → n ∈ R) :
    ∃ r, jsonArrayRemove H s json index = some r ∧
      Changed H s R [] R json (fun p p' => p.removeAt index = some p') r := by
  cases json with
  | node n =>
    obtain ⟨c, hc⟩ := live_of_mem hb (hjson n rfl)
    cases hp : c.payload with
    | array t =>
      simp only [jsonArrayRemove, Store.read, hc, hp, Option.map_some, Option.bind_eq_bind,
        Option.bind_some]
      cases hold : t[index]? with
      | none => exact ⟨_, rfl, changed_refl _⟩
      | some old =>
        have hlt : index < t.length := (List.getElem?_eq_some_iff.mp hold).1
        have hcount (m : ℕ) : (H.children (.array (t.eraseIdx index))).count m +
            (Pointer.nodes (some old)).count m + R.count m =
              (H.children c.payload).count m + R.count m := by
          have := eraseIdx_count hold m
          rw [hp]
          simp only [Hashing.children]
          omega
        obtain ⟨s₁, hd, hw, -, he⟩ := edit_write hb (hjson n rfl) hc hcount
        refine ⟨(true, s₁.setPayload n (.array (t.eraseIdx index))), ?_,
          changed_of_edit_nil hc ?_ he⟩
        · simp [jsonDecref_eq, hd, hw]
        · simp [Payload.removeAt, hp, hlt]
    | _ => exact ⟨(false, s), by simp [jsonArrayRemove, Store.read, hc, hp], changed_refl _⟩
  | _ => exact ⟨(false, s), by simp [jsonArrayRemove, Store.read], changed_refl _⟩

theorem jsonArrayClear_changed (json : Ref) (hb : Balanced H.children s R [])
    (hjson : ∀ n, json = .node n → n ∈ R) :
    ∃ r, jsonArrayClear H s json = some r ∧
      Changed H s R [] R json (fun p p' => p.clearArray = some p') r := by
  cases json with
  | node n =>
    obtain ⟨c, hc⟩ := live_of_mem hb (hjson n rfl)
    cases hp : c.payload with
    | array t =>
      have hcount (m : ℕ) : (H.children (.array [])).count m + (t.filterMap Ref.node?).count m +
          R.count m = (H.children c.payload).count m + R.count m := by
        rw [hp]
        simp [Hashing.children]
      obtain ⟨s₁, hd, hw, -, he⟩ := edit_write hb (hjson n rfl) hc hcount
      refine ⟨(true, s₁.setPayload n (.array [])), ?_, changed_of_edit_nil hc ?_ he⟩
      · simp [jsonArrayClear, Store.read, hc, hp, jsonDecrefAll, hd, hw]
      · simp [Payload.clearArray, hp]
    | _ => exact ⟨(false, s), by simp [jsonArrayClear, Store.read, hc, hp], changed_refl _⟩
  | _ => exact ⟨(false, s), by simp [jsonArrayClear, Store.read], changed_refl _⟩

/-- After a function has succeeded its container has the new contents, and everything in it
that was there before is as it was. -/
theorem Changed.result {T : Payload → Payload → Prop} {R₀ : Multiset ℕ} {V : List ℕ} {s' : Store}
    (hc : Changed H s R₀ V R (.node n) T (true, s')) (hb : Balanced H.children s R₀ [])
    (hn : n ∈ R₀) : ∃ p p', Store.read s (.node n) = some (some p) ∧ T p p' ∧
      Store.read s' (.node n) = some (some p') ∧
      ∀ w ∈ H.children p', w ≠ n → w < s.next → SamePayload s s' w := by
  rcases hc with ⟨hr, -⟩ | ⟨-, s₁, a, c₁, p', hm, ha, hc₁, hT, he⟩
  · cases hr
  obtain rfl : n = a := by simpa using ha
  have hb₁ := hm.balanced hb
  have hkeep {w : ℕ} (hw : w < s.next) (hlive : s₁.cells w ≠ none) : SamePayload s s₁ w :=
    hm.payload_of_not_edit hb (fun _ _ _ => id) hw hlive
  obtain ⟨-, hp, hheld⟩ := he.held hb₁
  have hroot : n ∈ R := by
    obtain ⟨-, -, -, hroot, -⟩ := he
    exact hroot
  have hlive : Ownership.Held {n | n ∈ R} (Owns H.children (s₁.setPayload n p')) n :=
    Ownership.held_of_root hroot
  obtain ⟨c, hcell⟩ := live_of_mem hb hn
  refine ⟨c.payload, p', by simp [Store.read, hcell], ?_, ?_, fun w hw hwn hwlt => ?_⟩
  · have hsame := hkeep (hb.lt_next hcell) (by simp [hc₁])
    have hpay : c.payload = c₁.payload := by simpa [SamePayload, hcell, hc₁] using hsame
    rw [hpay]
    exact hT
  · have hsame := hp.samePayload ((hheld n).mpr hlive)
    rw [Heap.setPayload_of_some hc₁, SamePayload, Heap.set_cells_self] at hsame
    obtain ⟨c', hc', hpay⟩ : ∃ c', s'.cells n = some c' ∧ c'.payload = p' :=
      Option.map_eq_some_iff.mp hsame.symm
    simp [Store.read, hc', hpay]
  · have hown : Owns H.children (s₁.setPayload n p') n w := by
      rw [Owns, Heap.edges_setPayload_self hc₁ (hb₁.alive hc₁)]
      exact hw
    have hw₁ : s₁.cells w ≠ none := by
      rw [hb₁.live_iff_held]
      rcases he.mem_or hc₁ hw with hold | hnew
      · refine ((hb₁.live_iff_held n).mp (by simp [hc₁])).own ?_
        rw [Owns, Heap.edges_of_alive hc₁ (hb₁.alive hc₁)]
        exact hold
      · exact Ownership.held_of_root (Multiset.mem_add.mpr (.inl hnew))
    refine (hkeep hwlt hw₁).trans (Eq.trans ?_ (hp.samePayload ((hheld w).mpr (hlive.own hown))))
    rw [Heap.setPayload_cells_of_ne hwn]

/-- The variants that share a value take a reference first. -/
theorem shared_changed {T : Payload → Payload → Prop} {v : Ref} {f : Store → Option (Bool × Store)}
    (hb : Balanced H.children s R []) (hv : ∀ n, v = .node n → n ∈ R)
    (hf : ∀ s', Balanced H.children s' (↑(Pointer.nodes (some v)) + R) [] → ∃ r, f s' = some r ∧
      Changed H s' (↑(Pointer.nodes (some v)) + R) (Pointer.nodes (some v)) R json T r) :
    ∃ r, (jsonIncref s v).bind f = some r ∧
      Changed H s R (Pointer.nodes (some v)) R json T r := by
  have hlive (n : ℕ) (hn : v = .node n) : s.cells n ≠ none := by
    obtain ⟨c, hc⟩ := live_of_mem hb (hv n hn)
    simp [hc]
  obtain ⟨s', hi, hm⟩ := jsonIncref_moves (H := H) (K := R) (L := NoEdit) (R := R) hlive
  obtain ⟨r, hr, hc⟩ := hf s' (hm.balanced hb)
  exact ⟨r, by simp [hi, hr], hc.prepend hm⟩

end Functions

end RipExt.Json
