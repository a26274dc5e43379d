import RipExt.Json.Load

/-! What the decoder leaves in a container: the last member of a key, and every item of an
array, whatever else the text holds. -/
namespace RipExt.Json
open RefCount

/-- The contents of the node that a scalar becomes. -/
def Text.payload : Text → Option Payload
  | .string v => some (.string v)
  | .integer v => some (.integer v)
  | .real v => some (.real v)
  | _ => none

/-- The value of the last member with a key. -/
def Members.last (key : Bytes) : Members → Option Text
  | .closed | .broken => none
  | .member k v rest =>
    match rest.last key with
    | some t => some t
    | none => if k = key then some v else none

/-- The item at an index. -/
def Items.get? : Items → ℕ → Option Text
  | .item v _, 0 => some v
  | .item _ rest, i + 1 => rest.get? i
  | _, _ => none

/-- The object `o` holds a node with contents `p` under a key. -/
def ObjectSlot (s : Store) (o : ℕ) (key : Bytes) (p : Payload) : Prop :=
  ∃ es w, Store.read s (.node o) = some (some (.object es)) ∧
    hashtableGet key es = some (.node w) ∧ w ≠ o ∧ Store.read s (.node w) = some (some p)

/-- The array `a` has a length, and holds a node with contents `p` at an index. -/
def ArraySlot (s : Store) (a i : ℕ) (p : Payload) : Prop :=
  ∃ t w, Store.read s (.node a) = some (some (.array t)) ∧
    t[i]? = some (.node w) ∧ w ≠ a ∧ Store.read s (.node w) = some (some p)

section Get
variable {key k : Bytes} {v : Ref} {es es' : List Entry}

theorem hashtableGet_append (before after : List Entry) :
    hashtableGet k (before ++ after) = (hashtableGet k before).or (hashtableGet k after) := by
  rw [hashtableGet, List.find?_append, Option.map_or]
  rfl

theorem hashtableGet_cons (e : Entry) :
    hashtableGet k (e :: es) = if e.key = k then some e.value else hashtableGet k es := by
  by_cases hk : e.key = k <;> simp [hashtableGet, hk]

theorem hashtableGet_eq_none (h : ∀ e ∈ es, e.key ≠ k) : hashtableGet k es = none := by
  rw [hashtableGet, List.find?_eq_none.mpr (by simpa using h), Option.map_none]

theorem replaceValue_get {old : Ref} (h : replaceValue key v es = some (old, es')) :
    hashtableGet key es' = some v := by
  obtain ⟨before, e, after, -, hkey, -, hbefore, rfl⟩ := replaceValue_eq_some_iff.mp h
  rw [hashtableGet_append, hashtableGet_eq_none hbefore, Option.none_or, hashtableGet_cons,
    if_pos hkey]

theorem replaceValue_get_of_ne {old : Ref} (h : replaceValue key v es = some (old, es'))
    (hk : k ≠ key) : hashtableGet k es' = hashtableGet k es := by
  obtain ⟨before, e, after, rfl, hkey, -, -, rfl⟩ := replaceValue_eq_some_iff.mp h
  have hne : e.key ≠ k := by
    rintro rfl
    exact hk hkey
  rw [hashtableGet_append, hashtableGet_append, hashtableGet_cons, hashtableGet_cons, if_neg hne,
    if_neg hne]

theorem put_object {id : ℕ} {p p' : Payload} (h : p.put id key v = some p') :
    ∃ es es', p = .object es ∧ p' = .object es' ∧ hashtableGet key es' = some v ∧
      ∀ k, k ≠ key → hashtableGet k es' = hashtableGet k es := by
  cases p with
  | object es =>
    cases hrep : replaceValue key v es with
    | some r =>
      obtain ⟨old, es'⟩ := r
      simp only [Payload.put, hrep] at h
      cases h
      exact ⟨es, es', rfl, rfl, replaceValue_get hrep, fun k hk => replaceValue_get_of_ne hrep hk⟩
    | none =>
      simp only [Payload.put, hrep] at h
      cases h
      refine ⟨es, _, rfl, rfl, ?_, fun k hk => ?_⟩
      · have hnew : ∀ e ∈ es, e.key ≠ key := by simpa using replaceValue_eq_none_iff.mp hrep
        rw [hashtableGet_append, hashtableGet_eq_none hnew, Option.none_or, hashtableGet_cons,
          if_pos rfl]
      · rw [hashtableGet_append, hashtableGet_cons, if_neg (Ne.symm hk)]
        exact Option.or_none
  | _ => cases h

theorem mem_children_of_get (H : Hashing) {w : ℕ} (h : hashtableGet key es = some (.node w)) :
    w ∈ H.children (.object es) := by
  obtain ⟨e, he, hv⟩ := Option.map_eq_some_iff.mp h
  exact mem_children_object H (List.mem_of_find?_eq_some he) hv

theorem mem_children_of_getElem (H : Hashing) {t : List Ref} {i w : ℕ}
    (h : t[i]? = some (.node w)) : w ∈ H.children (.array t) :=
  mem_slots_of_mem (List.mem_of_getElem? h) rfl

end Get

section Parsing
variable {H : Hashing} {s : Store} {w : ℕ} {p : Payload}

theorem lt_next_of_read {R₀ : Multiset ℕ} (hb : Balanced H.children s R₀ [])
    (hw : Store.read s (.node w) = some (some p)) : w < s.next := by
  obtain ⟨c, hc, -⟩ := Option.map_eq_some_iff.mp hw
  exact hb.lt_next hc

theorem read_of_live {s' : Store} (hsame : ∀ n, s.cells n ≠ none → SamePayload s s' n)
    (hw : Store.read s (.node w) = some (some p)) : Store.read s' (.node w) = some (some p) := by
  rw [read_of_samePayload (hsame w ?_)]
  · exact hw
  · rintro hnone
    simp [Store.read, hnone] at hw

theorem abandon_ne_some {s' : Store} {container r : Ref}
    (h : abandon H s container = some (some r, s')) : False := by
  obtain ⟨_, -, heq⟩ := Option.map_eq_some_iff.mp h
  cases heq

theorem parseValue_scalar {t : Text} (h : t.payload = some p) :
    parseValue H s t = some (some (.node s.next), s.alloc p) := by
  cases t <;> cases h <;> rfl

theorem read_alloc (s : Store) (p : Payload) :
    Store.read (s.alloc p) (.node s.next) = some (some p) := by
  simp [Store.read, Heap.alloc_cells_self]

/-- The parser leaves everything that was there as it was, and owns the value it returns. -/
theorem parseValue_keeps {value : Text} {v : Pointer} {s₁ : Store} {R₀ : Multiset ℕ}
    (hb : Balanced H.children s R₀ []) (hv : parseValue H s value = some (v, s₁)) :
    (∀ n, s.cells n ≠ none → SamePayload s s₁ n) ∧ Balanced H.children s₁ (↑v.nodes + R₀) [] ∧
      s.next ≤ s₁.next := by
  obtain ⟨v', s₁', hv', hm, -⟩ := parseValue_moves value hb le_rfl
  rw [hv] at hv'
  cases hv'
  exact ⟨fun n => hm.live_kept hb rfl fun _ _ _ hL => hL.1, hm.balanced hb, hm.next_le hb⟩

theorem Changed.balanced {R₀ R : Multiset ℕ} {V : List ℕ} {json : Ref}
    {T : Payload → Payload → Prop} {r : Bool × Store} (hc : Changed H s R₀ V R json T r)
    (hb : Balanced H.children s R₀ []) : Balanced H.children r.2 R [] ∧ s.next ≤ r.2.next := by
  have hm := hc.moves (L := fun _ _ _ => True) hb fun _ _ _ _ _ => trivial
  exact ⟨hm.balanced hb, hm.next_le hb⟩

end Parsing

section Objects
variable {H : Hashing} {s s' : Store} {R : Multiset ℕ} {o w : ℕ} {key k : Bytes} {p : Payload}
  {v : Ref}

theorem ObjectSlot.of_samePayload (h : ObjectSlot s o key p)
    (hsame : ∀ n, s.cells n ≠ none → SamePayload s s' n) : ObjectSlot s' o key p := by
  obtain ⟨es, w, ho, hget, hwo, hw⟩ := h
  exact ⟨es, w, read_of_live hsame ho, hget, hwo, read_of_live hsame hw⟩

/-- A successful `json_object_set_new_nocheck` on the object `o`. -/
theorem jsonObjectSetNewNocheck_result
    (hb : Balanced H.children s (↑(Pointer.nodes (some v)) + R) []) (ho : o ∈ R)
    (hset : jsonObjectSetNewNocheck H s (.node o) k (some v) = some (true, s')) :
    Balanced H.children s' R [] ∧ s.next ≤ s'.next ∧ ∃ es es',
      Store.read s (.node o) = some (some (.object es)) ∧
      Store.read s' (.node o) = some (some (.object es')) ∧ hashtableGet k es' = some v ∧
      (∀ key, key ≠ k → hashtableGet key es' = hashtableGet key es) ∧
      ∀ w ∈ H.children (.object es'), w ≠ o → w < s.next → SamePayload s s' w := by
  obtain ⟨r, hr, hc⟩ := jsonObjectSetNewNocheck_changed (.node o) k hb
    fun n hn => by cases hn; exact ho
  rw [hset] at hr
  cases hr
  obtain ⟨hb', hle⟩ := hc.balanced hb
  obtain ⟨p, p', hp, ⟨id, v', hv', -, hput⟩, hp', hkeep⟩ :=
    hc.result hb (Multiset.mem_add.mpr (.inr ho))
  cases hv'
  obtain ⟨es, es', rfl, rfl, hget, hother⟩ := put_object hput
  exact ⟨hb', hle, es, es', hp, hp', hget, hother, hkeep⟩

theorem ObjectSlot.set (h : ObjectSlot s o key p)
    (hb : Balanced H.children s (↑(Pointer.nodes (some v)) + R) []) (ho : o ∈ R)
    (hset : jsonObjectSetNewNocheck H s (.node o) k (some v) = some (true, s'))
    (hk : key ≠ k) : ObjectSlot s' o key p := by
  obtain ⟨es, w, hread, hget, hwo, hw⟩ := h
  obtain ⟨-, -, fs, es', hfs, hes', -, hother, hkeep⟩ :=
    jsonObjectSetNewNocheck_result hb ho hset
  rw [hread] at hfs
  cases hfs
  have hget' : hashtableGet key es' = some (.node w) := by rw [hother key hk, hget]
  refine ⟨es', w, hes', hget', hwo, ?_⟩
  rw [read_of_samePayload (hkeep w (mem_children_of_get H hget') hwo (lt_next_of_read hb hw)), hw]

theorem objectSlot_of_set (hb : Balanced H.children s (↑(Pointer.nodes (some (.node w))) + R) [])
    (ho : o ∈ R) (hwo : w ≠ o) (hw : Store.read s (.node w) = some (some p))
    (hset : jsonObjectSetNewNocheck H s (.node o) k (some (.node w)) = some (true, s')) :
    ObjectSlot s' o k p := by
  obtain ⟨-, -, es, es', -, hes', hget, -, hkeep⟩ := jsonObjectSetNewNocheck_result hb ho hset
  refine ⟨es', w, hes', hget, hwo, ?_⟩
  rw [read_of_samePayload (hkeep w (mem_children_of_get H hget) hwo (lt_next_of_read hb hw)), hw]

/-- One member of an object that the parser gets through. -/
theorem parseObject_member {value : Text} {rest : Members} {r : Ref}
    (h : parseObject H s (.node o) (.member k value rest) = some (some r, s')) :
    ∃ v s₁ s₂, parseValue H s value = some (some v, s₁) ∧
      jsonObjectSetNewNocheck H s₁ (.node o) k (some v) = some (true, s₂) ∧
      parseObject H s₂ (.node o) rest = some (some r, s') := by
  unfold parseObject at h
  obtain ⟨⟨v, s₁⟩, hv, h⟩ := Option.bind_eq_some_iff.mp h
  cases v with
  | none => exact (abandon_ne_some h).elim
  | some v =>
    obtain ⟨⟨ok, s₂⟩, hset, h⟩ := Option.bind_eq_some_iff.mp h
    cases ok with
    | true => exact ⟨v, s₁, s₂, hv, hset, h⟩
    | false => exact (abandon_ne_some h).elim

/-- The members of an object are set in turn, so the last one with a key stays. -/
theorem parseObject_slot (ms : Members) {s : Store} {r : Ref}
    (hb : Balanced H.children s (o ::ₘ R) []) (ho : o < s.next)
    (h : parseObject H s (.node o) ms = some (some r, s'))
    (hslot : ObjectSlot s o key p ∧ ms.last key = none ∨
      ∃ t, ms.last key = some t ∧ t.payload = some p) : ObjectSlot s' o key p := by
  cases ms with
  | closed =>
    cases h
    rcases hslot with ⟨hslot, -⟩ | ⟨t, ht, -⟩
    · exact hslot
    · cases ht
  | broken => exact (abandon_ne_some h).elim
  | member k value rest =>
    obtain ⟨v, s₁, s₂, hv, hset, hrest⟩ := parseObject_member h
    have hmem := Multiset.mem_cons_self o R
    obtain ⟨hkeep, hb₁, hle₁⟩ := parseValue_keeps hb hv
    obtain ⟨hb₂, hle₂, -⟩ := jsonObjectSetNewNocheck_result hb₁ hmem hset
    refine parseObject_slot rest hb₂ (ho.trans_le (hle₁.trans hle₂)) hrest ?_
    unfold Members.last at hslot
    cases hlast : rest.last key with
    | some t =>
      simp only [hlast, reduceCtorEq, and_false, false_or, Option.some.injEq] at hslot
      obtain ⟨t', rfl, ht⟩ := hslot
      exact .inr ⟨t, rfl, ht⟩
    | none =>
      refine .inl ⟨?_, rfl⟩
      simp only [hlast] at hslot
      rcases hslot with ⟨hslot, hnone⟩ | ⟨t, ht, hp⟩
      · split_ifs at hnone with hk
        exact (hslot.of_samePayload hkeep).set hb₁ hmem hset (Ne.symm hk)
      · split_ifs at ht with hk
        cases ht
        subst hk
        rw [parseValue_scalar hp] at hv
        cases hv
        exact objectSlot_of_set hb₁ hmem (Nat.ne_of_gt ho) (read_alloc s p) hset

end Objects

section Arrays
variable {H : Hashing} {s s' : Store} {R : Multiset ℕ} {a i w : ℕ} {p : Payload} {v : Ref}

/-- A successful `json_array_append_new` on the array `a`. -/
theorem jsonArrayAppendNew_result
    (hb : Balanced H.children s (↑(Pointer.nodes (some v)) + R) []) (ha : a ∈ R)
    (happend : jsonArrayAppendNew H s (.node a) (some v) = some (true, s')) :
    Balanced H.children s' R [] ∧ s.next ≤ s'.next ∧ ∃ t,
      Store.read s (.node a) = some (some (.array t)) ∧
      Store.read s' (.node a) = some (some (.array (t ++ [v]))) ∧
      ∀ w ∈ H.children (.array (t ++ [v])), w ≠ a → w < s.next → SamePayload s s' w := by
  obtain ⟨r, hr, hc⟩ := jsonArrayAppendNew_changed (.node a) hb
    fun n hn => by cases hn; exact ha
  rw [happend] at hr
  cases hr
  obtain ⟨hb', hle⟩ := hc.balanced hb
  obtain ⟨p, p', hp, ⟨v', hv', -, hpush⟩, hp', hkeep⟩ :=
    hc.result hb (Multiset.mem_add.mpr (.inr ha))
  cases hv'
  cases p with
  | array t =>
    cases hpush
    exact ⟨hb', hle, t, hp, hp', hkeep⟩
  | _ => cases hpush

theorem ArraySlot.of_samePayload (h : ArraySlot s a i p)
    (hsame : ∀ n, s.cells n ≠ none → SamePayload s s' n) : ArraySlot s' a i p := by
  obtain ⟨t, w, ha, hget, hwa, hw⟩ := h
  exact ⟨t, w, read_of_live hsame ha, hget, hwa, read_of_live hsame hw⟩

theorem ArraySlot.append (h : ArraySlot s a i p)
    (hb : Balanced H.children s (↑(Pointer.nodes (some v)) + R) []) (ha : a ∈ R)
    (happend : jsonArrayAppendNew H s (.node a) (some v) = some (true, s')) :
    ArraySlot s' a i p := by
  obtain ⟨t, w, hread, hget, hwa, hw⟩ := h
  obtain ⟨-, -, t', ht', hafter, hkeep⟩ := jsonArrayAppendNew_result hb ha happend
  rw [hread] at ht'
  cases ht'
  have hget' : (t ++ [v])[i]? = some (.node w) := by
    rw [List.getElem?_append_left (List.getElem?_eq_some_iff.mp hget).1, hget]
  refine ⟨t ++ [v], w, hafter, hget', hwa, ?_⟩
  rw [read_of_samePayload (hkeep w (mem_children_of_getElem H hget') hwa (lt_next_of_read hb hw)),
    hw]

theorem arraySlot_of_append {t : List Ref}
    (hb : Balanced H.children s (↑(Pointer.nodes (some (.node w))) + R) []) (ha : a ∈ R)
    (hwa : w ≠ a) (hw : Store.read s (.node w) = some (some p))
    (ht : Store.read s (.node a) = some (some (.array t)))
    (happend : jsonArrayAppendNew H s (.node a) (some (.node w)) = some (true, s')) :
    ArraySlot s' a t.length p := by
  obtain ⟨-, -, t', ht', hafter, hkeep⟩ := jsonArrayAppendNew_result hb ha happend
  rw [ht] at ht'
  cases ht'
  have hget : (t ++ [Ref.node w])[t.length]? = some (.node w) := by simp
  refine ⟨_, w, hafter, hget, hwa, ?_⟩
  rw [read_of_samePayload (hkeep w (mem_children_of_getElem H hget) hwa (lt_next_of_read hb hw)), hw]

/-- A successful `json_array_set_new` on the array `a`. -/
theorem arraySlot_of_set (hb : Balanced H.children s (↑(Pointer.nodes (some (.node w))) + R) [])
    (ha : a ∈ R) (hwa : w ≠ a) (hw : Store.read s (.node w) = some (some p))
    (hset : jsonArraySetNew H s (.node a) i (some (.node w)) = some (true, s')) :
    ArraySlot s' a i p := by
  obtain ⟨r, hr, hc⟩ := jsonArraySetNew_changed (.node a) i hb fun n hn => by cases hn; exact ha
  rw [hset] at hr
  cases hr
  obtain ⟨q, q', -, ⟨v', hv', -, hput⟩, hq', hkeep⟩ :=
    hc.result hb (Multiset.mem_add.mpr (.inr ha))
  cases hv'
  cases q with
  | array t =>
    simp only [Payload.putAt] at hput
    split_ifs at hput with hi
    cases hput
    have hget : (t.set i (.node w))[i]? = some (.node w) := by simp [hi]
    refine ⟨_, w, hq', hget, hwa, ?_⟩
    rw [read_of_samePayload
      (hkeep w (mem_children_of_getElem H hget) hwa (lt_next_of_read hb hw)), hw]
  | _ => cases hput

/-- One item of an array that the parser gets through. -/
theorem parseArray_item {value : Text} {rest : Items} {r : Ref}
    (h : parseArray H s (.node a) (.item value rest) = some (some r, s')) :
    ∃ v s₁ s₂, parseValue H s value = some (some v, s₁) ∧
      jsonArrayAppendNew H s₁ (.node a) (some v) = some (true, s₂) ∧
      parseArray H s₂ (.node a) rest = some (some r, s') := by
  unfold parseArray at h
  obtain ⟨⟨v, s₁⟩, hv, h⟩ := Option.bind_eq_some_iff.mp h
  cases v with
  | none => exact (abandon_ne_some h).elim
  | some v =>
    obtain ⟨⟨ok, s₂⟩, happend, h⟩ := Option.bind_eq_some_iff.mp h
    cases ok with
    | true => exact ⟨v, s₁, s₂, hv, happend, h⟩
    | false => exact (abandon_ne_some h).elim

/-- The items of an array are appended in turn. -/
theorem parseArray_slot (is : Items) {s : Store} {r : Ref} {t : List Ref}
    (hb : Balanced H.children s (a ::ₘ R) []) (ha : a < s.next)
    (h : parseArray H s (.node a) is = some (some r, s'))
    (ht : Store.read s (.node a) = some (some (.array t)))
    (hslot : ArraySlot s a i p ∨
      ∃ j x, i = t.length + j ∧ is.get? j = some x ∧ x.payload = some p) :
    ArraySlot s' a i p := by
  cases is with
  | closed =>
    cases h
    rcases hslot with hslot | ⟨j, x, -, hx, -⟩
    · exact hslot
    · cases j <;> cases hx
  | broken => exact (abandon_ne_some h).elim
  | item value rest =>
    obtain ⟨v, s₁, s₂, hv, happend, hrest⟩ := parseArray_item h
    have hmem := Multiset.mem_cons_self a R
    obtain ⟨hkeep, hb₁, hle₁⟩ := parseValue_keeps hb hv
    have ht₁ := read_of_live hkeep ht
    obtain ⟨hb₂, hle₂, t', ht', ht₂, -⟩ := jsonArrayAppendNew_result hb₁ hmem happend
    rw [ht₁] at ht'
    cases ht'
    refine parseArray_slot rest hb₂ (ha.trans_le (hle₁.trans hle₂)) hrest ht₂ ?_
    rcases hslot with hslot | ⟨j, x, rfl, hx, hp⟩
    · exact .inl ((hslot.of_samePayload hkeep).append hb₁ hmem happend)
    · cases j with
      | zero =>
        cases hx
        rw [parseValue_scalar hp] at hv
        cases hv
        exact .inl (arraySlot_of_append hb₁ hmem (Nat.ne_of_gt ha) (read_alloc s p) ht₁ happend)
      | succ j =>
        refine .inr ⟨j, x, ?_, hx, hp⟩
        simp only [List.length_append, List.length_singleton]
        omega

end Arrays

section Documents
variable {H : Hashing} {s s' : Store} {R : Multiset ℕ} {d : Document} {json : Ref} {p : Payload}
  {x : Text}

theorem jsonLoads_text (h : jsonLoads H s d = some (some json, s')) :
    parseValue H s d.text = some (some json, s') := by
  obtain ⟨⟨v, s₁⟩, hv, h⟩ := Option.bind_eq_some_iff.mp h
  cases v with
  | none => cases h
  | some v =>
    simp only at h
    split_ifs at h with hended
    · cases h
      exact hv
    · exact (abandon_ne_some h).elim

/-- A scalar member of a decoded object is found under its key, unless a later member has the
same one. -/
theorem jsonLoads_object {ms : Members} {key : Bytes} (hb : Balanced H.children s R [])
    (hd : d.text = .object ms) (h : jsonLoads H s d = some (some json, s'))
    (hx : ms.last key = some x) (hp : x.payload = some p) :
    json = .node s.next ∧ ObjectSlot s' s.next key p := by
  have hparse : parseObject H (s.alloc (.object [])) (.node s.next) ms = some (some json, s') := by
    have htext := jsonLoads_text h
    rw [hd] at htext
    exact htext
  have hempty : H.children (.object []) = [] := (children_object_perm H []).eq_nil
  have hb' : Balanced H.children (s.alloc (.object [])) (s.next ::ₘ R) [] := hb.alloc hempty
  have hlt : s.next < (s.alloc (.object [])).next := Nat.lt_succ_self s.next
  refine ⟨?_, parseObject_slot ms hb' hlt hparse (.inr ⟨x, hx, hp⟩)⟩
  obtain ⟨v, s₁, hv, -, hjson⟩ := parseObject_moves ms hb' le_rfl hlt
  rw [hparse] at hv
  cases hv
  simpa using hjson

/-- A scalar item of a decoded array is found at its index. -/
theorem jsonLoads_array {is : Items} {i : ℕ} (hb : Balanced H.children s R [])
    (hd : d.text = .array is) (h : jsonLoads H s d = some (some json, s'))
    (hx : is.get? i = some x) (hp : x.payload = some p) :
    json = .node s.next ∧ ArraySlot s' s.next i p := by
  have hparse : parseArray H (s.alloc (.array [])) (.node s.next) is = some (some json, s') := by
    have htext := jsonLoads_text h
    rw [hd] at htext
    exact htext
  have hb' : Balanced H.children (s.alloc (.array [])) (s.next ::ₘ R) [] := hb.alloc rfl
  have hlt : s.next < (s.alloc (.array [])).next := Nat.lt_succ_self s.next
  refine ⟨?_, parseArray_slot is hb' hlt hparse (read_alloc s _) (.inr ⟨i, x, by simp, hx, hp⟩)⟩
  obtain ⟨v, s₁, hv, -, hjson⟩ := parseArray_moves is hb' le_rfl hlt
  rw [hparse] at hv
  cases hv
  simpa using hjson

end Documents

end RipExt.Json
