import RipExt.Json.Decode
import RipExt.Json.Handles

/-! 64-bit integers between a plugin and a document. They go in and come out as decimal text;
the getters print through a buffer of twenty bytes, which is one too short for the longest
negative numbers. -/
namespace RipExt.Json
open RefCount

/-- What is assumed of the host: a text that fits into the plugin's buffer is copied whole. -/
def Host.CopiesWhole (E : Host) : Prop :=
  ∀ maxlength text, text.length < maxlength → E.stringToLocalUTF8 maxlength text = text

section Getting
variable {E : Host} {s : State} {hndl o maxlength : ℕ} {v : ℤ}

theorem jsonIntegerValue_of_read {heap : Store}
    (h : Store.read heap (.node o) = some (some (.integer v))) :
    jsonIntegerValue heap (.node o) = some v := by
  simp [jsonIntegerValue, h]

/-- A node that holds `v` is printed in full exactly if its text fits into the small buffer. -/
theorem int64Value_iff (hcopy : E.CopiesWhole) (hmax : 21 ≤ maxlength) (hlo : -2 ^ 63 ≤ v)
    (hhi : v < 2 ^ 63) (h : Store.read s.heap (.node o) = some (some (.integer v))) :
    int64Value E s maxlength (.node o) = some (s, .text (decimal v)) ↔ -10 ^ 18 < v := by
  have hshort : (snprintf 20 (decimal v)).length < maxlength := by
    simp only [snprintf, List.length_take]
    omega
  simp only [int64Value, jsonIntegerValue_of_read h, State.answer, Option.map_some,
    hcopy _ _ hshort, Option.some.injEq, Prod.mk.injEq, true_and, Outcome.text.injEq]
  exact snprintf_decimal_iff hlo hhi

theorem getObjectInt64Value_iff {key : Bytes} (hcopy : E.CopiesWhole) (hmax : 21 ≤ maxlength)
    (hlo : -2 ^ 63 ≤ v) (hhi : v < 2 ^ 63) (hj : readHandle hndl s.handles = some (.node o))
    (hslot : ObjectSlot s.heap o key (.integer v)) :
    getObjectInt64Value E s maxlength hndl key = some (s, .text (decimal v)) ↔ -10 ^ 18 < v := by
  obtain ⟨es, w, hread, hget, -, hw⟩ := hslot
  simp only [getObjectInt64Value, withKey, getJSONFromHandle, hj, jsonObjectGet, hread,
    Option.bind_eq_bind, Option.bind_some, hget]
  exact int64Value_iff hcopy hmax hlo hhi hw

theorem getArrayInt64Value_iff {index : Int32} (hcopy : E.CopiesWhole) (hmax : 21 ≤ maxlength)
    (hlo : -2 ^ 63 ≤ v) (hhi : v < 2 ^ 63) (hj : readHandle hndl s.handles = some (.node o))
    (hslot : ArraySlot s.heap o (toSize index) (.integer v)) :
    getArrayInt64Value E s maxlength hndl index = some (s, .text (decimal v)) ↔
      -10 ^ 18 < v := by
  obtain ⟨t, w, hread, hget, -, hw⟩ := hslot
  simp only [getArrayInt64Value, withIndex, getJSONFromHandle, hj, jsonArrayGet, hread,
    Option.bind_eq_bind, Option.bind_some, hget]
  exact int64Value_iff hcopy hmax hlo hhi hw

end Getting

section Setting
variable {E : Host} {s : State} {hndl o : ℕ} {v : ℤ}

/-- The store after `json_integer`: the new node is owned once, and differs from every node
that was there. -/
theorem jsonInteger_spec {p : Payload} (hs : s.Counted E) (v : ℤ)
    (hread : Store.read s.heap (.node o) = some (some p)) :
    Balanced E.children (s.heap.alloc (.integer v))
        (↑(Pointer.nodes (some (.node s.heap.next))) + s.roots) [] ∧
      s.heap.next ≠ o ∧ Store.read (s.heap.alloc (.integer v)) (.node o) = some (some p) := by
  have hne : s.heap.next ≠ o := by
    rintro rfl
    exact live_of_read hread _ rfl (hs.bound _ le_rfl)
  refine ⟨?_, hne, ?_⟩
  · rw [nodes_node, coe_singleton_add]
    exact hs.alloc rfl
  · rw [← hread]
    simp only [Store.read]
    rw [Heap.alloc_cells_of_ne (Ne.symm hne)]

theorem setObjectInt64Value_slot {key : Bytes} {es : List Entry} (hs : s.Counted E)
    (hlo : -2 ^ 63 ≤ v) (hhi : v < 2 ^ 63) (hj : readHandle hndl s.handles = some (.node o))
    (hread : Store.read s.heap (.node o) = some (some (.object es)))
    (hkey : utf8CheckString key = true) :
    ∃ s', setObjectInt64Value E s hndl key (decimal v) = some (s', .bool true) ∧
      s'.handles = s.handles ∧ ObjectSlot s'.heap o key (.integer v) := by
  have hroot := readHandle_root hj
  obtain ⟨hb, hne, hread'⟩ := jsonInteger_spec hs v hread
  obtain ⟨⟨ok, heap⟩, hset, -⟩ := jsonObjectSetNewNocheck_changed (.node o) key hb hroot
  obtain rfl : ok = true := by
    simp only [jsonObjectSetNewNocheck, hread', Option.bind_eq_bind, Option.bind_some,
      Ref.node.injEq, if_neg (Ne.symm hne)] at hset
    obtain ⟨_, -, heq⟩ := Option.map_eq_some_iff.mp hset
    cases heq
    rfl
  refine ⟨{ s with heap }, ?_, rfl,
    objectSlot_of_set hb (hroot o rfl) hne (read_alloc s.heap _) hset⟩
  simp [setObjectInt64Value, setObjectNew, getJSONFromHandle, hj, strtoll_decimal hlo hhi,
    jsonInteger, jsonObjectSetNew, hkey, hset, finish]

theorem setArrayInt64Value_slot {index : Int32} {t : List Ref} (hs : s.Counted E)
    (hlo : -2 ^ 63 ≤ v) (hhi : v < 2 ^ 63) (hj : readHandle hndl s.handles = some (.node o))
    (hread : Store.read s.heap (.node o) = some (some (.array t)))
    (hindex : toSize index < t.length) :
    ∃ s', setArrayInt64Value E s hndl index (decimal v) = some (s', .bool true) ∧
      s'.handles = s.handles ∧ ArraySlot s'.heap o (toSize index) (.integer v) := by
  have hroot := readHandle_root hj
  obtain ⟨hb, hne, hread'⟩ := jsonInteger_spec hs v hread
  obtain ⟨⟨ok, heap⟩, hset, -⟩ := jsonArraySetNew_changed (.node o) (toSize index) hb hroot
  obtain rfl : ok = true := by
    simp only [jsonArraySetNew, hread', Option.bind_eq_bind, Option.bind_some,
      Ref.node.injEq, if_neg (Ne.symm hne), List.getElem?_eq_getElem hindex] at hset
    obtain ⟨_, -, hset⟩ := Option.bind_eq_some_iff.mp hset
    obtain ⟨_, -, hset⟩ := Option.bind_eq_some_iff.mp hset
    cases hset
    rfl
  refine ⟨{ s with heap }, ?_, rfl,
    arraySlot_of_set hb (hroot o rfl) hne (read_alloc s.heap _) hset⟩
  simp [setArrayInt64Value, setArrayNew, getJSONFromHandle, hj, jsonStrtoint,
    strtoll_decimal hlo hhi, jsonInteger, hset, finish]

theorem pushArrayInt64Value_slot {t : List Ref} (hs : s.Counted E)
    (hlo : -2 ^ 63 ≤ v) (hhi : v < 2 ^ 63) (hj : readHandle hndl s.handles = some (.node o))
    (hread : Store.read s.heap (.node o) = some (some (.array t))) :
    ∃ s', pushArrayInt64Value E s hndl (decimal v) = some (s', .bool true) ∧
      s'.handles = s.handles ∧ ArraySlot s'.heap o t.length (.integer v) := by
  have hroot := readHandle_root hj
  obtain ⟨hb, hne, hread'⟩ := jsonInteger_spec hs v hread
  obtain ⟨⟨ok, heap⟩, hset, -⟩ := jsonArrayAppendNew_changed (.node o) hb hroot
  obtain rfl : ok = true := by
    simp only [jsonArrayAppendNew, hread', Option.bind_eq_bind, Option.bind_some,
      Ref.node.injEq, if_neg (Ne.symm hne)] at hset
    obtain ⟨_, -, hset⟩ := Option.bind_eq_some_iff.mp hset
    cases hset
    rfl
  refine ⟨{ s with heap }, ?_, rfl,
    arraySlot_of_append hb (hroot o rfl) hne (read_alloc s.heap _) hread' hset⟩
  simp [pushArrayInt64Value, pushArrayNew, getJSONFromHandle, hj, jsonStrtoint,
    strtoll_decimal hlo hhi, jsonInteger, hset, finish]

end Setting

section Decoding
variable {E : Host} {s s' : State} {d : Document} {hndl : ℕ} {v : ℤ}

/-- A document that got a handle: the decoder built it, and the handle names its root. -/
theorem fromText_handle {error : ℕ → NativeError} {refused : Option ℕ}
    (h : fromText E s d error refused = some (s', .handle hndl)) :
    ∃ json, jsonLoads E.toHashing s.heap d = some (some json, s'.heap) ∧
      readHandle hndl s'.handles = some json := by
  obtain ⟨⟨v, heap⟩, hl, h⟩ := Option.bind_eq_some_iff.mp h
  cases v with
  | none => cases h
  | some json =>
    cases refused with
    | none =>
      cases h
      exact ⟨json, hl, by simp [readHandle, takeHandle]⟩
    | some err =>
      obtain ⟨_, -, h⟩ := Option.bind_eq_some_iff.mp h
      cases h

end Decoding

/-- For every 64-bit integer and every way it gets into a document (set in an object, set in
an array, pushed, or decoded from its decimal text), the getter writes its decimal text back
if and only if it is above `-10 ^ 18`: below that the text has twenty bytes, and
`char result[20]` cuts the last digit off. -/
theorem int64_roundTrip_iff (E : Host) (hcopy : E.CopiesWhole) {s : State}
    (hs : (system E).Reachable s) {v : ℤ} (hlo : -2 ^ 63 ≤ v) (hhi : v < 2 ^ 63)
    {maxlength : ℕ} (hmax : 21 ≤ maxlength) :
    (∀ hndl o es key, readHandle hndl s.handles = some (.node o) →
      Store.read s.heap (.node o) = some (some (.object es)) → utf8CheckString key = true →
      ∃ s', setObjectInt64Value E s hndl key (decimal v) = some (s', .bool true) ∧
        (getObjectInt64Value E s' maxlength hndl key = some (s', .text (decimal v)) ↔
          -10 ^ 18 < v)) ∧
    (∀ hndl a t index, readHandle hndl s.handles = some (.node a) →
      Store.read s.heap (.node a) = some (some (.array t)) → toSize index < t.length →
      ∃ s', setArrayInt64Value E s hndl index (decimal v) = some (s', .bool true) ∧
        (getArrayInt64Value E s' maxlength hndl index = some (s', .text (decimal v)) ↔
          -10 ^ 18 < v)) ∧
    (∀ hndl a t index, readHandle hndl s.handles = some (.node a) →
      Store.read s.heap (.node a) = some (some (.array t)) → toSize index = t.length →
      ∃ s', pushArrayInt64Value E s hndl (decimal v) = some (s', .bool true) ∧
        (getArrayInt64Value E s' maxlength hndl index = some (s', .text (decimal v)) ↔
          -10 ^ 18 < v)) ∧
    (∀ strtod rest, (∀ b ∈ rest.head?, isDigit b = false ∧ b ≠ 46 ∧ b ≠ 69 ∧ b ≠ 101) →
      lexScanNumber strtod false (decimal v ++ rest) = some (.integer v, rest)) ∧
    (∀ d ms key hndl s', d.text = .object ms → ms.last key = some (.integer v) →
      fromString E s d none = some (s', .handle hndl) →
      (getObjectInt64Value E s' maxlength hndl key = some (s', .text (decimal v)) ↔
        -10 ^ 18 < v)) ∧
    (∀ d is index hndl s', d.text = .array is → is.get? (toSize index) = some (.integer v) →
      fromString E s d none = some (s', .handle hndl) →
      (getArrayInt64Value E s' maxlength hndl index = some (s', .text (decimal v)) ↔
        -10 ^ 18 < v)) ∧
    (∀ hndl o key, readHandle hndl s.handles = some (.node o) →
      ObjectSlot s.heap o key (.integer v) →
      (getObjectInt64Value E s maxlength hndl key = some (s, .text (decimal v)) ↔
        -10 ^ 18 < v)) ∧
    ∀ hndl a index, readHandle hndl s.handles = some (.node a) →
      ArraySlot s.heap a (toSize index) (.integer v) →
      (getArrayInt64Value E s maxlength hndl index = some (s, .text (decimal v)) ↔
        -10 ^ 18 < v) := by
  have hb := reachable_balanced hs
  refine ⟨fun hndl o es key hj hread hkey => ?_, fun hndl a t index hj hread hindex => ?_,
    fun hndl a t index hj hread hindex => ?_, fun strtod rest hrest => ?_,
    fun d ms key hndl s' hd hlast hfrom => ?_, fun d is index hndl s' hd hget hfrom => ?_,
    fun hndl o key hj hslot => ?_, fun hndl a index hj hslot => ?_⟩
  · obtain ⟨s', hset, hhandles, hslot⟩ := setObjectInt64Value_slot hb hlo hhi hj hread hkey
    exact ⟨s', hset, getObjectInt64Value_iff hcopy hmax hlo hhi (hhandles ▸ hj) hslot⟩
  · obtain ⟨s', hset, hhandles, hslot⟩ := setArrayInt64Value_slot hb hlo hhi hj hread hindex
    exact ⟨s', hset, getArrayInt64Value_iff hcopy hmax hlo hhi (hhandles ▸ hj) hslot⟩
  · obtain ⟨s', hset, hhandles, hslot⟩ := pushArrayInt64Value_slot hb hlo hhi hj hread
    rw [← hindex] at hslot
    exact ⟨s', hset, getArrayInt64Value_iff hcopy hmax hlo hhi (hhandles ▸ hj) hslot⟩
  · exact lexScanNumber_decimal strtod hlo hhi hrest
  · obtain ⟨json, hl, hj⟩ := fromText_handle hfrom
    obtain ⟨rfl, hslot⟩ := jsonLoads_object hb hd hl hlast rfl
    exact getObjectInt64Value_iff hcopy hmax hlo hhi hj hslot
  · obtain ⟨json, hl, hj⟩ := fromText_handle hfrom
    obtain ⟨rfl, hslot⟩ := jsonLoads_array hb hd hl hget rfl
    exact getArrayInt64Value_iff hcopy hmax hlo hhi hj hslot
  · exact getObjectInt64Value_iff hcopy hmax hlo hhi hj hslot
  · exact getArrayInt64Value_iff hcopy hmax hlo hhi hj hslot

theorem plainHost_copiesWhole : plainHost.CopiesWhole := fun _ _ h =>
  List.take_of_length_le (Nat.le_sub_one_of_lt h)

/-- The value of the repository's test comes back in full from a new object. -/
theorem int64_roundTrip_testValue : ∃ s s',
    (system plainHost).run .empty [.createObject none] = some s ∧
    setObjectInt64Value plainHost s 1 [97] (decimal 9223372036854775800) =
      some (s', .bool true) ∧
    getObjectInt64Value plainHost s' 21 1 [97] =
      some (s', .text (decimal 9223372036854775800)) := by
  have hrun : ((system plainHost).run .empty [.createObject none]).map (fun s =>
      (readHandle 1 s.handles, Store.read s.heap (.node 0))) =
        some (some (.node 0), some (some (.object []))) := by decide
  obtain ⟨s, hs, hstate⟩ := Option.map_eq_some_iff.mp hrun
  obtain ⟨hj, hread⟩ := Prod.mk.inj hstate
  obtain ⟨hobject, -⟩ := int64_roundTrip_iff plainHost plainHost_copiesWhole ⟨_, hs⟩
    (v := 9223372036854775800) (by norm_num) (by norm_num) (le_refl 21)
  obtain ⟨s', hset, hget⟩ := hobject 1 0 [] [97] hj hread (by decide)
  exact ⟨s, s', hs, hset, hget.mpr (by norm_num)⟩

/-- The smallest 64-bit integer is set in an object, and comes back without its last digit. -/
theorem int64_roundTrip_min_fails : ∃ s,
    (system plainHost).run .empty
      [.createObject none, .setObject 1 [97] (.int64 (decimal (-2 ^ 63)))] = some s ∧
    (getObjectInt64Value plainHost s 64 1 [97]).map (·.2) =
      some (.text (decimal (-922337203685477580))) ∧
    getObjectInt64Value plainHost s 64 1 [97] ≠ some (s, .text (decimal (-2 ^ 63))) := by
  have hrun : ((system plainHost).run .empty
      [.createObject none, .setObject 1 [97] (.int64 (decimal (-2 ^ 63)))]).map (fun s =>
        (getObjectInt64Value plainHost s 64 1 [97]).map (·.2)) =
          some (some (.text (decimal (-922337203685477580)))) := by decide
  obtain ⟨s, hs, hget⟩ := Option.map_eq_some_iff.mp hrun
  refine ⟨s, hs, hget, fun hfull => ?_⟩
  rw [hfull] at hget
  have hsame : decimal (-2 ^ 63) = decimal (-922337203685477580) :=
    Outcome.text.inj (Option.some.inj hget)
  exact absurd hsame (by decide)

end RipExt.Json
