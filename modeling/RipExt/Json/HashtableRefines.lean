import RipExt.Json.Hashtable

/-! The invariant of the table of `hashtable.c`, and its refinement to the list of entries. -/
namespace RipExt.Json
open Ring

/-- How the ring of the pairs is cut into the segments of the buckets. -/
structure Layout where
  indices : List ℕ
  segment : ℕ → List ℕ

namespace Layout
variable (L : Layout)

def ring : List ℕ := L.indices.flatMap L.segment

/-- A segment that is empty is opened at the end of the ring. -/
def insert (i id : ℕ) : Layout where
  indices := if L.segment i = [] then L.indices.filter (· ≠ i) ++ [i] else L.indices
  segment := Function.update L.segment i (id :: L.segment i)

def remove (i id : ℕ) : Layout where
  indices := L.indices
  segment := Function.update L.segment i ((L.segment i).erase id)

variable {L} {i id : ℕ}

theorem flatMap_filter_of_nil {is : List ℕ} (h : L.segment i = []) :
    (is.filter (· ≠ i)).flatMap L.segment = is.flatMap L.segment := by
  induction is with
  | nil => rfl
  | cons j is ih =>
    by_cases hj : j = i
    · rw [List.filter_cons_of_neg (by simp [hj]), ih, List.flatMap_cons, hj, h, List.nil_append]
    · rw [List.filter_cons_of_pos (by simp [hj]), List.flatMap_cons, List.flatMap_cons, ih]

theorem flatMap_update_of_notMem {is : List ℕ} (h : i ∉ is) (s : List ℕ) :
    is.flatMap (Function.update L.segment i s) = is.flatMap L.segment := by
  refine List.flatMap_congr fun j hj => ?_
  have hne : j ≠ i := fun heq => h (heq ▸ hj)
  exact Function.update_of_ne hne _ _

/-- One segment of the ring, and what stands around it. -/
theorem exists_ring_eq (hnodup : L.indices.Nodup) (hi : i ∈ L.indices) :
    ∃ before after, ∀ s, L.indices.flatMap (Function.update L.segment i s) =
      before ++ (s ++ after) := by
  obtain ⟨is, js, heq⟩ := List.append_of_mem hi
  rw [heq] at hnodup
  obtain ⟨-, hjs, hdisj⟩ := List.nodup_append.mp hnodup
  have his : i ∉ is := fun h => hdisj i h i List.mem_cons_self rfl
  refine ⟨is.flatMap L.segment, js.flatMap L.segment, fun s => ?_⟩
  rw [heq, List.flatMap_append, List.flatMap_cons, flatMap_update_of_notMem his,
    flatMap_update_of_notMem (List.nodup_cons.mp hjs).1, Function.update_self]

theorem exists_ring_split (hnodup : L.indices.Nodup) (hi : i ∈ L.indices) :
    ∃ before after, L.ring = before ++ (L.segment i ++ after) ∧
      ∀ s, L.indices.flatMap (Function.update L.segment i s) = before ++ (s ++ after) := by
  obtain ⟨before, after, h⟩ := exists_ring_eq hnodup hi
  refine ⟨before, after, ?_, h⟩
  rw [← h, Function.update_eq_self]
  rfl

/-- Where a new pair stands in the ring: at its end if its segment is empty. -/
theorem ring_insert_of_nil (h : L.segment i = []) : (L.insert i id).ring = L.ring ++ [id] := by
  have hni : i ∉ L.indices.filter (· ≠ i) := by simp
  rw [ring, insert]
  simp only [h, if_true]
  rw [List.flatMap_append, flatMap_update_of_notMem hni, flatMap_filter_of_nil h]
  simp [ring]

theorem segment_remove_self : (L.remove i id).segment i = (L.segment i).erase id :=
  Function.update_self _ _ _

theorem segment_remove_of_ne {j : ℕ} (hj : j ≠ i) : (L.remove i id).segment j = L.segment j :=
  Function.update_of_ne hj _ _

theorem segment_insert_self : (L.insert i id).segment i = id :: L.segment i :=
  Function.update_self _ _ _

theorem segment_insert_of_ne {j : ℕ} (hj : j ≠ i) : (L.insert i id).segment j = L.segment j :=
  Function.update_of_ne hj _ _

theorem mem_segment_insert {j n : ℕ} :
    n ∈ (L.insert i id).segment j ↔ n = id ∧ j = i ∨ n ∈ L.segment j := by
  by_cases hj : j = i
  · subst hj
    simp [segment_insert_self]
  · simp [segment_insert_of_ne hj, hj]

theorem insert_indices_nodup (h : L.indices.Nodup) : (L.insert i id).indices.Nodup := by
  unfold insert
  dsimp only
  split_ifs
  · refine List.nodup_append.mpr ⟨h.filter _, List.nodup_singleton i, ?_⟩
    intro j hj k hk
    rw [List.mem_singleton.mp hk]
    simpa using (List.mem_filter.mp hj).2
  · exact h

theorem mem_insert_indices (hi : L.segment i ≠ [] → i ∈ L.indices) {j : ℕ} :
    j ∈ (L.insert i id).indices ↔ j = i ∨ j ∈ L.indices := by
  unfold insert
  dsimp only
  split_ifs with hs
  · by_cases hj : j = i <;> simp [hj]
  · constructor
    · exact .inr
    · rintro (rfl | hj)
      · exact hi hs
      · exact hj

end Layout

/-- The ring of the table and its buckets are those of a layout. -/
structure Hashtable.Segmented (T : Hashtable) (L : Layout) : Prop where
  indices : L.indices.Nodup
  mem_indices : ∀ i, L.segment i ≠ [] → i ∈ L.indices
  buckets : ∀ i, T.buckets i = ⟨(L.segment i).head?, (L.segment i).getLast?⟩
  ring : T.list.Holds none (L.ring.map some)

namespace Hashtable.Segmented
variable {T : Hashtable} {L : Layout} {i id : ℕ}

theorem bucketIsEmpty_iff (h : T.Segmented L) (i : ℕ) :
    bucketIsEmpty (T.buckets i) = true ↔ L.segment i = [] := by
  rw [h.buckets, bucketIsEmpty]
  cases L.segment i <;> simp

theorem mem_ring (h : T.Segmented L) : id ∈ L.ring ↔ ∃ i, id ∈ L.segment i := by
  constructor
  · intro hid
    obtain ⟨i, -, hi⟩ := List.mem_flatMap.mp hid
    exact ⟨i, hi⟩
  · rintro ⟨i, hi⟩
    exact List.mem_flatMap.mpr ⟨i, h.mem_indices i (List.ne_nil_of_mem hi), hi⟩

theorem ring_nodup (h : T.Segmented L) : L.ring.Nodup :=
  (List.nodup_cons.mp h.ring.nodup).2.of_map _

/-- Where the links of a new pair go. -/
theorem insertToBucket_list (T : Hashtable) (i id : ℕ) :
    (T.insertToBucket i (some id)).list =
      T.list.insert (if bucketIsEmpty (T.buckets i) then none else (T.buckets i).first)
        (some id) := by
  unfold insertToBucket
  split_ifs <;> rfl

theorem insertToBucket_buckets (h : T.Segmented L) (i id j : ℕ) :
    (T.insertToBucket i (some id)).buckets j =
      ⟨((L.insert i id).segment j).head?, ((L.insert i id).segment j).getLast?⟩ := by
  by_cases hj : j = i
  · subst hj
    have hempty := h.bucketIsEmpty_iff j
    rw [Layout.segment_insert_self, Hashtable.insertToBucket]
    cases hs : L.segment j with
    | nil =>
      rw [if_pos (hempty.mpr hs)]
      exact Function.update_self _ _ _
    | cons x xs =>
      rw [if_neg (by rw [hempty, hs]; simp)]
      simp [h.buckets, hs]
  · rw [Layout.segment_insert_of_ne hj, ← h.buckets j]
    unfold Hashtable.insertToBucket
    split_ifs <;> exact Function.update_of_ne hj _ _

/-- `insert_to_bucket` puts a pair at the start of its segment. -/
theorem insertToBucket (h : T.Segmented L) (hid : id ∉ L.ring) :
    (T.insertToBucket i (some id)).Segmented (L.insert i id) := by
  refine ⟨Layout.insert_indices_nodup h.indices, fun j hj => ?_, h.insertToBucket_buckets i id, ?_⟩
  · rw [Layout.mem_insert_indices (h.mem_indices i)]
    by_cases hji : j = i
    · exact .inl hji
    · rw [Layout.segment_insert_of_ne hji] at hj
      exact .inr (h.mem_indices j hj)
  have hfresh : some id ∉ none :: L.ring.map some := by simpa using hid
  have hold := h.ring
  have hempty := h.bucketIsEmpty_iff i
  rw [insertToBucket_list]
  by_cases hs : L.segment i = []
  · rw [if_pos (hempty.mpr hs), Layout.ring_insert_of_nil hs, List.map_append]
    rw [← List.append_nil (L.ring.map some)] at hold hfresh
    exact hold.insert hfresh
  · obtain ⟨before, after, hring, hupdate⟩ :=
      Layout.exists_ring_split h.indices (h.mem_indices i hs)
    have hnew : (L.insert i id).ring = before ++ id :: (L.segment i ++ after) := by
      rw [Layout.ring, show (L.insert i id).indices = L.indices from if_neg hs]
      exact hupdate (id :: L.segment i)
    have hhead : (T.buckets i).first = ((L.segment i ++ after).map some).headD none := by
      rw [h.buckets]
      obtain ⟨x, xs, hx⟩ := List.exists_cons_of_ne_nil hs
      rw [hx]
      rfl
    rw [if_neg (fun hb => hs (hempty.mp hb)), hnew, List.map_append, List.map_cons, hhead]
    rw [hring, List.map_append] at hold hfresh
    exact hold.insert hfresh

/-- The pairs that are not linked in yet still lead to each other. -/
theorem insertToBucket_leads (h : T.Segmented L) {rest : List ℕ}
    (hleads : T.list.Leads (rest.map some) none) (hid : id ∉ L.ring) (hrest : id ∉ rest)
    (hdisj : ∀ n ∈ rest, n ∉ L.ring) :
    (T.insertToBucket i (some id)).list.Leads (rest.map some) none := by
  have htarget : (if bucketIsEmpty (T.buckets i) then none else (T.buckets i).first) ∈
      none :: L.ring.map some := by
    split_ifs with hempty
    · exact List.mem_cons_self
    · rw [h.buckets]
      cases hs : L.segment i with
      | nil => exact List.mem_cons_self
      | cons x xs =>
        refine List.mem_cons_of_mem _ (List.mem_map_of_mem ?_)
        exact h.mem_ring.mpr ⟨i, by rw [hs]; exact List.mem_cons_self⟩
  rw [insertToBucket_list]
  refine hleads.insert ?_ (by simpa using hrest) ?_
  · intro heq
    rw [← heq] at htarget
    simp [hid] at htarget
  · intro hmem
    have hprev := h.ring.prev_mem htarget
    obtain ⟨n, hn, heq⟩ := List.mem_map.mp hmem
    rw [← heq] at hprev
    simp [hdisj n hn] at hprev

theorem segment_nodup (h : T.Segmented L) (i : ℕ) : (L.segment i).Nodup := by
  by_cases hs : L.segment i = []
  · rw [hs]
    exact List.nodup_nil
  · obtain ⟨before, after, hring, -⟩ := Layout.exists_ring_split h.indices (h.mem_indices i hs)
    have hnodup := h.ring_nodup
    rw [hring] at hnodup
    exact (List.nodup_append.mp (List.nodup_append.mp hnodup).2.1).1

theorem erase_eq {l₁ l₂ : List ℕ} (h : T.Segmented L) (hs : L.segment i = l₁ ++ id :: l₂) :
    (L.segment i).erase id = l₁ ++ l₂ := by
  have hnodup := h.segment_nodup i
  rw [hs] at hnodup
  have hid : id ∉ l₁ := fun hl => (List.nodup_append.mp hnodup).2.2 _ hl _ List.mem_cons_self rfl
  rw [hs, List.erase_append_right _ hid, List.erase_cons_head]

/-- A bucket after it has lost one of its pairs. -/
theorem unlinkBucket_eq {l₁ l₂ : List ℕ} (h : T.Segmented L)
    (hs : L.segment i = l₁ ++ id :: l₂) :
    T.unlinkBucket (T.buckets i) id = ⟨(l₁ ++ l₂).head?, (l₁ ++ l₂).getLast?⟩ := by
  have hne : L.segment i ≠ [] := by simp [hs]
  obtain ⟨before, after, hring, -⟩ := Layout.exists_ring_split h.indices (h.mem_indices i hne)
  have hnodup := h.segment_nodup i
  rw [hs] at hnodup
  obtain ⟨-, hl₂, hdisj⟩ := List.nodup_append.mp hnodup
  have hid₁ : id ∉ l₁ := fun hmem => hdisj id hmem id List.mem_cons_self rfl
  have hid₂ : id ∉ l₂ := (List.nodup_cons.mp hl₂).1
  have hmid : T.list.Holds none ((before ++ l₁).map some ++ some id :: (l₂ ++ after).map some) := by
    have hold := h.ring
    rw [hring, hs] at hold
    simpa using hold
  rw [unlinkBucket, h.buckets, hs]
  have hfirst : some id = (l₁ ++ id :: l₂).head? ↔ l₁ = [] := by
    cases l₁ with
    | nil => simp
    | cons x xs =>
      have hx : id ≠ x := fun heq => hid₁ (by simp [heq])
      simp [hx]
  have hlast : some id = (l₁ ++ id :: l₂).getLast? ↔ l₂ = [] := by
    cases l₂ with
    | nil => simp
    | cons y ys =>
      refine ⟨fun heq => absurd (List.mem_of_getLast? ?_) hid₂, by simp⟩
      rw [heq, List.getLast?_append_of_ne_nil _ (by simp), List.getLast?_cons_cons]
  have hnext : T.list.next (some id) = ((l₂ ++ after).map some).headD none := hmid.next_mid
  have hprev : T.list.prev (some id) = ((before ++ l₁).map some).getLastD none := hmid.prev_mid
  by_cases h₁ : l₁ = []
  · by_cases h₂ : l₂ = []
    · simp [h₁, h₂]
    · obtain ⟨y, ys, rfl⟩ := List.exists_cons_of_ne_nil h₂
      rw [if_neg (fun hand => h₂ (hlast.mp hand.2)), if_pos (hfirst.mpr h₁), hnext, h₁]
      simp
  · rw [if_neg (fun hand => h₁ (hfirst.mp hand.1)), if_neg fun heq => h₁ (hfirst.mp heq)]
    have hhead (l : List ℕ) : (l₁ ++ l).head? = l₁.head? := List.head?_append_of_ne_nil _ h₁
    by_cases h₂ : l₂ = []
    · rw [if_pos (hlast.mpr h₂), hprev, hhead, hhead, h₂, List.append_nil, List.map_append]
      rcases List.eq_nil_or_concat l₁ with rfl | ⟨xs, x, rfl⟩
      · exact absurd rfl h₁
      · simp
    · rw [if_neg fun heq => h₂ (hlast.mp heq), hhead, hhead,
        List.getLast?_append_of_ne_nil _ (by simp), List.getLast?_append_of_ne_nil _ h₂]
      obtain ⟨y, ys, rfl⟩ := List.exists_cons_of_ne_nil h₂
      rw [List.getLast?_cons_cons]

/-- The segment of a pair loses it. -/
theorem unlinkPair (h : T.Segmented L) (hid : id ∈ L.segment i) :
    (T.unlinkPair i id).Segmented (L.remove i id) := by
  have hne := List.ne_nil_of_mem hid
  obtain ⟨l₁, l₂, hs⟩ := List.append_of_mem hid
  obtain ⟨before, after, hring, hupdate⟩ :=
    Layout.exists_ring_split h.indices (h.mem_indices i hne)
  have herase := h.erase_eq hs
  refine ⟨h.indices, fun j hj => ?_, fun j => ?_, ?_⟩
  · by_cases hji : j = i
    · rw [hji]
      exact h.mem_indices i hne
    · rw [Layout.segment_remove_of_ne hji] at hj
      exact h.mem_indices j hj
  · by_cases hji : j = i
    · subst hji
      rw [Layout.segment_remove_self, herase, ← h.unlinkBucket_eq hs]
      exact Function.update_self _ _ _
    · rw [Layout.segment_remove_of_ne hji, ← h.buckets j]
      exact Function.update_of_ne hji _ _
  · have hold := h.ring
    rw [hring, hs] at hold
    have hmid : T.list.Holds none
        ((before ++ l₁).map some ++ some id :: (l₂ ++ after).map some) := by
      simpa using hold
    rw [Layout.ring, Layout.remove, hupdate, herase]
    simpa [Hashtable.unlinkPair] using hmid.remove

end Hashtable.Segmented

section Walks
variable {T : Hashtable} {L : Layout} {key : Bytes} {hash i : ℕ} {ids : List ℕ}

/-- What `hashtable_find_pair` compares. -/
def Hashtable.matches (T : Hashtable) (key : Bytes) (hash id : ℕ) : Bool :=
  (T.pairs id).any fun pair => pair.hash = hash ∧ pair.key = key

/-- The loop goes from the first to the last pair of a bucket, and stops at the pair of the key. -/
theorem Hashtable.findLoop_eq {after : List Address} (hne : ids ≠ []) (hnodup : ids.Nodup)
    (hpairs : ∀ id ∈ ids, (T.pairs id).isSome)
    (hleads : T.list.Leads (ids.map some ++ after) none) {fuel : ℕ} (hfuel : ids.length ≤ fuel) :
    T.findLoop ids.getLast? key hash fuel ids.head? = some (ids.find? (T.matches key hash)) := by
  induction ids generalizing fuel with
  | nil => exact absurd rfl hne
  | cons id ids ih =>
    obtain ⟨fuel, rfl⟩ : ∃ n, fuel = n + 1 := ⟨fuel - 1, by simp at hfuel; omega⟩
    obtain ⟨pair, hpair⟩ := Option.isSome_iff_exists.mp (hpairs id List.mem_cons_self)
    have hmatch : T.matches key hash id = decide (pair.hash = hash ∧ pair.key = key) := by
      simp [Hashtable.matches, hpair]
    rw [List.head?_cons, findLoop, Option.bind_some, hpair, Option.bind_some, List.find?_cons,
      hmatch]
    by_cases hp : pair.hash = hash ∧ pair.key = key
    · simp [hp]
    · rw [if_neg hp, decide_eq_false hp]
      cases ids with
      | nil => simp
      | cons id' ids =>
        have hlast : some id ≠ (id :: id' :: ids).getLast? := by
          rw [List.getLast?_cons_cons]
          intro heq
          exact (List.nodup_cons.mp hnodup).1 (List.mem_of_getLast? heq.symm)
        have hnext : T.list.next (some id) = some id' := hleads.1
        rw [if_neg hlast, hnext]
        refine ih (by simp) (List.nodup_cons.mp hnodup).2 (fun n hn => ?_) hleads.2 ?_
        · exact hpairs n (List.mem_cons_of_mem id hn)
        · simpa using hfuel

theorem Hashtable.Segmented.findPair_eq (h : T.Segmented L)
    (hpairs : ∀ id ∈ L.segment i, (T.pairs id).isSome) (hsize : L.ring.length ≤ T.size) :
    T.findPair (T.buckets i) key hash = some ((L.segment i).find? (T.matches key hash)) := by
  rw [findPair]
  by_cases hs : L.segment i = []
  · rw [if_pos ((h.bucketIsEmpty_iff i).mpr hs), hs]
    rfl
  · obtain ⟨before, after, hring, -⟩ := Layout.exists_ring_split h.indices (h.mem_indices i hs)
    have hleads := h.ring.leads
    rw [hring, List.map_append] at hleads
    rw [hring, List.length_append, List.length_append] at hsize
    rw [if_neg fun hb => hs ((h.bucketIsEmpty_iff i).mp hb), h.buckets]
    have hleads' := hleads.append
    rw [List.map_append] at hleads'
    exact findLoop_eq hs (h.segment_nodup i) hpairs hleads' (by omega)

/-- The loop of `hashtable_do_clear` drops and frees what the ring leads through. -/
theorem Hashtable.clearLoop_eq {es : List Entry} (dropped : List Ref) (fuel : ℕ)
    (hpairs : ∀ e ∈ es, ∃ pair, T.pairs e.id = some pair ∧ pair.value = e.value)
    (hnodup : (es.map (·.id)).Nodup)
    (hleads : T.list.Leads ((es.map (·.id)).map some) none) (hfuel : es.length < fuel) :
    ∃ pairs, T.clearLoop fuel (((es.map (·.id)).map some).headD none) dropped =
        some (dropped ++ es.map (·.value), { T with pairs }) ∧
      ∀ id, pairs id = if id ∈ es.map (·.id) then none else T.pairs id := by
  induction es generalizing T fuel dropped with
  | nil =>
    obtain ⟨fuel, rfl⟩ : ∃ n, fuel = n + 1 := ⟨fuel - 1, by simp at hfuel; omega⟩
    exact ⟨T.pairs, by simp [clearLoop], by simp⟩
  | cons e es ih =>
    obtain ⟨fuel, rfl⟩ : ∃ n, fuel = n + 1 := ⟨fuel - 1, by simp at hfuel; omega⟩
    obtain ⟨pair, hpair, hvalue⟩ := hpairs e List.mem_cons_self
    obtain ⟨he, hnodup⟩ := List.nodup_cons.mp hnodup
    have hrest : ∀ f ∈ es, ∃ pair, Function.update T.pairs e.id none f.id = some pair ∧
        pair.value = f.value := by
      intro f hf
      have hne : f.id ≠ e.id := fun heq => he (List.mem_map.mpr ⟨f, hf, heq⟩)
      rw [Function.update_of_ne hne]
      exact hpairs f (List.mem_cons_of_mem e hf)
    obtain ⟨pairs, hloop, hfreed⟩ := ih (T := { T with pairs := Function.update T.pairs e.id none })
      (dropped ++ [pair.value]) fuel hrest hnodup hleads.2 (by simpa using hfuel)
    refine ⟨pairs, ?_, fun id => ?_⟩
    · rw [List.map_cons, List.map_cons, List.headD_cons, clearLoop, hpair, Option.bind_some,
        hleads.1, hloop, hvalue]
      simp
    · rw [hfreed id]
      by_cases hid : id = e.id
      · simp [hid]
      · simp [hid]

/-- The loop of `hashtable_do_rehash` moves what the old ring leads through into the new segments,
and touches nothing else. -/
theorem Hashtable.rehashLoop_eq (index : ℕ → ℕ) (ids : List ℕ) (fuel : ℕ) (h : T.Segmented L)
    (hpairs : ∀ id ∈ ids, ∃ pair, T.pairs id = some pair ∧ pair.hash % 2 ^ T.order = index id)
    (hnodup : ids.Nodup) (hdisj : ∀ id ∈ ids, id ∉ L.ring)
    (hleads : T.list.Leads (ids.map some) none) (hfuel : ids.length < fuel) :
    ∃ T' L', T.rehashLoop fuel ((ids.map some).headD none) = some T' ∧ T'.Segmented L' ∧
      (∀ i id, id ∈ L'.segment i ↔ id ∈ ids ∧ index id = i ∨ id ∈ L.segment i) ∧
      T' = { T with list := T'.list, buckets := T'.buckets } := by
  induction ids generalizing T L fuel with
  | nil =>
    obtain ⟨fuel, rfl⟩ : ∃ n, fuel = n + 1 := ⟨fuel - 1, by simp at hfuel; omega⟩
    exact ⟨T, L, rfl, h, by simp, rfl⟩
  | cons id ids ih =>
    obtain ⟨fuel, rfl⟩ : ∃ n, fuel = n + 1 := ⟨fuel - 1, by simp at hfuel; omega⟩
    obtain ⟨pair, hpair, hindex⟩ := hpairs id List.mem_cons_self
    obtain ⟨hid, hnodup⟩ := List.nodup_cons.mp hnodup
    have hnew := hdisj id List.mem_cons_self
    have hsame := T.insertToBucket_eq (index id) (some id)
    have hseg := h.insertToBucket (i := index id) hnew
    have hring : ∀ n ∈ ids, n ∉ (L.insert (index id) id).ring := by
      intro n hn hmem
      obtain ⟨i, hi⟩ := hseg.mem_ring.mp hmem
      rcases Layout.mem_segment_insert.mp hi with ⟨rfl, -⟩ | hi
      · exact hid hn
      · exact hdisj n (List.mem_cons_of_mem id hn) (h.mem_ring.mpr ⟨i, hi⟩)
    have hleads' : (T.insertToBucket (index id) (some id)).list.Leads (ids.map some) none :=
      h.insertToBucket_leads hleads.2 hnew hid fun n hn => hdisj n (List.mem_cons_of_mem id hn)
    have hrest : ∀ n ∈ ids, ∃ pair, (T.insertToBucket (index id) (some id)).pairs n = some pair ∧
        pair.hash % 2 ^ (T.insertToBucket (index id) (some id)).order = index n := by
      rw [hsame]
      exact fun n hn => hpairs n (List.mem_cons_of_mem id hn)
    obtain ⟨T', L', hloop, hseg', hmem, heq⟩ :=
      ih fuel hseg hrest hnodup hring hleads' (by simpa using hfuel)
    refine ⟨T', L', ?_, hseg', fun i n => ?_, ?_⟩
    · rw [List.map_cons, List.headD_cons, rehashLoop, hpair, Option.bind_some, hindex, hleads.1]
      exact hloop
    · rw [hmem, Layout.mem_segment_insert, List.mem_cons]
      constructor
      · rintro (⟨hn, rfl⟩ | ⟨rfl, rfl⟩ | hn)
        · exact .inl ⟨.inr hn, rfl⟩
        · exact .inl ⟨.inl rfl, rfl⟩
        · exact .inr hn
      · rintro (⟨rfl | hn, rfl⟩ | hn)
        · exact .inr (.inl ⟨rfl, rfl⟩)
        · exact .inl ⟨hn, rfl⟩
        · exact .inr (.inr hn)
    · rw [heq, hsame]

end Walks

section Entries
variable {key : Bytes} {v : Ref} {es before after : List Entry} {e : Entry} {iter : ℕ}

/-- Nothing before the entry has its key. -/
theorem exists_of_find (h : es.find? (fun e => e.key = key) = some e) :
    e.key = key ∧ ∃ before after, es = before ++ e :: after ∧ ∀ f ∈ before, f.key ≠ key := by
  obtain ⟨hkey, before, after, heq, hbefore⟩ := List.find?_eq_some_iff_append.mp h
  exact ⟨by simpa using hkey, before, after, heq, fun f hf => by simpa using hbefore f hf⟩

theorem unlink_append (hkey : e.key = key) (hbefore : ∀ f ∈ before, f.key ≠ key) :
    unlink key (before ++ e :: after) = some (e.value, before ++ after) := by
  induction before with
  | nil => simp [unlink, hkey]
  | cons f before ih =>
    rw [List.cons_append, unlink, if_neg (hbefore f List.mem_cons_self),
      ih fun g hg => hbefore g (List.mem_cons_of_mem f hg)]
    rfl

theorem unlink_eq_none (h : es.find? (fun e => e.key = key) = none) : unlink key es = none := by
  induction es with
  | nil => rfl
  | cons e es ih =>
    rw [List.find?_eq_none, List.forall_mem_cons] at h
    rw [unlink, if_neg (by simpa using h.1), ih (List.find?_eq_none.mpr h.2)]
    rfl

theorem replaceAt_append (hid : e.id = iter) (hbefore : ∀ f ∈ before, f.id ≠ iter) :
    EntryTable.replaceAt iter v (before ++ e :: after) =
      some (e.value, before ++ { e with value := v } :: after) := by
  induction before with
  | nil => simp [EntryTable.replaceAt, hid]
  | cons f before ih =>
    rw [List.cons_append, EntryTable.replaceAt, if_neg (hbefore f List.mem_cons_self),
      ih fun g hg => hbefore g (List.mem_cons_of_mem f hg)]
    rfl

theorem replaceAt_eq_none (h : iter ∉ es.map (·.id)) : EntryTable.replaceAt iter v es = none := by
  induction es with
  | nil => rfl
  | cons e es ih =>
    rw [List.map_cons, List.mem_cons, not_or] at h
    rw [EntryTable.replaceAt, if_neg (Ne.symm h.1), ih h.2]
    rfl

end Entries

/-- The table holds the entries, each of them once in either ring and in the segment of its hash,
and no other pair is allocated. -/
structure Hashtable.Represents (hash : Bytes → ℕ) (T : Hashtable) (t : EntryTable) (L : Layout) :
    Prop extends T.Segmented L where
  order : T.order = t.order
  size : T.size = t.entries.length
  keys : (t.entries.map (·.key)).Nodup
  pairs : ∀ e ∈ t.entries, T.pairs e.id = some ⟨hash e.key, e.key, e.value⟩
  unused : ∀ id ∉ t.entries.map (·.id), T.pairs id = none
  ordered : T.orderedList.Holds none ((t.entries.map (·.id)).map some)
  segment : ∀ i id, id ∈ L.segment i ↔
    ∃ e ∈ t.entries, e.id = id ∧ hash e.key % 2 ^ t.order = i

namespace Hashtable.Represents
variable {hash : Bytes → ℕ} {T : Hashtable} {t : EntryTable} {L : Layout} {key : Bytes} {v : Ref}

theorem ids_nodup (h : T.Represents hash t L) : (t.entries.map (·.id)).Nodup :=
  (List.nodup_cons.mp h.ordered.nodup).2.of_map _

theorem ring_perm (h : T.Represents hash t L) : L.ring.Perm (t.entries.map (·.id)) := by
  rw [List.perm_ext_iff_of_nodup h.ring_nodup h.ids_nodup]
  intro id
  rw [h.mem_ring, List.mem_map]
  constructor
  · rintro ⟨i, hi⟩
    obtain ⟨e, he, hid, -⟩ := (h.segment i id).mp hi
    exact ⟨e, he, hid⟩
  · rintro ⟨e, he, rfl⟩
    exact ⟨_, (h.segment _ e.id).mpr ⟨e, he, rfl, rfl⟩⟩

theorem mem_ring_iff (h : T.Represents hash t L) {id : ℕ} :
    id ∈ L.ring ↔ id ∈ t.entries.map (·.id) := h.ring_perm.mem_iff

theorem eq_of_key (h : T.Represents hash t L) {e f : Entry} (he : e ∈ t.entries)
    (hf : f ∈ t.entries) (hkey : e.key = f.key) : e = f :=
  List.inj_on_of_nodup_map h.keys he hf hkey

/-- `hashtable_find_pair` finds the pair of a key, if the key has one. -/
theorem find_eq (h : T.Represents hash t L) (key : Bytes) :
    T.find hash key = some ((t.entries.find? fun e => e.key = key).map (·.id)) := by
  have hsome : ∀ i, ∀ id ∈ L.segment i, (T.pairs id).isSome := by
    intro i id hid
    obtain ⟨e, he, rfl, -⟩ := (h.segment i id).mp hid
    rw [h.pairs e he]
    rfl
  have hlength : L.ring.length ≤ T.size := by
    rw [h.ring_perm.length_eq, h.size, List.length_map]
  rw [find, bucketOf, h.findPair_eq (hsome _) hlength, Option.some_inj, h.order]
  cases hf : t.entries.find? fun e => e.key = key with
  | none =>
    refine List.find?_eq_none.mpr fun id hid => ?_
    obtain ⟨e, he, rfl, -⟩ := (h.segment _ id).mp hid
    have hkey : e.key ≠ key := by simpa using List.find?_eq_none.mp hf e he
    simp [Hashtable.matches, h.pairs e he, hkey]
  | some e =>
    obtain ⟨hkey, hmem⟩ : e.key = key ∧ e ∈ t.entries :=
      ⟨(exists_of_find hf).1, List.mem_of_find?_eq_some hf⟩
    have hmatch : T.matches key (hash key) e.id = true := by
      simp [Hashtable.matches, h.pairs e hmem, hkey]
    have hseg : e.id ∈ L.segment (hash key % 2 ^ t.order) :=
      (h.segment _ e.id).mpr ⟨e, hmem, rfl, by rw [hkey]⟩
    obtain ⟨id, hid⟩ := Option.isSome_iff_exists.mp
      (List.find?_isSome.mpr ⟨e.id, hseg, hmatch⟩)
    rw [hid, Option.map_some]
    obtain ⟨f, hfmem, rfl, -⟩ := (h.segment _ id).mp (List.mem_of_find?_eq_some hid)
    have hfkey : f.key = key := by
      have hp := List.find?_some hid
      rw [Hashtable.matches, h.pairs f hfmem] at hp
      simpa using (of_decide_eq_true hp).2
    rw [h.eq_of_key hfmem hmem (hfkey.trans hkey.symm)]

/-- The pair of an entry is overwritten. -/
theorem overwrite_eq {before after : List Entry} {e : Entry} {order : ℕ}
    (h : T.Represents hash ⟨before ++ e :: after, order⟩ L) (v : Ref) :
    ∃ T', T.overwrite e.id v = some ([e.value], T') ∧
      T'.Represents hash ⟨before ++ { e with value := v } :: after, order⟩ L := by
  have hpair : T.pairs e.id = some ⟨hash e.key, e.key, e.value⟩ := h.pairs e (by simp)
  have hnodup := h.ids_nodup
  have hids : (before ++ { e with value := v } :: after).map (·.id) =
      (before ++ e :: after).map (·.id) := by simp
  refine ⟨{ T with pairs := Function.update T.pairs e.id (some ⟨hash e.key, e.key, v⟩) },
    by rw [overwrite, hpair]; rfl, ⟨h.indices, h.mem_indices, h.buckets, h.ring⟩, h.order, ?_, ?_, ?_, ?_, ?_, ?_⟩
  · simpa using h.size
  · simpa using h.keys
  · intro f hf
    by_cases hid : f.id = e.id
    · have heq : f = { e with value := v } := by
        refine List.inj_on_of_nodup_map (f := (·.id)) ?_ hf (by simp) hid
        rw [hids]
        exact hnodup
      rw [heq]
      exact Function.update_self _ _ _
    · refine (Function.update_of_ne hid _ _).trans (h.pairs f ?_)
      simp only [List.mem_append, List.mem_cons] at hf ⊢
      rcases hf with hf | rfl | hf
      · exact .inl hf
      · exact absurd rfl hid
      · exact .inr (.inr hf)
  · intro id hid
    rw [hids] at hid
    have hne : id ≠ e.id := fun heq => hid (by simp [heq])
    exact (Function.update_of_ne hne _ _).trans (h.unused id hid)
  · rw [hids]
    exact h.ordered
  · intro i id
    rw [h.segment]
    simp [or_and_right, exists_or]

/-- A new pair becomes the last entry. -/
theorem addPair (h : T.Represents hash t L) {id : ℕ} (hid : id ∉ t.entries.map (·.id))
    (hkey : key ∉ t.entries.map (·.key)) (v : Ref) :
    (T.addPair hash key v id).Represents hash
      { t with entries := t.entries ++ [⟨id, key, v⟩] }
      (L.insert (hash key % 2 ^ T.order) id) := by
  have hring : id ∉ L.ring := fun hmem => hid (h.mem_ring_iff.mp hmem)
  have hseg : Segmented { T with
      pairs := Function.update T.pairs id (some ⟨hash key, key, v⟩)
      list := T.list.init (some id)
      orderedList := T.orderedList.init (some id) } L :=
    ⟨h.indices, h.mem_indices, h.buckets, h.ring.init_of_notMem (by simpa using hring)⟩
  have hnew := hseg.insertToBucket (i := hash key % 2 ^ T.order) hring
  have hsame := insertToBucket_eq { T with
      pairs := Function.update T.pairs id (some ⟨hash key, key, v⟩)
      list := T.list.init (some id)
      orderedList := T.orderedList.init (some id) } (hash key % 2 ^ T.order) (some id)
  have hne : ∀ f ∈ t.entries, f.id ≠ id := fun f hf heq => hid (List.mem_map.mpr ⟨f, hf, heq⟩)
  unfold Hashtable.addPair
  dsimp only
  rw [hsame]
  rw [hsame] at hnew
  refine ⟨⟨hnew.indices, hnew.mem_indices, hnew.buckets, hnew.ring⟩, h.order, ?_, ?_, ?_, ?_, ?_,
    ?_⟩
  · simp [h.size]
  · rw [List.map_append]
    refine List.nodup_append.mpr ⟨h.keys, List.nodup_singleton _, ?_⟩
    rintro k hk k' hk' rfl
    exact hkey (by rwa [List.mem_singleton.mp hk'] at hk)
  · intro f hf
    rcases List.mem_append.mp hf with hf | hf
    · exact (Function.update_of_ne (hne f hf) _ _).trans (h.pairs f hf)
    · rw [List.mem_singleton.mp hf]
      exact Function.update_self _ _ _
  · intro n hn
    rw [List.map_append, List.mem_append, not_or] at hn
    have hnid : n ≠ id := fun heq => hn.2 (by simp [heq])
    exact (Function.update_of_ne hnid _ _).trans (h.unused n hn.1)
  · have hout : some id ∉ none :: (t.entries.map (·.id)).map some := by simpa using hid
    have hinit := h.ordered.init_of_notMem hout
    rw [← List.append_nil ((t.entries.map (·.id)).map some)] at hinit hout
    rw [List.map_append, List.map_append]
    exact hinit.insert hout
  · intro i n
    rw [Layout.mem_segment_insert, h.segment, h.order]
    constructor
    · rintro (⟨rfl, rfl⟩ | ⟨e, he, hen, hi⟩)
      · exact ⟨_, List.mem_append_right _ (List.mem_singleton_self _), rfl, rfl⟩
      · exact ⟨e, List.mem_append_left _ he, hen, hi⟩
    · rintro ⟨e, he, hen, hi⟩
      rcases List.mem_append.mp he with he | he
      · exact .inr ⟨e, he, hen, hi⟩
      · rw [List.mem_singleton.mp he] at hen hi
        exact .inl ⟨hen.symm, hi.symm⟩

/-- `hashtable_do_rehash` doubles the number of buckets and keeps the entries. -/
theorem doRehash_eq (h : T.Represents hash t L) :
    ∃ T' L', T.doRehash true = some (true, T') ∧
      T'.Represents hash { t with order := t.order + 1 } L' := by
  have hempty : Segmented { T with
      buckets := emptyBuckets, order := T.order + 1, list := T.list.init none } ⟨[], fun _ => []⟩ :=
    ⟨List.nodup_nil, by simp, fun _ => rfl, holds_init _ _⟩
  have hentry : ∀ id ∈ L.ring, ∃ e ∈ t.entries, e.id = id := fun id hid =>
    List.mem_map.mp (h.mem_ring_iff.mp hid)
  obtain ⟨T', L', hloop, hseg, hmem, hsame⟩ := rehashLoop_eq
    (fun id => ((T.pairs id).map fun p => p.hash % 2 ^ (T.order + 1)).getD 0) L.ring
    (T.size + 1) hempty
    (fun id hid => by
      obtain ⟨e, he, rfl⟩ := hentry id hid
      exact ⟨_, h.pairs e he, by rw [h.pairs e he]; rfl⟩)
    h.ring_nodup (by simp [Layout.ring])
    (h.ring.leads.congr fun c hc => by
      have hne : c ≠ none := by
        rintro rfl
        simp at hc
      exact Function.update_of_ne hne _ _)
    (by rw [h.ring_perm.length_eq, h.size, List.length_map]; omega)
  refine ⟨T', L', ?_, hseg, ?_, ?_, h.keys, ?_, ?_, ?_, fun i id => ?_⟩
  · rw [doRehash, if_pos rfl, h.ring.next_head, hloop]
    rfl
  · rw [hsame]
    show T.order + 1 = t.order + 1
    rw [h.order]
  · rw [hsame]
    exact h.size
  · rw [hsame]
    exact h.pairs
  · rw [hsame]
    exact h.unused
  · rw [hsame]
    exact h.ordered
  · rw [hmem]
    constructor
    · rintro (⟨hid, rfl⟩ | hid)
      · obtain ⟨e, he, rfl⟩ := hentry id hid
        exact ⟨e, he, rfl, by rw [h.pairs e he, h.order]; rfl⟩
      · cases hid
    · rintro ⟨e, he, rfl, rfl⟩
      refine .inl ⟨h.mem_ring_iff.mpr (List.mem_map_of_mem he), ?_⟩
      rw [h.pairs e he, h.order]
      rfl

/-- Unlinking the pair of an entry. -/
theorem unlinkPair {before after : List Entry} {e : Entry} {order : ℕ}
    (h : T.Represents hash ⟨before ++ e :: after, order⟩ L) :
    (T.unlinkPair (hash e.key % 2 ^ T.order) e.id).Represents hash ⟨before ++ after, order⟩
      (L.remove (hash e.key % 2 ^ T.order) e.id) := by
  have horder : T.order = order := h.order
  have hmem : e.id ∈ L.segment (hash e.key % 2 ^ T.order) :=
    (h.segment _ e.id).mpr ⟨e, by simp, rfl, by rw [horder]⟩
  have hids := h.ids_nodup
  simp only [List.map_append, List.map_cons] at hids
  have hout : e.id ∉ (before ++ after).map (·.id) := by
    rw [List.nodup_middle, List.nodup_cons, ← List.map_append] at hids
    exact hids.1
  have hother : ∀ f ∈ before ++ after, f ∈ before ++ e :: after := by
    intro f hf
    rcases List.mem_append.mp hf with hf | hf
    · exact List.mem_append_left _ hf
    · exact List.mem_append_right _ (List.mem_cons_of_mem e hf)
  have hne : ∀ f ∈ before ++ after, f.id ≠ e.id := fun f hf heq =>
    hout (List.mem_map.mpr ⟨f, hf, heq⟩)
  refine ⟨h.toSegmented.unlinkPair hmem, h.order, ?_, ?_, ?_, ?_, ?_, fun i id => ?_⟩
  · have hsize := h.size
    simp only [List.length_append, List.length_cons] at hsize ⊢
    show T.size - 1 = _
    omega
  · have hkeys := h.keys
    simp only [List.map_append, List.map_cons] at hkeys ⊢
    rw [List.nodup_middle] at hkeys
    exact (List.nodup_cons.mp hkeys).2
  · intro f hf
    exact (Function.update_of_ne (hne f hf) _ _).trans (h.pairs f (hother f hf))
  · intro id hid
    by_cases heq : id = e.id
    · rw [heq]
      exact Function.update_self _ _ _
    · refine (Function.update_of_ne heq _ _).trans (h.unused id fun hold => hid ?_)
      simpa [heq] using hold
  · have hold := h.ordered
    simp only [List.map_append, List.map_cons] at hold ⊢
    exact hold.remove
  · have hold := h.segment i id
    by_cases hi : i = hash e.key % 2 ^ T.order
    · rw [hi, Layout.segment_remove_self,
        (h.segment_nodup _).mem_erase_iff, ← hi, hold]
      constructor
      · rintro ⟨hid, f, hf, rfl, hfi⟩
        refine ⟨f, ?_, rfl, hfi⟩
        have hfe : f ≠ e := fun heq => hid (heq ▸ rfl)
        simpa [hfe] using hf
      · rintro ⟨f, hf, rfl, hfi⟩
        exact ⟨hne f hf, f, hother f hf, rfl, hfi⟩
    · rw [Layout.segment_remove_of_ne hi, hold]
      constructor
      · rintro ⟨f, hf, rfl, hfi⟩
        refine ⟨f, ?_, rfl, hfi⟩
        have hfe : f ≠ e := by
          rintro rfl
          exact hi (by rw [horder]; exact hfi.symm)
        simpa [hfe] using hf
      · rintro ⟨f, hf, rfl, hfi⟩
        exact ⟨f, hother f hf, rfl, hfi⟩

/-- `hashtable_do_clear` drops the value of every entry once, in some order. -/
theorem clear_eq (h : T.Represents hash t L) :
    ∃ dropped T' L', T.clear = some (dropped, T') ∧ dropped.Perm (t.entries.map (·.value)) ∧
      T'.Represents hash { t with entries := [] } L' := by
  have hforall : List.Forall₂ (fun id (e : Entry) => id = e.id) (t.entries.map (·.id)) t.entries :=
    List.forall₂_map_left_iff.mpr (List.forall₂_same.mpr fun _ _ => rfl)
  obtain ⟨es, hes, hperm⟩ := List.perm_comp_forall₂ h.ring_perm hforall
  have hring : L.ring = es.map (·.id) := by
    rw [← List.forall₂_eq_eq_eq, List.forall₂_map_right_iff]
    exact hes
  have hnodup := h.ring_nodup
  have hleads := h.ring.leads
  rw [hring] at hnodup hleads
  obtain ⟨pairs, hloop, hfreed⟩ := clearLoop_eq (T := T) [] (T.size + 1)
    (fun e he => ⟨_, h.pairs e (hperm.mem_iff.mp he), rfl⟩) hnodup hleads
    (by rw [hperm.length_eq, h.size]; omega)
  have hnone : pairs = fun _ => none := by
    funext id
    rw [hfreed id]
    split_ifs with hid
    · rfl
    · refine h.unused id fun hmem => hid ?_
      rw [← hring]
      exact h.mem_ring_iff.mpr hmem
  refine ⟨es.map (·.value), reset { T with pairs := fun _ => none }, ⟨[], fun _ => []⟩, ?_,
    hperm.map _, ⟨List.nodup_nil, by simp, fun _ => rfl, holds_init T.list none⟩, h.order, ?_, ?_,
    ?_, ?_, ?_, ?_⟩
  · rw [clear, doClear, h.ring.next_head, hring, hloop, hnone]
    rfl
  · rfl
  · exact List.nodup_nil
  · simp
  · intro id _
    rfl
  · exact holds_init T.orderedList none
  · simp

theorem setPair_eq (h : T.Represents hash t L) {pair : Option ℕ} {o : HashtableAnswer}
    {t' : EntryTable} (hc : t.setPair key v pair = some (o, t')) :
    ∃ r L', T.setPair hash key v pair = some r ∧ o = .status r.1 r.2.1 ∧
      r.2.2.Represents hash t' L' := by
  unfold EntryTable.setPair at hc
  unfold Hashtable.setPair
  rw [h.find_eq, Option.bind_some]
  cases hf : t.entries.find? fun e => e.key = key with
  | some e =>
    obtain ⟨hkey, before, after, hsplit, hbefore⟩ := exists_of_find hf
    obtain ⟨entries, order⟩ := t
    subst hsplit
    obtain ⟨T', hT', hrep⟩ := h.overwrite_eq v
    have hreplace : replaceValue key v (before ++ e :: after) =
        some (e.value, before ++ { e with value := v } :: after) :=
      replaceValue_eq_some_iff.mpr ⟨before, e, after, rfl, hkey, rfl, hbefore, rfl⟩
    rw [hreplace] at hc
    cases hc
    refine ⟨(true, [e.value], T'), L, ?_, rfl, hrep⟩
    show (T.overwrite e.id v).map _ = _
    rw [hT', Option.map_some]
  | none =>
    have hkey : key ∉ t.entries.map (·.key) := by
      intro hmem
      obtain ⟨e, he, heq⟩ := List.mem_map.mp hmem
      simpa [heq] using List.find?_eq_none.mp hf e he
    rw [replaceValue_eq_none_iff.mpr hkey] at hc
    rw [Option.map_none]
    dsimp only at hc ⊢
    split_ifs at hc ⊢ with hlong
    · cases hc
      exact ⟨_, L, rfl, rfl, h⟩
    · cases pair with
      | none =>
        cases hc
        exact ⟨_, L, rfl, rfl, h⟩
      | some id =>
        dsimp only at hc
        split_ifs at hc with hid
        cases hc
        exact ⟨_, _, rfl, rfl, h.addPair hid hkey v⟩

theorem set_eq (h : T.Represents hash t L) {buckets : Bool} {pair : Option ℕ} {o : HashtableAnswer}
    {t' : EntryTable} (hc : t.set key v buckets pair = some (o, t')) :
    ∃ r L', T.set hash key v buckets pair = some r ∧ o = .status r.1 r.2.1 ∧
      r.2.2.Represents hash t' L' := by
  rw [EntryTable.set] at hc
  rw [Hashtable.set, h.order, h.size]
  split_ifs at hc ⊢ with hfull hbuckets
  · obtain ⟨T', L', hrehash, hrep⟩ := h.doRehash_eq
    rw [hbuckets, hrehash]
    exact hrep.setPair_eq hc
  · cases hc
    have hfalse : buckets = false := by simpa using hbuckets
    rw [hfalse]
    exact ⟨_, L, rfl, rfl, h⟩
  · exact h.setPair_eq hc

theorem del_eq (h : T.Represents hash t L) {o : HashtableAnswer} {t' : EntryTable}
    (hc : t.call (.del key) = some (o, t')) :
    ∃ r L', T.del hash key = some r ∧ o = .status r.1 r.2.1 ∧ r.2.2.Represents hash t' L' := by
  rw [EntryTable.call] at hc
  rw [Hashtable.del, h.find_eq, Option.bind_some]
  cases hf : t.entries.find? fun e => e.key = key with
  | none =>
    rw [unlink_eq_none hf] at hc
    cases hc
    exact ⟨_, L, rfl, rfl, h⟩
  | some e =>
    obtain ⟨rfl, before, after, hsplit, hbefore⟩ := exists_of_find hf
    obtain ⟨entries, order⟩ := t
    subst hsplit
    rw [unlink_append rfl hbefore] at hc
    cases hc
    refine ⟨(true, [e.value], T.unlinkPair (hash e.key % 2 ^ T.order) e.id), _, ?_, rfl,
      h.unlinkPair⟩
    rw [Option.map_some]
    dsimp only
    rw [h.pairs e (by simp)]
    rfl

/-- An entry by its address. -/
theorem pairs_of_find_id (h : T.Represents hash t L) {iter : ℕ} {e : Entry}
    (hf : t.entries.find? (fun e => e.id = iter) = some e) :
    T.pairs iter = some ⟨hash e.key, e.key, e.value⟩ := by
  have hid : e.id = iter := by simpa using List.find?_some hf
  rw [← hid]
  exact h.pairs e (List.mem_of_find?_eq_some hf)

theorem iterNext_eq (h : T.Represents hash t L) {iter : ℕ} {e : Entry} {rest : List Entry}
    (hd : t.entries.dropWhile (·.id ≠ iter) = e :: rest) :
    T.iterNext (some iter) = some (rest.head?.map (·.id)) := by
  have hid : e.id = iter := by
    have hhead := List.head?_dropWhile_not (fun e : Entry => decide (e.id ≠ iter)) t.entries
    rw [hd] at hhead
    simpa using hhead
  have hsplit := List.takeWhile_append_dropWhile (p := (·.id ≠ iter)) (l := t.entries)
  rw [hd] at hsplit
  have hmem : e ∈ t.entries := hsplit ▸ List.mem_append_right _ List.mem_cons_self
  have hold := h.ordered
  rw [← hsplit, List.map_append, List.map_append, List.map_cons, List.map_cons, hid] at hold
  rw [Hashtable.iterNext, ← hid, h.pairs e hmem, Option.map_some, hid, hold.next_mid]
  cases rest <;> rfl

theorem iterSet_eq (h : T.Represents hash t L) {iter : ℕ} {r : Ref × List Entry}
    (hr : EntryTable.replaceAt iter v t.entries = some r) :
    ∃ T', T.overwrite iter v = some ([r.1], T') ∧
      T'.Represents hash { t with entries := r.2 } L := by
  have hmem : iter ∈ t.entries.map (·.id) := by
    by_contra hno
    rw [replaceAt_eq_none hno] at hr
    cases hr
  obtain ⟨e, he, rfl⟩ := List.mem_map.mp hmem
  obtain ⟨before, after, hsplit⟩ := List.append_of_mem he
  obtain ⟨entries, order⟩ := t
  subst hsplit
  have hnodup := h.ids_nodup
  simp only [List.map_append, List.map_cons] at hnodup
  have hbefore : ∀ f ∈ before, f.id ≠ e.id := fun f hf heq =>
    (List.nodup_append.mp hnodup).2.2 _ (List.mem_map_of_mem hf) _ List.mem_cons_self heq
  rw [replaceAt_append rfl hbefore] at hr
  cases hr
  exact h.overwrite_eq v

/-- Every call that the list of entries answers is answered alike by the table. -/
theorem call_eq (h : T.Represents hash t L) {c : HashtableCall} {o : HashtableAnswer}
    {t' : EntryTable} (hc : t.call c = some (o, t')) :
    ∃ T', T.call hash c = some (o, T') ∧ ∃ L', T'.Represents hash t' L' := by
  cases c with
  | set key value buckets pair =>
    obtain ⟨r, L', hr, rfl, hrep⟩ := h.set_eq hc
    exact ⟨r.2.2, by rw [Hashtable.call, hr]; rfl, L', hrep⟩
  | get key =>
    cases hc
    refine ⟨T, ?_, L, h⟩
    rw [Hashtable.call, Hashtable.get, h.find_eq, Option.bind_some, hashtableGet]
    cases hf : t.entries.find? fun e => e.key = key with
    | none => rfl
    | some e =>
      rw [Option.map_some, Option.map_some]
      dsimp only
      rw [h.pairs e (List.mem_of_find?_eq_some hf)]
      rfl
  | del key =>
    obtain ⟨r, L', hr, rfl, hrep⟩ := h.del_eq hc
    exact ⟨r.2.2, by rw [Hashtable.call, hr]; rfl, L', hrep⟩
  | clear =>
    obtain ⟨dropped, T', L', hT', hperm, hrep⟩ := h.clear_eq
    cases hc
    refine ⟨T', ?_, L', hrep⟩
    rw [Hashtable.call, hT', Option.map_some, Multiset.coe_eq_coe.mpr hperm]
  | iter =>
    cases hc
    refine ⟨T, ?_, L, h⟩
    rw [Hashtable.call, Hashtable.iter, Hashtable.iterNext, h.ordered.next_head, Option.map_some]
    cases t.entries <;> rfl
  | iterAt key =>
    cases hc
    exact ⟨T, by rw [Hashtable.call, h.find_eq]; rfl, L, h⟩
  | iterNext iter =>
    rw [EntryTable.call] at hc
    split at hc
    · cases hc
    next e rest hd =>
      cases hc
      exact ⟨T, by rw [Hashtable.call, h.iterNext_eq hd]; rfl, L, h⟩
  | iterKey iter =>
    obtain ⟨e, hf, heq⟩ := Option.map_eq_some_iff.mp hc
    cases heq
    exact ⟨T, by rw [Hashtable.call, h.pairs_of_find_id hf]; rfl, L, h⟩
  | iterValue iter =>
    obtain ⟨e, hf, heq⟩ := Option.map_eq_some_iff.mp hc
    cases heq
    exact ⟨T, by rw [Hashtable.call, h.pairs_of_find_id hf]; rfl, L, h⟩
  | iterSet iter value =>
    obtain ⟨r, hr, heq⟩ := Option.map_eq_some_iff.mp hc
    cases heq
    obtain ⟨T', hT', hrep⟩ := h.iterSet_eq hr
    exact ⟨T', by rw [Hashtable.call, hT']; rfl, L, hrep⟩

end Hashtable.Represents

theorem represents_init (hash : Bytes → ℕ) :
    Hashtable.init.Represents hash ⟨[], initialHashtableOrder⟩ ⟨[], fun _ => []⟩ where
  indices := List.nodup_nil
  mem_indices := by simp
  buckets _ := rfl
  ring := ⟨by simp [Layout.ring], rfl, rfl⟩
  order := rfl
  size := rfl
  keys := List.nodup_nil
  pairs := by simp
  unused _ _ := rfl
  ordered := ⟨by simp, rfl, rfl⟩
  segment := by simp

/-- Two keys in one bucket, an overwritten value, a deletion and an iteration. -/
def collidingCalls : List HashtableCall :=
  [.set [97] .true true (some 5), .set [98] .null true (some 7), .set [97] .false true none,
    .get [97], .del [97], .get [97], .iter, .iterNext 7, .clear]

end RipExt.Json
