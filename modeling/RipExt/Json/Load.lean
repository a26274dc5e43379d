import RipExt.Json.Counting

/-! The parser of `load.c` as it acts on the store. What the scanner reads is given as a tree,
with the places where it finds an error; the parser builds the document from it and gives
back everything it has built when it fails. -/
namespace RipExt.Json
open RefCount

mutual

/-- What `parse_value` finds at its token. -/
inductive Text where
  | string (value : Bytes)
  | integer (value : ℤ)
  | real (value : Double)
  | true | false | null
  | object (members : Members)
  | array (items : Items)
  /-- No value starts here, or the text is nested too deeply, or a string holds a zero byte. -/
  | invalid

/-- The rest of an object. -/
inductive Members where
  | closed
  | broken
  | member (key : Bytes) (value : Text) (rest : Members)

/-- The rest of an array. -/
inductive Items where
  | closed
  | broken
  | item (value : Text) (rest : Items)

end

/-- `json_error_t`. -/
structure JsonError where
  line : ℤ
  column : ℤ
  text : Bytes
  deriving DecidableEq, Repr

/-- A whole text; `ended` unless something follows the value and the flags forbid it. `error`
is what the decoder reports if it fails. -/
structure Document where
  text : Text
  ended : Bool
  error : JsonError

section Parse
variable (H : Hashing)

/-- The error exit of `parse_object` and `parse_array`. -/
def abandon (s : Store) (container : Ref) : Option (Pointer × Store) :=
  (jsonDecref H s (some container)).map fun s => (none, s)

mutual

def parseValue (s : Store) : Text → Option (Pointer × Store)
  | .string v => some (jsonStringNocheck s v)
  | .integer v => some (jsonInteger s v)
  | .real v => some (jsonReal s (some v))
  | .true => some (jsonBoolean s true)
  | .false => some (jsonBoolean s false)
  | .null => some (jsonNull s)
  | .object ms => parseObject (jsonObject s).2 (.node s.next) ms
  | .array is => parseArray (jsonArray s).2 (.node s.next) is
  | .invalid => some (none, s)

def parseObject (s : Store) (object : Ref) : Members → Option (Pointer × Store)
  | .closed => some (some object, s)
  | .broken => abandon H s object
  | .member key value rest => do
    let (v, s) ← parseValue s value
    match v with
    | none => abandon H s object
    | some v =>
      let (ok, s) ← jsonObjectSetNewNocheck H s object key (some v)
      if ok then parseObject s object rest else abandon H s object

def parseArray (s : Store) (array : Ref) : Items → Option (Pointer × Store)
  | .closed => some (some array, s)
  | .broken => abandon H s array
  | .item value rest => do
    let (v, s) ← parseValue s value
    match v with
    | none => abandon H s array
    | some v =>
      let (ok, s) ← jsonArrayAppendNew H s array (some v)
      if ok then parseArray s array rest else abandon H s array

end

/-- `parse_json`, as `json_loads` and `json_load_file` call it. -/
def jsonLoads (s : Store) (d : Document) : Option (Pointer × Store) := do
  let (result, s) ← parseValue H s d.text
  match result with
  | none => some (none, s)
  | some json => if d.ended then some (some json, s) else abandon H s json

end Parse

section Builds
variable {H : Hashing} {s : Store} {R : Multiset ℕ} {base o : ℕ}

theorem abandon_moves {L : Store → ℕ → Payload → Prop} {json : Ref}
    (hb : Balanced H.children s (↑(Pointer.nodes (some json)) + R) []) :
    ∃ s', abandon H s json = some (none, s') ∧
      Moves H.children R L (s, ↑(Pointer.nodes (some json)) + R) (s', R) := by
  obtain ⟨s', hd, hm⟩ := jsonDecref_moves hb (le_refl R)
  exact ⟨s', by simp [abandon, hd], hm⟩

/-- A container that is given up leaves nothing behind. -/
theorem abandon_node {L : Store → ℕ → Payload → Prop} (hb : Balanced H.children s (o ::ₘ R) []) :
    ∃ s', abandon H s (.node o) = some (none, s') ∧
      Moves H.children R L (s, o ::ₘ R) (s', ↑(Pointer.nodes none) + R) := by
  rw [nodes_none, Multiset.coe_nil, zero_add]
  rw [← coe_singleton_add] at hb ⊢
  exact abandon_moves hb

/-- A container that is given up because its last value is invalid. -/
theorem abandon_after {L : Store → ℕ → Payload → Prop} {s₁ : Store}
    (hb : Balanced H.children s (o ::ₘ R) [])
    (hm : Moves H.children (o ::ₘ R) L (s, o ::ₘ R) (s₁, ↑(Pointer.nodes none) + o ::ₘ R)) :
    ∃ s', abandon H s₁ (.node o) = some (none, s') ∧
      Moves H.children R L (s, o ::ₘ R) (s', ↑(Pointer.nodes none) + R) := by
  have hnil : (↑(Pointer.nodes none) : Multiset ℕ) + o ::ₘ R = o ::ₘ R := by simp
  rw [hnil] at hm
  obtain ⟨s', ha, hm'⟩ := abandon_node (hm.balanced hb)
  exact ⟨s', ha, (hm.mono (Multiset.le_cons_self R o) fun _ _ _ => id).trans hm'⟩

theorem closed_moves {L : Store → ℕ → Payload → Prop} :
    Moves H.children R L (s, o ::ₘ R) (s, ↑(Pointer.nodes (some (.node o))) + R) := by
  rw [nodes_node, coe_singleton_add]
  exact .refl

/-- Linking a value built after the container only adds a reference to a later node. -/
theorem builds_of_linked {s₁ : Store} {n : ℕ} {p : Payload} {v : Ref} (ho : base ≤ o)
    (hlt : ∀ m, v = .node m → o < m) (hn : Ref.node o = .node n)
    (hw : ∀ w ∈ H.children p, w ∈ s₁.edges H.children n ∨ w ∈ Pointer.nodes (some v)) :
    Builds H.children base s₁ n p := by
  cases hn
  refine ⟨ho, fun w hwp => (hw w hwp).imp_right fun hwv => ?_⟩
  have hv := mem_nodes hwv
  exact hlt w (Option.some.inj hv)

/-- Parsing a value and linking it into the open container `o`. -/
theorem link_moves {s₁ : Store} {v : Ref} {T : Payload → Payload → Prop} {r : Bool × Store}
    (hb : Balanced H.children s (o ::ₘ R) []) (hbase : base ≤ o) (ho : o < s.next)
    (hm : Moves H.children (o ::ₘ R) (Builds H.children base) (s, o ::ₘ R)
      (s₁, ↑(Pointer.nodes (some v)) + o ::ₘ R))
    (hv : ∀ n, some v = some (.node n) → s.next ≤ n)
    (hc : Changed H s₁ (↑(Pointer.nodes (some v)) + o ::ₘ R) (Pointer.nodes (some v)) (o ::ₘ R)
      (.node o) T r) :
    Moves H.children R (Builds H.children base) (s, o ::ₘ R) (r.2, o ::ₘ R) ∧
      Balanced H.children r.2 (o ::ₘ R) [] ∧ o < r.2.next := by
  have hb₁ := hm.balanced hb
  have hset := hc.moves hb₁ fun s₂ n p hn hw => builds_of_linked hbase
    (fun m hm => ho.trans_le (hv m (by rw [hm]))) hn hw
  have hK := Multiset.le_cons_self R o
  refine ⟨(hm.mono hK fun _ _ _ => id).trans (hset.mono hK fun _ _ _ => id), hset.balanced hb₁, ?_⟩
  exact ho.trans_le ((hm.next_le hb).trans (hset.next_le hb₁))

mutual

/-- The parser builds a value out of new nodes only, and owns it once. -/
theorem parseValue_moves (t : Text) {s : Store} {R : Multiset ℕ} {base : ℕ}
    (hb : Balanced H.children s R []) (hbase : base ≤ s.next) :
    ∃ v s', parseValue H s t = some (v, s') ∧
      Moves H.children R (Builds H.children base) (s, R) (s', ↑v.nodes + R) ∧
      ∀ n, v = some (.node n) → s.next ≤ n := by
  have hzero : (↑([] : List ℕ) : Multiset ℕ) + R = R := by simp
  have hkeep {v : Pointer} (hv : v.nodes = []) :
      Moves H.children R (Builds H.children base) (s, R) (s, ↑v.nodes + R) := by
    rw [hv, hzero]
    exact .refl
  have hnew (n : ℕ) (hn : some (Ref.node s.next) = some (.node n)) : s.next ≤ n := by
    cases hn
    exact le_rfl
  cases t with
  | string v => exact ⟨_, _, rfl, alloc_moves rfl, hnew⟩
  | integer v => exact ⟨_, _, rfl, alloc_moves rfl, hnew⟩
  | real v => exact ⟨_, _, rfl, alloc_moves rfl, hnew⟩
  | true => exact ⟨_, _, rfl, hkeep rfl, by simp⟩
  | false => exact ⟨_, _, rfl, hkeep rfl, by simp⟩
  | null => exact ⟨_, _, rfl, hkeep rfl, by simp⟩
  | invalid => exact ⟨_, _, rfl, hkeep rfl, by simp⟩
  | object ms =>
    have hempty : H.children (.object []) = [] := (children_object_perm H []).eq_nil
    have halloc : Move H.children R (Builds H.children base) (s, R)
        (s.alloc (.object []), s.next ::ₘ R) := .alloc s R _ hempty
    obtain ⟨v, s', hp, hm, hv⟩ := parseObject_moves ms (halloc.balanced hb) hbase
      (Nat.lt_succ_self s.next)
    refine ⟨v, s', hp, .head halloc hm, fun n hn => ?_⟩
    rcases hv with rfl | rfl
    · cases hn
    · exact hnew n hn
  | array is =>
    have halloc : Move H.children R (Builds H.children base) (s, R)
        (s.alloc (.array []), s.next ::ₘ R) := .alloc s R _ rfl
    obtain ⟨v, s', hp, hm, hv⟩ := parseArray_moves is (halloc.balanced hb) hbase
      (Nat.lt_succ_self s.next)
    refine ⟨v, s', hp, .head halloc hm, fun n hn => ?_⟩
    rcases hv with rfl | rfl
    · cases hn
    · exact hnew n hn

theorem parseObject_moves (ms : Members) {s : Store} {R : Multiset ℕ} {base o : ℕ}
    (hb : Balanced H.children s (o ::ₘ R) []) (hbase : base ≤ o) (ho : o < s.next) :
    ∃ v s', parseObject H s (.node o) ms = some (v, s') ∧
      Moves H.children R (Builds H.children base) (s, o ::ₘ R) (s', ↑v.nodes + R) ∧
      (v = none ∨ v = some (.node o)) := by
  cases ms with
  | closed => exact ⟨_, _, rfl, closed_moves, .inr rfl⟩
  | broken =>
    obtain ⟨s', hp, hm⟩ := abandon_node hb
    exact ⟨none, s', hp, hm, .inl rfl⟩
  | member key value rest =>
    obtain ⟨v, s₁, hp, hm, hv⟩ := parseValue_moves value hb (hbase.trans ho.le)
    cases v with
    | none =>
      obtain ⟨s', ha, hm'⟩ := abandon_after hb hm
      exact ⟨none, s', by simp [parseObject, hp, ha], hm', .inl rfl⟩
    | some v =>
      obtain ⟨r, hset, hc⟩ := jsonObjectSetNewNocheck_changed (.node o) key (hm.balanced hb)
        fun n hn => by cases hn; exact Multiset.mem_cons_self o R
      obtain ⟨hm₂, hb₂, ho₂⟩ := link_moves hb hbase ho hm hv hc
      obtain ⟨ok, s₂⟩ := r
      cases ok with
      | true =>
        obtain ⟨w, s', hrest, hm', hw⟩ := parseObject_moves rest hb₂ hbase ho₂
        exact ⟨w, s', by simp [parseObject, hp, hset, hrest], hm₂.trans hm', hw⟩
      | false =>
        obtain ⟨s', ha, hm'⟩ := abandon_node hb₂
        exact ⟨none, s', by simp [parseObject, hp, hset, ha], hm₂.trans hm', .inl rfl⟩

theorem parseArray_moves (is : Items) {s : Store} {R : Multiset ℕ} {base o : ℕ}
    (hb : Balanced H.children s (o ::ₘ R) []) (hbase : base ≤ o) (ho : o < s.next) :
    ∃ v s', parseArray H s (.node o) is = some (v, s') ∧
      Moves H.children R (Builds H.children base) (s, o ::ₘ R) (s', ↑v.nodes + R) ∧
      (v = none ∨ v = some (.node o)) := by
  cases is with
  | closed => exact ⟨_, _, rfl, closed_moves, .inr rfl⟩
  | broken =>
    obtain ⟨s', hp, hm⟩ := abandon_node hb
    exact ⟨none, s', hp, hm, .inl rfl⟩
  | item value rest =>
    obtain ⟨v, s₁, hp, hm, hv⟩ := parseValue_moves value hb (hbase.trans ho.le)
    cases v with
    | none =>
      obtain ⟨s', ha, hm'⟩ := abandon_after hb hm
      exact ⟨none, s', by simp [parseArray, hp, ha], hm', .inl rfl⟩
    | some v =>
      obtain ⟨r, hset, hc⟩ := jsonArrayAppendNew_changed (.node o) (hm.balanced hb)
        fun n hn => by cases hn; exact Multiset.mem_cons_self o R
      obtain ⟨hm₂, hb₂, ho₂⟩ := link_moves hb hbase ho hm hv hc
      obtain ⟨ok, s₂⟩ := r
      cases ok with
      | true =>
        obtain ⟨w, s', hrest, hm', hw⟩ := parseArray_moves rest hb₂ hbase ho₂
        exact ⟨w, s', by simp [parseArray, hp, hset, hrest], hm₂.trans hm', hw⟩
      | false =>
        obtain ⟨s', ha, hm'⟩ := abandon_node hb₂
        exact ⟨none, s', by simp [parseArray, hp, hset, ha], hm₂.trans hm', .inl rfl⟩

end

theorem jsonLoads_moves (d : Document) (hb : Balanced H.children s R []) :
    ∃ v s', jsonLoads H s d = some (v, s') ∧
      Moves H.children R (Builds H.children s.next) (s, R) (s', ↑v.nodes + R) := by
  obtain ⟨v, s₁, hp, hm, -⟩ := parseValue_moves d.text hb (le_refl s.next)
  cases v with
  | none => exact ⟨none, s₁, by simp [jsonLoads, hp], hm⟩
  | some json =>
    cases hd : d.ended with
    | true => exact ⟨some json, s₁, by simp [jsonLoads, hp, hd], hm⟩
    | false =>
      obtain ⟨s', ha, hm'⟩ := abandon_moves (hm.balanced hb)
      refine ⟨none, s', by simp [jsonLoads, hp, hd, ha], ?_⟩
      rw [nodes_none, Multiset.coe_nil, zero_add]
      exact hm.trans hm'

end Builds

end RipExt.Json
