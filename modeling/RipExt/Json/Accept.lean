import RipExt.Json.Decode
import RipExt.Json.Scan

/-! The texts that the decoder accepts. The scanner leaves a place without a value exactly where
the parser gives up, so a document is built if and only if its whole text is read. -/
namespace RipExt.Json
open RefCount

mutual

/-- The text has a value at every place. -/
def Text.complete : Text → Bool
  | .object ms => ms.complete
  | .array is => is.complete
  | .invalid => false
  | .string _ | .integer _ | .real _ | .true | .false | .null => true

def Members.complete : Members → Bool
  | .closed => true
  | .broken => false
  | .member _ value rest => value.complete && rest.complete

def Items.complete : Items → Bool
  | .closed => true
  | .broken => false
  | .item value rest => value.complete && rest.complete

end

/-- The decoder returns a value for this document. -/
def Document.Accepted (d : Document) : Prop := d.text.complete = true ∧ d.ended = true

instance (d : Document) : Decidable d.Accepted :=
  inferInstanceAs (Decidable (d.text.complete = true ∧ d.ended = true))

section Scanning
variable {strtod : Bytes → Option Double} {flags : LoadFlags}
  {value : Token × Bytes → Text × Option Bytes}

/-- A value is complete if and only if the scanner gets past it. -/
def Completes (value : Token × Bytes → Text × Option Bytes) : Prop :=
  ∀ cur, (value cur).1.complete = (value cur).2.isSome

theorem scanItems_complete (hv : Completes value) (fuel : ℕ) (cur : Token × Bytes) :
    (scanItems strtod flags value fuel cur).1.complete =
      (scanItems strtod flags value fuel cur).2.isSome := by
  induction fuel generalizing cur with
  | zero => rfl
  | succ fuel ih =>
    have hitem := hv cur
    rw [scanItems]
    split_ifs with heof
    · rfl
    · cases hvalue : value cur with
      | mk item rest =>
        rw [hvalue] at hitem
        cases rest with
        | none => simp [Items.complete]
        | some rest =>
          dsimp only
          have hcomplete : item.complete = true := hitem
          split_ifs <;> simp [Items.complete, hcomplete, ih]

theorem scanMembers_complete (hv : Completes value) (fuel : ℕ) (keys : List Bytes)
    (cur : Token × Bytes) :
    (scanMembers strtod flags value fuel keys cur).1.complete =
      (scanMembers strtod flags value fuel keys cur).2.isSome := by
  induction fuel generalizing keys cur with
  | zero => rfl
  | succ fuel ih =>
    obtain ⟨tok, r⟩ := cur
    cases tok with
    | string key =>
      have hmember := hv (lexScan strtod flags (lexScan strtod flags r).2)
      simp only [scanMembers]
      split_ifs with hkey hcolon
      · rfl
      · rfl
      · cases hvalue : value (lexScan strtod flags (lexScan strtod flags r).2) with
        | mk member rest =>
          rw [hvalue] at hmember
          cases rest with
          | none => simp [Members.complete]
          | some rest =>
            dsimp only
            have hcomplete : member.complete = true := hmember
            split_ifs <;> simp [Members.complete, hcomplete, ih]
    | _ => rfl

theorem scanValue_complete (strtod : Bytes → Option Double) (flags : LoadFlags) (depth : ℕ) :
    Completes (scanValue strtod flags depth) := by
  induction depth with
  | zero => exact fun _ => rfl
  | succ depth ih =>
    rintro ⟨tok, rest⟩
    cases tok with
    | string v =>
      simp only [scanValue]
      split_ifs <;> rfl
    | char c =>
      simp only [scanValue]
      split_ifs
      · rfl
      · exact scanMembers_complete ih _ _ _
      · rfl
      · exact scanItems_complete ih _ _
      · rfl
    | _ => rfl

/-- A buffer that is accepted: a value at its first token, and nothing after it. -/
theorem jsonLoadb_accepted {report : Bytes → JsonError} {buffer : Bytes} :
    (jsonLoadb strtod flags report buffer).Accepted ↔
      ¬(flags.decodeAny = false ∧ (lexScan strtod flags buffer).1 ≠ .char 91 ∧
        (lexScan strtod flags buffer).1 ≠ .char 123) ∧
      ∃ t rest, scanValue strtod flags jsonParserMaxDepth (lexScan strtod flags buffer) =
        (t, some rest) ∧ (flags.disableEofCheck || (lexScan strtod flags rest).1 = .eof) := by
  have hcomplete := scanValue_complete strtod flags jsonParserMaxDepth (lexScan strtod flags buffer)
  unfold jsonLoadb
  dsimp only
  by_cases hfirst : flags.decodeAny = false ∧ (lexScan strtod flags buffer).1 ≠ .char 91 ∧
      (lexScan strtod flags buffer).1 ≠ .char 123
  · rw [if_pos hfirst]
    constructor
    · intro h
      cases h.1
    · exact fun h => absurd hfirst h.1
  · rw [if_neg hfirst]
    cases hscan : scanValue strtod flags jsonParserMaxDepth (lexScan strtod flags buffer) with
    | mk t rest =>
      rw [hscan] at hcomplete
      cases rest with
      | none =>
        constructor
        · intro h
          cases h.2
        · rintro ⟨-, t', rest', heq, -⟩
          cases heq
      | some rest =>
        constructor
        · exact fun h => ⟨hfirst, t, rest, rfl, h.2⟩
        · rintro ⟨-, t', rest', heq, hend⟩
          cases heq
          exact ⟨hcomplete, hend⟩

end Scanning

section Ends
variable {strtod : Bytes → Option Double} {flags : LoadFlags} {report : Bytes → JsonError}

theorem lexScan_eof_iff {text : Bytes} :
    (lexScan strtod flags text).1 = .eof ↔ text.dropWhile isBlank = [] := by
  rw [lexScan]
  cases text.dropWhile isBlank with
  | nil => simp
  | cons b rest =>
    dsimp only
    split_ifs
    · simp
    · split <;> simp
    · split
      · next number _ _ => cases number <;> simp [numberToken]
      · simp
    · unfold identifier
      split_ifs <;> simp
    · simp

/-- A zero byte after a text is not the end of the buffer. -/
theorem lexScan_zero {rest : Bytes} (hrest : rest.dropWhile isBlank = []) (more : Bytes) :
    (lexScan strtod flags (rest ++ 0 :: more)).1 = .invalid := by
  have hblank : (rest ++ 0 :: more).dropWhile isBlank = 0 :: more := by
    rw [List.dropWhile_append, if_pos (by simpa using hrest)]
    rfl
  rw [lexScan, hblank]
  rfl

/-- A buffer that is accepted before a zero byte is not accepted with it. -/
theorem not_accepted_append_zero {buffer : Bytes} (hany : flags.decodeAny = false)
    (heof : flags.disableEofCheck = false)
    (h : (jsonLoadb strtod flags report buffer).Accepted) (more : Bytes) :
    ¬(jsonLoadb strtod flags report (buffer ++ 0 :: more)).Accepted := by
  obtain ⟨hfirst, t, rest, hscan, hend⟩ := jsonLoadb_accepted.mp h
  have hrest : rest.dropWhile isBlank = [] := by
    apply lexScan_eof_iff.mp
    simpa [heof] using hend
  have hchar : ∃ c, (lexScan strtod flags buffer).1 = .char c := by
    by_contra hnone
    exact hfirst ⟨hany, fun hc => hnone ⟨91, hc⟩, fun hc => hnone ⟨123, hc⟩⟩
  obtain ⟨c, hc⟩ := hchar
  have hlex := lexScan_char_append (0 :: more) (Prod.ext hc rfl : lexScan strtod flags buffer =
    (.char c, (lexScan strtod flags buffer).2))
  rw [← Prod.mk.eta (p := lexScan strtod flags buffer), hc] at hscan
  have hlonger := (scanValue_sound strtod flags jsonParserMaxDepth).append (0 :: more) hscan
  intro hboth
  obtain ⟨-, t', rest', hscan', hend'⟩ := jsonLoadb_accepted.mp hboth
  rw [hlex, hlonger] at hscan'
  cases hscan'
  rw [lexScan_zero hrest, heof] at hend'
  cases hend'

end Ends

section Building
variable {H : Hashing} {s s' : Store} {R : Multiset ℕ} {o : ℕ}

/-- The parser appends to an array that it has just created. -/
theorem jsonArrayAppendNew_ok {table : List Ref} {v : Ref} {r : Bool × Store}
    (hread : Store.read s (.node o) = some (some (.array table))) (hne : Ref.node o ≠ v)
    (h : jsonArrayAppendNew H s (.node o) (some v) = some r) : r.1 = true := by
  unfold jsonArrayAppendNew at h
  simp only [hread, Option.bind_eq_bind, Option.bind_some, if_neg hne] at h
  obtain ⟨s₁, -, hr⟩ := Option.bind_eq_some_iff.mp h
  cases hr
  rfl

theorem jsonObjectSetNewNocheck_ok {entries : List Entry} {key : Bytes} {v : Ref} {r : Bool × Store}
    (hread : Store.read s (.node o) = some (some (.object entries))) (hne : Ref.node o ≠ v)
    (h : jsonObjectSetNewNocheck H s (.node o) key (some v) = some r) : r.1 = true := by
  unfold jsonObjectSetNewNocheck at h
  simp only [hread, Option.bind_eq_bind, Option.bind_some, if_neg hne] at h
  obtain ⟨s₁, -, rfl⟩ := Option.map_eq_some_iff.mp h
  rfl

theorem abandon_pointer {v : Pointer} {container : Ref}
    (h : abandon H s container = some (v, s')) : v = none := by
  obtain ⟨_, -, heq⟩ := Option.map_eq_some_iff.mp h
  cases heq
  rfl

mutual

/-- The parser returns a value if and only if the text has one at every place. -/
theorem parseValue_complete (t : Text) {s s' : Store} {R : Multiset ℕ} {v : Pointer}
    (hb : Balanced H.children s R []) (h : parseValue H s t = some (v, s')) :
    v.isSome = t.complete := by
  cases t with
  | object ms =>
    have hempty : H.children (.object []) = [] := (children_object_perm H []).eq_nil
    exact parseObject_complete ms (hb.alloc hempty) (Nat.lt_succ_self s.next) (read_alloc s _) h
  | array is =>
    exact parseArray_complete is (hb.alloc rfl) (Nat.lt_succ_self s.next) (read_alloc s _) h
  | _ =>
    cases h
    rfl

theorem parseObject_complete (ms : Members) {s s' : Store} {R : Multiset ℕ} {o : ℕ} {v : Pointer}
    {entries : List Entry} (hb : Balanced H.children s (o ::ₘ R) []) (ho : o < s.next)
    (hread : Store.read s (.node o) = some (some (.object entries)))
    (h : parseObject H s (.node o) ms = some (v, s')) : v.isSome = ms.complete := by
  cases ms with
  | closed =>
    cases h
    rfl
  | broken =>
    rw [abandon_pointer h]
    rfl
  | member key value rest =>
    obtain ⟨w, s₁, hp, hm, hfresh⟩ := parseValue_moves value hb le_rfl
    have hvalue := parseValue_complete value hb hp
    have hb₁ := hm.balanced hb
    rw [parseObject, hp] at h
    cases w with
    | none =>
      rw [abandon_pointer h]
      simp only [Members.complete, ← hvalue]
      rfl
    | some w =>
      have hmem := Multiset.mem_cons_self o R
      have hne : Ref.node o ≠ w := by
        rintro rfl
        have hle := hfresh o rfl
        omega
      have hread₁ := read_of_live (parseValue_keeps hb hp).1 hread
      obtain ⟨⟨ok, s₂⟩, hset, -⟩ := jsonObjectSetNewNocheck_changed (.node o) key hb₁
        fun n hn => by cases hn; exact hmem
      obtain rfl : ok = true := jsonObjectSetNewNocheck_ok hread₁ hne hset
      obtain ⟨hb₂, hle, es, es', -, hread₂, -⟩ := jsonObjectSetNewNocheck_result hb₁ hmem hset
      have hrest : parseObject H s₂ (.node o) rest = some (v, s') := by
        simpa only [Option.bind_eq_bind, Option.bind_some, hset, if_true] using h
      simp only [Members.complete, ← hvalue, Option.isSome_some, Bool.true_and]
      exact parseObject_complete rest hb₂ (ho.trans_le ((hm.next_le hb).trans hle)) hread₂ hrest

theorem parseArray_complete (is : Items) {s s' : Store} {R : Multiset ℕ} {o : ℕ} {v : Pointer}
    {table : List Ref} (hb : Balanced H.children s (o ::ₘ R) []) (ho : o < s.next)
    (hread : Store.read s (.node o) = some (some (.array table)))
    (h : parseArray H s (.node o) is = some (v, s')) : v.isSome = is.complete := by
  cases is with
  | closed =>
    cases h
    rfl
  | broken =>
    rw [abandon_pointer h]
    rfl
  | item value rest =>
    obtain ⟨w, s₁, hp, hm, hfresh⟩ := parseValue_moves value hb le_rfl
    have hvalue := parseValue_complete value hb hp
    have hb₁ := hm.balanced hb
    rw [parseArray, hp] at h
    cases w with
    | none =>
      rw [abandon_pointer h]
      simp only [Items.complete, ← hvalue]
      rfl
    | some w =>
      have hmem := Multiset.mem_cons_self o R
      have hne : Ref.node o ≠ w := by
        rintro rfl
        have hle := hfresh o rfl
        omega
      have hread₁ := read_of_live (parseValue_keeps hb hp).1 hread
      obtain ⟨⟨ok, s₂⟩, happend, -⟩ := jsonArrayAppendNew_changed (.node o) hb₁
        fun n hn => by cases hn; exact hmem
      obtain rfl : ok = true := jsonArrayAppendNew_ok hread₁ hne happend
      obtain ⟨hb₂, hle, table', -, hread₂, -⟩ := jsonArrayAppendNew_result hb₁ hmem happend
      have hrest : parseArray H s₂ (.node o) rest = some (v, s') := by
        simpa only [Option.bind_eq_bind, Option.bind_some, happend, if_true] using h
      simp only [Items.complete, ← hvalue, Option.isSome_some, Bool.true_and]
      exact parseArray_complete rest hb₂ (ho.trans_le ((hm.next_le hb).trans hle)) hread₂ hrest

end

/-- `json_loads` returns a value if and only if the document is accepted. -/
theorem jsonLoads_isSome_iff {d : Document} {v : Pointer} (hb : Balanced H.children s R [])
    (h : jsonLoads H s d = some (v, s')) : v.isSome ↔ d.Accepted := by
  obtain ⟨w, s₁, hp, -⟩ := parseValue_moves d.text hb le_rfl
  have hcomplete := parseValue_complete d.text hb hp
  rw [jsonLoads, hp] at h
  unfold Document.Accepted
  rw [← hcomplete]
  cases w with
  | none =>
    cases h
    simp
  | some json =>
    simp only [Option.bind_eq_bind, Option.bind_some] at h
    split_ifs at h with hended
    · cases h
      simp [hended]
    · rw [abandon_pointer h]
      simp [hended]

end Building

end RipExt.Json
