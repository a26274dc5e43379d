import RipExt.Json.Decode
import RipExt.Json.Laws
import RipExt.Json.Strings

/-! What the natives can put into a document. Strings and keys are UTF-8, keys are C strings and
distinct, and integers have 64 bits, whether a plugin sets them or the decoder reads them. -/
namespace RipExt.Json
open RefCount

/-- A key that the natives and the decoder let through. -/
def ValidKey (key : Bytes) : Prop := utf8CheckString key = true ∧ 0 ∉ key

def InInt64 (v : ℤ) : Prop := -2 ^ 63 ≤ v ∧ v < 2 ^ 63

def Payload.Valid : Payload → Prop
  | .object es => (∀ e ∈ es, ValidKey e.key) ∧ (es.map (·.key)).Nodup
  | .string v => utf8CheckString v = true
  | .integer v => InInt64 v
  | .array _ | .real _ => True

/-- Every value in the store is one that the natives can make. -/
def Stored (s : Store) : Prop := s.Each Payload.Valid

mutual

/-- The same of what the scanner reads. -/
def Text.Valid : Text → Prop
  | .string v => utf8CheckString v = true
  | .integer v => InInt64 v
  | .object ms => ms.Valid
  | .array is => is.Valid
  | .real _ | .true | .false | .null | .invalid => True

def Members.Valid : Members → Prop
  | .closed | .broken => True
  | .member key value rest => ValidKey key ∧ value.Valid ∧ rest.Valid

def Items.Valid : Items → Prop
  | .closed | .broken => True
  | .item value rest => value.Valid ∧ rest.Valid

end

section Scanned
variable {strtod : Bytes → Option Double} {flags : LoadFlags}
  {value : Token × Bytes → Text × Option Bytes}

theorem strtoll_inInt64 (text : Bytes) : InInt64 (strtoll text).1 := by
  unfold strtoll InInt64
  dsimp only
  split_ifs <;> constructor <;> dsimp only <;> omega

def Token.Valid : Token → Prop
  | .string v => utf8CheckString v = Bool.true
  | .integer v => InInt64 v
  | _ => True

theorem lexScanNumber_valid {intAsReal : Bool} {text rest : Bytes} {number : Number}
    (h : lexScanNumber strtod intAsReal text = some (number, rest)) :
    (numberToken number).Valid := by
  cases number with
  | real y => trivial
  | integer v =>
    rw [lexScanNumber_eq] at h
    dsimp only at h
    split_ifs at h
    unfold afterDigits at h
    split_ifs at h
    · split at h
      · cases h
      · next value heq =>
        cases h
        have hrange := strtoll_inInt64 (minus text ++ (text.drop (minus text).length).takeWhile isDigit)
        rw [jsonStrtoint] at heq
        rw [heq] at hrange
        exact hrange
    · obtain ⟨_, -, h⟩ := Option.bind_eq_some_iff.mp h
      obtain ⟨_, -, h⟩ := Option.bind_eq_some_iff.mp h
      obtain ⟨_, -, h⟩ := Option.bind_eq_some_iff.mp h
      cases h

theorem lexScan_valid (text : Bytes) : (lexScan strtod flags text).1.Valid := by
  unfold lexScan
  split
  · trivial
  · split_ifs
    · trivial
    · split
      · next v rest hstring => exact lexScanString_utf8 hstring
      · trivial
    · split
      · next number rest hnumber => exact lexScanNumber_valid hnumber
      · trivial
    · unfold identifier
      split_ifs <;> trivial
    · trivial

theorem scanItems_valid (hv : ∀ cur, cur.1.Valid → (value cur).1.Valid) (fuel : ℕ)
    {cur : Token × Bytes} (hcur : cur.1.Valid) :
    (scanItems strtod flags value fuel cur).1.Valid := by
  induction fuel generalizing cur with
  | zero => trivial
  | succ fuel ih =>
    have hitem := hv cur hcur
    rw [scanItems]
    split_ifs
    · trivial
    · cases hvalue : value cur with
      | mk item rest =>
        rw [hvalue] at hitem
        cases rest with
        | none => exact ⟨hitem, trivial⟩
        | some rest =>
          dsimp only
          split_ifs
          · exact ⟨hitem, ih (lexScan_valid _)⟩
          · exact ⟨hitem, trivial⟩
          · exact ⟨hitem, trivial⟩

theorem scanMembers_valid (hv : ∀ cur, cur.1.Valid → (value cur).1.Valid) (fuel : ℕ)
    (keys : List Bytes) {cur : Token × Bytes} (hcur : cur.1.Valid) :
    (scanMembers strtod flags value fuel keys cur).1.Valid := by
  induction fuel generalizing keys cur with
  | zero => trivial
  | succ fuel ih =>
    obtain ⟨tok, r⟩ := cur
    cases tok with
    | string key =>
      have hmember := hv (lexScan strtod flags (lexScan strtod flags r).2) (lexScan_valid _)
      simp only [scanMembers]
      split_ifs with hbad hcolon
      · trivial
      · trivial
      · have hkey : ValidKey key := ⟨hcur, fun hzero => hbad (.inl hzero)⟩
        cases hvalue : value (lexScan strtod flags (lexScan strtod flags r).2) with
        | mk member rest =>
          rw [hvalue] at hmember
          cases rest with
          | none => exact ⟨hkey, hmember, trivial⟩
          | some rest =>
            dsimp only
            split_ifs
            · exact ⟨hkey, hmember, ih _ (lexScan_valid _)⟩
            · exact ⟨hkey, hmember, trivial⟩
            · exact ⟨hkey, hmember, trivial⟩
    | _ => trivial

theorem scanValue_valid (depth : ℕ) {cur : Token × Bytes} (hcur : cur.1.Valid) :
    (scanValue strtod flags depth cur).1.Valid := by
  induction depth generalizing cur with
  | zero => trivial
  | succ depth ih =>
    obtain ⟨tok, rest⟩ := cur
    cases tok with
    | string v =>
      simp only [scanValue]
      split_ifs
      · trivial
      · exact hcur
    | integer v => exact hcur
    | char c =>
      simp only [scanValue]
      split_ifs
      · trivial
      · exact scanMembers_valid (fun cur h => ih h) _ _ (lexScan_valid _)
      · trivial
      · exact scanItems_valid (fun cur h => ih h) _ (lexScan_valid _)
      · trivial
    | _ => trivial

/-- What the decoder reads from any buffer. -/
theorem jsonLoadb_valid (strtod : Bytes → Option Double) (flags : LoadFlags)
    (report : Bytes → JsonError) (buffer : Bytes) :
    (jsonLoadb strtod flags report buffer).text.Valid := by
  have hscan : (scanValue strtod flags jsonParserMaxDepth (lexScan strtod flags buffer)).1.Valid :=
    scanValue_valid jsonParserMaxDepth (lexScan_valid buffer)
  unfold jsonLoadb
  dsimp only
  split_ifs
  · trivial
  · split
    · next text heq =>
      rw [heq] at hscan
      exact hscan
    · next text rest heq =>
      rw [heq] at hscan
      exact hscan

end Scanned

/-- What the natives can make, also of the responses that were not read yet. -/
structure State.Valid (s : State) : Prop where
  heap : Stored s.heap
  responses : ∀ x ∈ s.responses, x.2.body.text.Valid

/-- The arguments of a call as the plugin and the decoder pass them: a key is a C string, and a
document was read from some text. -/
def Call.Received (strtod : Bytes → Option Double) : Call → Prop
  | .setObject _ key _ => 0 ∉ key
  | .fromString d _ | .fromFile d _ | .openResponse d =>
    ∃ flags report text, d = jsonLoadb strtod flags report text
  | _ => True

section Law
variable {key : Bytes} {es es' : List Entry}

theorem Payload.Valid.of_keys (h : (Payload.object es).Valid)
    (hkeys : es'.map (·.key) = es.map (·.key)) : (Payload.object es').Valid := by
  refine ⟨fun e he => ?_, by rw [hkeys]; exact h.2⟩
  have hmem : e.key ∈ es.map (·.key) := by
    rw [← hkeys]
    exact List.mem_map_of_mem he
  obtain ⟨e', he', heq⟩ := List.mem_map.mp hmem
  rw [← heq]
  exact h.1 e' he'

theorem Payload.Valid.append (h : (Payload.object es).Valid) (hkey : ValidKey key) (id : ℕ) {v : Ref}
    (hnone : replaceValue key v es = none) : (Payload.object (es ++ [⟨id, key, v⟩])).Valid := by
  refine ⟨fun e he => ?_, ?_⟩
  · rcases List.mem_append.mp he with he | he
    · exact h.1 e he
    · rw [List.mem_singleton.mp he]
      exact hkey
  · rw [List.map_append]
    refine List.Nodup.append h.2 (List.nodup_singleton _) ?_
    exact List.disjoint_singleton.mpr (replaceValue_eq_none_iff.mp hnone)

/-- Validity is a law of documents. -/
def validLaw : Law where
  holds _ p := p.Valid
  string v := utf8CheckString v = true
  integer := InInt64
  key := ValidKey
  mono _ h := h
  holds_string hv := hv
  holds_integer hv := hv
  holds_real _ _ := trivial
  holds_array _ _ := trivial
  holds_empty _ := ⟨by simp, List.nodup_nil⟩
  holds_replaced h hreplace := h.of_keys (replaceValue_keys hreplace)
  holds_unlinked h hunlink := ⟨fun e he => h.1 e ((unlink_sublist hunlink).subset he),
    ((unlink_sublist hunlink).map _).nodup h.2⟩
  holds_added h hk hnew := h.append hk _ hnew

mutual

theorem Text.meets_valid (t : Text) : t.Meets validLaw ↔ t.Valid := by
  cases t with
  | object ms => exact ms.meets_valid
  | array is => exact is.meets_valid
  | _ => exact Iff.rfl

theorem Members.meets_valid (ms : Members) : ms.Meets validLaw ↔ ms.Valid := by
  cases ms with
  | member key value rest =>
    exact and_congr_right fun _ => and_congr value.meets_valid rest.meets_valid
  | _ => exact Iff.rfl

theorem Items.meets_valid (is : Items) : is.Meets validLaw ↔ is.Valid := by
  cases is with
  | item value rest => exact and_congr value.meets_valid rest.meets_valid
  | _ => exact Iff.rfl

end

theorem Value.meets_valid (value : Value) : value.Meets validLaw := by
  cases value with
  | int value =>
    have hlo := value.le_toInt
    have hhi := value.toInt_lt
    exact ⟨by omega, by omega⟩
  | int64 val => exact strtoll_inInt64 val
  | string val => exact id
  | _ => trivial

theorem Call.Received.meets {strtod : Bytes → Option Double} {c : Call} (h : c.Received strtod) :
    c.Meets validLaw := by
  cases c with
  | setObject hndl key value => exact ⟨fun hutf8 => ⟨hutf8, h⟩, value.meets_valid⟩
  | setArray hndl index value => exact value.meets_valid
  | pushArray hndl value => exact value.meets_valid
  | fromString d refused | fromFile d refused | openResponse d =>
    obtain ⟨flags, report, text, rfl⟩ := h
    exact (Text.meets_valid _).mpr (jsonLoadb_valid _ _ _ _)
  | _ => trivial

theorem Stored.read {s : Store} {json : Ref} {p : Payload} (hs : Stored s)
    (h : Store.read s json = some (some p)) : p.Valid := Law.Kept.read (L := validLaw) hs h

end Law

/-- After every run of calls, whatever the plugins do, the store holds valid values only. -/
theorem run_valid {E : Host} {strtod : Bytes → Option Double} {s : State} {calls : List Call}
    (hcalls : (system E).Along (fun _ c => c.Received strtod) .empty calls)
    (hrun : (system E).run .empty calls = some s) : s.Valid := by
  have hmeets := run_meets (hcalls.mono fun _ _ => Call.Received.meets) hrun
  exact ⟨hmeets.heap, fun x hx => (Text.meets_valid _).mp (hmeets.responses x hx)⟩

end RipExt.Json
