import RipExt.Json.Denotes
import RipExt.Json.Stored

/-! The encoder and the decoder against each other: a document without a cycle is written as a
text that the decoder reads as its value, as long as it is not nested too deeply. -/
namespace RipExt.Json
open RefCount

/-- The flags of a decoder that takes every string, `JSON_ALLOW_NUL`. -/
def anyString : LoadFlags := { allowNul := true }

/-- The decoder reads the text as this value, whatever follows it in a container. -/
def Reads (strtod : Bytes → Option Double) (text : Bytes) (t : Text) : Prop :=
  ∀ depth rest, t.depth ≤ depth → Ends rest →
    scanValue strtod anyString depth (lexScan strtod anyString (text ++ rest)) = (t, some rest)

section Tokens
variable {strtod : Bytes → Option Double} {flags : LoadFlags} {b : UInt8} {rest : Bytes}

theorem lexScan_blank (rest : Bytes) :
    lexScan strtod flags (32 :: rest) = lexScan strtod flags rest := by
  unfold lexScan
  rw [List.dropWhile_cons_of_pos (by decide)]

theorem lexScan_char (hb : isPunctuation b = true) (rest : Bytes) :
    lexScan strtod flags (b :: rest) = (.char b, rest) := by
  have hblank : ¬isBlank b = true := by
    simp only [isPunctuation, Bool.or_eq_true, decide_eq_true_eq] at hb
    rcases hb with ((((rfl | rfl) | rfl) | rfl) | rfl) | rfl <;> decide
  unfold lexScan
  rw [List.dropWhile_cons_of_neg hblank]
  dsimp only
  rw [if_pos hb]

theorem Ends.unget (h : Ends rest) : unget rest = rest := by
  cases rest with
  | nil => rfl
  | cons b rest =>
    have hne : b ≠ 0 := by
      rcases h b rfl with rfl | rfl | rfl <;> decide
    rw [Json.unget, if_neg hne]

theorem Ends.not_alpha (h : Ends rest) : ∀ b ∈ rest.head?, isAlpha b = false := by
  intro b hb
  rcases h b hb with rfl | rfl | rfl <;> rfl

theorem ends_cons (hb : b = 44 ∨ b = 93 ∨ b = 125) (rest : Bytes) : Ends (b :: rest) := by
  intro c hc
  cases hc
  exact hb

theorem lexScan_string {text v : Bytes} (h : lexScanString text = some (v, rest)) :
    lexScan strtod flags (34 :: text) = (.string v, rest) := by
  unfold lexScan
  rw [List.dropWhile_cons_of_neg (by decide)]
  dsimp only
  rw [if_neg (by decide), if_pos rfl, h]

/-- The head of a number is not taken for something else. -/
theorem lexScan_number {text : Bytes} {number : Number} (hb : (isDigit b || b = 45) = true)
    (h : lexScanNumber strtod flags.decodeIntAsReal (b :: text) = some (number, rest))
    (hrest : Ends rest) : lexScan strtod flags (b :: text) = (numberToken number, rest) := by
  have hlow : b.toNat = 45 ∨ 48 ≤ b.toNat ∧ b.toNat ≤ 57 := by
    simp only [isDigit, Bool.or_eq_true, Bool.and_eq_true, decide_eq_true_eq] at hb
    rcases hb with hb | rfl
    · exact .inr hb
    · exact .inl rfl
  have hne {c : UInt8} (hc : c.toNat < 45 ∨ 57 < c.toNat) : b ≠ c := by
    rintro rfl
    omega
  have hblank : ¬isBlank b = true := by
    simp only [isBlank, Bool.or_eq_true, decide_eq_true_eq, not_or]
    refine ⟨⟨⟨hne ?_, hne ?_⟩, hne ?_⟩, hne ?_⟩ <;> decide
  have hpunctuation : ¬isPunctuation b = true := by
    simp only [isPunctuation, Bool.or_eq_true, decide_eq_true_eq, not_or]
    refine ⟨⟨⟨⟨⟨hne ?_, hne ?_⟩, hne ?_⟩, hne ?_⟩, hne ?_⟩, hne ?_⟩ <;> decide
  have hquote : b ≠ 34 := hne (by decide)
  unfold lexScan
  rw [List.dropWhile_cons_of_neg hblank]
  dsimp only
  rw [if_neg hpunctuation, if_neg hquote, if_pos hb, h]
  dsimp only
  rw [hrest.unget]

theorem lexScan_word {w : Bytes} (hword : ∀ c ∈ w, isAlpha c = true)
    (hfirst : isAlpha b = true) (hrest : Ends rest) :
    lexScan strtod flags (b :: (w ++ rest)) = (identifier (b :: w), rest) := by
  have halpha : 65 ≤ b.toNat := by
    simp only [isAlpha, Bool.or_eq_true, Bool.and_eq_true, decide_eq_true_eq] at hfirst
    omega
  have hne {c : UInt8} (hc : isAlpha c = false) : b ≠ c := by
    rintro rfl
    rw [hfirst] at hc
    cases hc
  have hblank : ¬isBlank b = true := by
    simp only [isBlank, Bool.or_eq_true, decide_eq_true_eq, not_or]
    refine ⟨⟨⟨hne ?_, hne ?_⟩, hne ?_⟩, hne ?_⟩ <;> rfl
  have hpunctuation : ¬isPunctuation b = true := by
    simp only [isPunctuation, Bool.or_eq_true, decide_eq_true_eq, not_or]
    refine ⟨⟨⟨⟨⟨hne ?_, hne ?_⟩, hne ?_⟩, hne ?_⟩, hne ?_⟩, hne ?_⟩ <;> rfl
  have hquote : b ≠ 34 := hne rfl
  have hdigit : ¬(isDigit b || b = 45) = true := by
    simp only [isDigit, Bool.or_eq_true, Bool.and_eq_true, decide_eq_true_eq, not_or]
    exact ⟨by omega, hne rfl⟩
  have htake : (w ++ rest).takeWhile isAlpha = w := by
    rw [List.takeWhile_append_of_pos hword]
    cases rest with
    | nil => simp
    | cons c rest => simp [hrest.not_alpha c rfl]
  have hdrop : (w ++ rest).dropWhile isAlpha = rest := by
    rw [List.dropWhile_append_of_pos hword]
    cases rest with
    | nil => rfl
    | cons c rest => simp [hrest.not_alpha c rfl]
  unfold lexScan
  rw [List.dropWhile_cons_of_neg hblank]
  dsimp only
  rw [if_neg hpunctuation, if_neg hquote, if_neg hdigit, if_pos hfirst, htake, hdrop, hrest.unget]

end Tokens

section Scalars
variable {C : FloatText} {strtod : Bytes → Option Double}

/-- A token that is a value by itself. -/
theorem reads_of_token {text : Bytes} {t : Text} {k : Token} (hdepth : t.depth = 1)
    (hvalue : ∀ depth rest, scanValue strtod anyString (depth + 1) (k, rest) = (t, some rest))
    (hlex : ∀ rest, Ends rest → lexScan strtod anyString (text ++ rest) = (k, rest)) :
    Reads strtod text t := by
  intro depth rest hle hrest
  obtain ⟨depth, rfl⟩ := Nat.exists_eq_add_of_le' (hdepth.symm.le.trans hle)
  rw [hlex rest hrest, hvalue]

theorem reads_true : Reads strtod trueText .true :=
  reads_of_token rfl (fun _ _ => rfl) fun _ hrest =>
    lexScan_word (b := 116) (w := [114, 117, 101]) (List.all_eq_true.mp rfl) rfl hrest

theorem reads_false : Reads strtod falseText .false :=
  reads_of_token rfl (fun _ _ => rfl) fun _ hrest =>
    lexScan_word (b := 102) (w := [97, 108, 115, 101]) (List.all_eq_true.mp rfl) rfl hrest

theorem reads_null : Reads strtod nullText .null :=
  reads_of_token rfl (fun _ _ => rfl) fun _ hrest =>
    lexScan_word (b := 110) (w := [117, 108, 108]) (List.all_eq_true.mp rfl) rfl hrest

theorem lexScan_dumpString {v : Bytes} (hv : utf8CheckString v = true) (rest : Bytes) :
    lexScan strtod anyString ((dumpString v).1 ++ rest) = (.string v, rest) := by
  have hutf8 := utf8CheckString_iff.mp hv
  rw [dumpString_utf8 hutf8, List.cons_append, List.append_assoc]
  exact lexScan_string (lexScanString_escaped hutf8 rest)

theorem reads_string {v : Bytes} (hv : utf8CheckString v = true) :
    Reads strtod (dumpString v).1 (.string v) := by
  refine reads_of_token rfl (fun depth rest => ?_) fun rest _ => lexScan_dumpString hv rest
  simp only [scanValue]
  rw [if_neg (by simp [anyString])]

theorem reads_integer {v : ℤ} (hv : InInt64 v) : Reads strtod (decimal v) (.integer v) := by
  refine reads_of_token (k := .integer v) rfl (fun _ _ => rfl) fun rest hrest => ?_
  have hscan : lexScanNumber strtod anyString.decodeIntAsReal (decimal v ++ rest) =
      some (.integer v, rest) := by
    refine lexScanNumber_decimal strtod hv.1 hv.2 fun b hb => ?_
    rcases hrest b hb with rfl | rfl | rfl <;> decide
  obtain ⟨b, bs, hdecimal, hb⟩ : ∃ b bs, decimal v = b :: bs ∧ (isDigit b || b = 45) = true := by
    unfold decimal
    split_ifs
    · exact ⟨45, _, rfl, rfl⟩
    · obtain ⟨b, bs, hb⟩ := List.exists_cons_of_ne_nil (decimalNat_ne_nil v.natAbs)
      refine ⟨b, bs, hb, ?_⟩
      rw [isDigit_decimalNat v.natAbs b (by simp [hb]), Bool.true_or]
  rw [hdecimal] at hscan ⊢
  exact lexScan_number hb hscan hrest

/-- The real number that the decoder reads is the one that was printed. -/
theorem reads_real {x : Double} (hx : C.ReadsBack x) : ∃ text y,
    jsonpDtostr C.printf x = some text ∧ x.Same y ∧ Reads C.strtod text (.real y) ∧ 0 ∉ text := by
  obtain ⟨m, hm, hprintf, hstrtod⟩ := hx
  have hform := hm.trimmed_wellFormed
  obtain ⟨y, hy, hsame⟩ := hstrtod m.trimmed hform rfl m.trimmed_magnitude
  refine ⟨m.trimmed.text, y, jsonpDtostr_numeral hm hprintf, hsame, ?_, ?_⟩
  · refine reads_of_token (k := .real y) rfl (fun _ _ => rfl) fun rest hrest => ?_
    have hscan := lexScanNumber_numeral hform m.trimmed_real hy hrest anyString.decodeIntAsReal
    obtain ⟨b, bs, htext, hb⟩ := hform.head
    rw [htext] at hscan ⊢
    exact lexScan_number hb hscan hrest
  · exact hform.not_mem_zero

end Scalars

section Containers
variable {strtod : Bytes → Option Double} {text body key : Bytes} {t : Text} {is : Items}
  {ms : Members}

/-- The decoder reads the items up to the closing bracket. -/
def ReadsItems (strtod : Bytes → Option Double) (body : Bytes) (is : Items) : Prop :=
  ∀ depth fuel rest, is.depth ≤ depth → body.length < fuel →
    scanItems strtod anyString (scanValue strtod anyString depth) fuel
      (lexScan strtod anyString (body ++ 93 :: rest)) = (is, some rest)

def ReadsMembers (strtod : Bytes → Option Double) (body : Bytes) (ms : Members) : Prop :=
  ∀ depth fuel keys rest, ms.depth ≤ depth → body.length < fuel →
    scanMembers strtod anyString (scanValue strtod anyString depth) fuel keys
      (lexScan strtod anyString (body ++ 125 :: rest)) = (ms, some rest)

theorem Reads.items (h : Reads strtod text t) : ReadsItems strtod text (.item t .closed) := by
  intro depth fuel rest hdepth hfuel
  obtain ⟨fuel, rfl⟩ := Nat.exists_eq_add_one_of_ne_zero (Nat.ne_of_gt (Nat.zero_lt_of_lt hfuel))
  have hvalue := h depth (93 :: rest) ((le_max_left _ _).trans hdepth)
    (ends_cons (.inr (.inl rfl)) rest)
  have hstart := (scanValue_sound strtod anyString depth).starts hvalue
  exact scanItems_succ.mpr ⟨hstart.1, t, 93 :: rest, hvalue, .inl ⟨lexScan_char rfl rest, rfl⟩⟩

theorem Reads.items_cons (h : Reads strtod text t) (his : ReadsItems strtod body is) :
    ReadsItems strtod (text ++ 44 :: 32 :: body) (.item t is) := by
  intro depth fuel rest hdepth hfuel
  obtain ⟨fuel, rfl⟩ := Nat.exists_eq_add_one_of_ne_zero (Nat.ne_of_gt (Nat.zero_lt_of_lt hfuel))
  have hvalue := h depth (44 :: 32 :: (body ++ 93 :: rest)) ((le_max_left _ _).trans hdepth)
    (ends_cons (.inl rfl) _)
  have hstart := (scanValue_sound strtod anyString depth).starts hvalue
  have hlength : body.length < fuel := by
    simp only [List.length_append, List.length_cons] at hfuel
    omega
  have hmore := his depth fuel rest ((le_max_right _ _).trans hdepth) hlength
  rw [List.append_assoc, List.cons_append, List.cons_append]
  refine scanItems_succ.mpr ⟨hstart.1, t, _, hvalue, .inr ⟨_, is, lexScan_char rfl _, ?_, rfl⟩⟩
  rw [lexScan_blank]
  exact hmore

theorem scanValue_close (depth : ℕ) (rest : Bytes) :
    scanValue strtod anyString depth (.char 93, rest) = (.invalid, none) := by
  cases depth <;> rfl

/-- An array with items in it. -/
theorem ReadsItems.array (h : ReadsItems strtod body is) :
    Reads strtod (91 :: body ++ [93]) (.array is) := by
  intro depth rest hdepth hrest
  obtain ⟨depth, rfl⟩ := Nat.exists_eq_add_of_le' ((Nat.le_add_left 1 _).trans hdepth)
  have htext : 91 :: body ++ [93] ++ rest = 91 :: (body ++ 93 :: rest) := by simp
  have hitems := h depth (body ++ 93 :: rest).length rest (Nat.le_of_succ_le_succ hdepth)
    (by rw [List.length_append, List.length_cons]; omega)
  rw [htext, lexScan_char rfl]
  refine scanValue_array.mpr (.inr ⟨fun hclose => ?_, is, hitems, rfl⟩)
  rw [List.length_append, List.length_cons, ← Nat.add_assoc] at hitems
  obtain ⟨-, item, r, hvalue, -⟩ := scanItems_succ.mp hitems
  have hcur : lexScan strtod anyString (body ++ 93 :: rest) =
      (.char 93, (lexScan strtod anyString (body ++ 93 :: rest)).2) := Prod.ext hclose rfl
  rw [hcur, scanValue_close] at hvalue
  cases hvalue

theorem reads_array_nil : Reads strtod (91 :: [] ++ [93]) (.array .closed) := by
  intro depth rest hdepth hrest
  obtain ⟨depth, rfl⟩ := Nat.exists_eq_add_of_le' ((Nat.le_add_left 1 _).trans hdepth)
  have htext : (91 :: [] ++ [93] ++ rest : Bytes) = 91 :: 93 :: rest := by simp
  rw [htext, lexScan_char rfl]
  exact scanValue_array.mpr (.inl ⟨lexScan_char rfl rest, rfl⟩)

/-- The text of a pair. -/
def pairText (key text : Bytes) : Bytes := (dumpString key).1 ++ 58 :: 32 :: text

/-- One pair is read, up to what follows its value. -/
theorem Reads.member (hkey : ValidKey key) (h : Reads strtod text t) {depth : ℕ}
    (hdepth : t.depth ≤ depth) {tail : Bytes} (htail : Ends tail) (keys : List Bytes) :
    ∃ r r', lexScan strtod anyString (pairText key text ++ tail) = (.string key, r) ∧
      ¬(0 ∈ key ∨ anyString.rejectDuplicates = true ∧ key ∈ keys) ∧
      lexScan strtod anyString r = (.char 58, r') ∧
      scanValue strtod anyString depth (lexScan strtod anyString r') = (t, some tail) := by
  refine ⟨58 :: 32 :: (text ++ tail), 32 :: (text ++ tail), ?_, ?_, lexScan_char rfl _, ?_⟩
  · rw [pairText, List.append_assoc, List.cons_append, List.cons_append]
    exact lexScan_dumpString hkey.1 _
  · rintro (hzero | ⟨hreject, -⟩)
    · exact hkey.2 hzero
    · cases hreject
  · rw [lexScan_blank]
    exact h depth tail hdepth htail

theorem Reads.members (hkey : ValidKey key) (h : Reads strtod text t) :
    ReadsMembers strtod (pairText key text) (.member key t .closed) := by
  intro depth fuel keys rest hdepth hfuel
  obtain ⟨fuel, rfl⟩ := Nat.exists_eq_add_one_of_ne_zero (Nat.ne_of_gt (Nat.zero_lt_of_lt hfuel))
  obtain ⟨r, r', hlex, hgood, hcolon, hvalue⟩ := h.member hkey ((le_max_left _ _).trans hdepth)
    (ends_cons (.inr (.inr rfl)) rest) keys
  exact scanMembers_succ.mpr ⟨key, r, r', t, _, hlex, hgood, hcolon, hvalue,
    .inl ⟨lexScan_char rfl rest, rfl⟩⟩

theorem Reads.members_cons (hkey : ValidKey key) (h : Reads strtod text t)
    (hms : ReadsMembers strtod body ms) :
    ReadsMembers strtod (pairText key text ++ 44 :: 32 :: body) (.member key t ms) := by
  intro depth fuel keys rest hdepth hfuel
  obtain ⟨fuel, rfl⟩ := Nat.exists_eq_add_one_of_ne_zero (Nat.ne_of_gt (Nat.zero_lt_of_lt hfuel))
  have hlength : body.length < fuel := by
    simp only [List.length_append, List.length_cons] at hfuel
    omega
  obtain ⟨r, r', hlex, hgood, hcolon, hvalue⟩ := h.member hkey ((le_max_left _ _).trans hdepth)
    (ends_cons (.inl rfl) (32 :: (body ++ 125 :: rest))) keys
  have hmore := hms depth fuel (key :: keys) rest ((le_max_right _ _).trans hdepth) hlength
  rw [List.append_assoc, List.cons_append, List.cons_append]
  refine scanMembers_succ.mpr ⟨key, r, r', t, _, hlex, hgood, hcolon, hvalue,
    .inr ⟨_, ms, lexScan_char rfl _, ?_, rfl⟩⟩
  rw [lexScan_blank]
  exact hmore

/-- An object with pairs in it. -/
theorem ReadsMembers.object (h : ReadsMembers strtod body ms) :
    Reads strtod (123 :: body ++ [125]) (.object ms) := by
  intro depth rest hdepth hrest
  obtain ⟨depth, rfl⟩ := Nat.exists_eq_add_of_le' ((Nat.le_add_left 1 _).trans hdepth)
  have htext : 123 :: body ++ [125] ++ rest = 123 :: (body ++ 125 :: rest) := by simp
  have hmembers := h depth (body ++ 125 :: rest).length [] rest (Nat.le_of_succ_le_succ hdepth)
    (by rw [List.length_append, List.length_cons]; omega)
  rw [htext, lexScan_char rfl]
  refine scanValue_object.mpr (.inr ⟨fun hclose => ?_, ms, hmembers, rfl⟩)
  rw [List.length_append, List.length_cons, ← Nat.add_assoc] at hmembers
  obtain ⟨key, r, r', member, r'', hcur, -⟩ := scanMembers_succ.mp hmembers
  rw [hcur] at hclose
  cases hclose

theorem reads_object_nil : Reads strtod (123 :: [] ++ [125]) (.object .closed) := by
  intro depth rest hdepth hrest
  obtain ⟨depth, rfl⟩ := Nat.exists_eq_add_of_le' ((Nat.le_add_left 1 _).trans hdepth)
  have htext : (123 :: [] ++ [125] ++ rest : Bytes) = 123 :: 125 :: rest := by simp
  rw [htext, lexScan_char rfl]
  exact scanValue_object.mpr (.inl ⟨lexScan_char rfl rest, rfl⟩)

end Containers

/-- The text is written for a value: the decoder reads that value from it, and it is a C string. -/
def Writes (strtod : Bytes → Option Double) (s : Store) (depth : ℕ) (json : Ref) (text : Bytes) :
    Prop :=
  ∃ t, Denotes s t json ∧ t.depth ≤ depth ∧ Reads strtod text t ∧ 0 ∉ text

/-- What is assumed of the C library at the real numbers in the store. -/
def RealsReadBack (C : FloatText) (s : Store) : Prop :=
  ∀ json x, Store.read s json = some (some (.real x)) → C.ReadsBack x

section Joining
variable {strtod : Bytes → Option Double} {s : Store} {depth : ℕ}

theorem joinDumps_cons {text body : Bytes} {result : Option (Option Bytes)}
    {rest : List (Option (Option Bytes))} (h : joinDumps (result :: rest) = some (some body)) :
    joinDumps (some (some text) :: result :: rest) = some (some (text ++ 44 :: 32 :: body)) := by
  rw [joinDumps, h]
  · rfl
  · simp

theorem not_mem_comma {text body : Bytes} (htext : 0 ∉ text) (hbody : 0 ∉ body) :
    0 ∉ text ++ 44 :: 32 :: body := by
  simp only [List.mem_append, List.mem_cons, not_or]
  exact ⟨htext, by decide, by decide, hbody⟩

theorem joinDumps_items {f : Ref → Option (Option Bytes)} {table : List Ref}
    (h : ∀ v ∈ table, ∃ text, f v = some (some text) ∧ Writes strtod s depth v text) :
    ∃ body is, joinDumps (table.map f) = some (some body) ∧ DenotesItems s is table ∧
      is.depth ≤ depth ∧ 0 ∉ body ∧ Reads strtod (91 :: body ++ [93]) (.array is) ∧
      (table ≠ [] → ReadsItems strtod body is) := by
  induction table with
  | nil =>
    exact ⟨[], .closed, rfl, rfl, Nat.zero_le _, List.not_mem_nil, reads_array_nil,
      fun hne => absurd rfl hne⟩
  | cons v table ih =>
    obtain ⟨text, hf, t, hdenotes, hdepth, hreads, hzero⟩ := h v (List.mem_cons_self ..)
    obtain ⟨body, is, hjoin, his, hdepth', hzero', -, hitems⟩ :=
      ih fun w hw => h w (List.mem_cons_of_mem _ hw)
    cases table with
    | nil =>
      have hone := hreads.items
      refine ⟨text, .item t .closed, hf, ⟨v, [], rfl, hdenotes, rfl⟩,
        max_le hdepth (Nat.zero_le _), hzero, hone.array, fun _ => hone⟩
    | cons w table =>
      have hall := hreads.items_cons (hitems (List.cons_ne_nil _ _))
      refine ⟨text ++ 44 :: 32 :: body, .item t is, ?_, ⟨v, _, rfl, hdenotes, his⟩,
        max_le hdepth hdepth', not_mem_comma hzero hzero', hall.array, fun _ => hall⟩
      rw [List.map_cons, hf]
      exact joinDumps_cons hjoin

theorem not_mem_zero_escaped (v : Bytes) : 0 ∉ v.flatMap escaped := by
  intro hmem
  obtain ⟨b, -, hb⟩ := List.mem_flatMap.mp hmem
  unfold escaped at hb
  rcases escapeByte_cases b with ⟨c, h, hc, -⟩ | ⟨h, hlt⟩ | ⟨h, -, -, hlow⟩
  · rw [h, Option.getD_some] at hb
    simp only [List.mem_cons, List.not_mem_nil, or_false] at hb
    rcases hb with hb | rfl
    · cases hb
    · cases hc
  · have hdigit {n : ℕ} (hn : n < 16) : (0 : UInt8) ≠ Percent.hexDigit n := by
      interval_cases n <;> decide
    have hhigh := hdigit (n := b.toNat / 16) (by omega)
    have hlow := hdigit (n := b.toNat % 16) (by omega)
    rw [h, Option.getD_some] at hb
    simp [hhigh, hlow] at hb
  · rw [h, Option.getD_none, List.mem_singleton] at hb
    rw [← hb] at hlow
    simp at hlow

theorem not_mem_zero_dumpString {v : Bytes} (hv : utf8CheckString v = true) :
    0 ∉ (dumpString v).1 := by
  rw [dumpString_utf8 (utf8CheckString_iff.mp hv)]
  simp only [List.mem_cons, List.mem_append, not_or]
  exact ⟨by decide, not_mem_zero_escaped v, by decide, List.not_mem_nil⟩

theorem not_mem_zero_pair {key text : Bytes} (hkey : ValidKey key) (htext : 0 ∉ text) :
    0 ∉ pairText key text := by
  simp only [pairText, List.mem_append, List.mem_cons, not_or]
  exact ⟨not_mem_zero_dumpString hkey.1, by decide, by decide, htext⟩

theorem joinDumps_members {f : Ref → Option (Option Bytes)} {es : List Entry}
    (hkeys : ∀ e ∈ es, ValidKey e.key)
    (h : ∀ e ∈ es, ∃ text, f e.value = some (some text) ∧ Writes strtod s depth e.value text) :
    ∃ body ms, joinDumps (es.map fun e => (f e.value).map (Option.map fun text =>
        (dumpString e.key).1 ++ 58 :: 32 :: text)) = some (some body) ∧ DenotesMembers s ms es ∧
      ms.depth ≤ depth ∧ 0 ∉ body ∧ Reads strtod (123 :: body ++ [125]) (.object ms) ∧
      (es ≠ [] → ReadsMembers strtod body ms) := by
  induction es with
  | nil =>
    exact ⟨[], .closed, rfl, rfl, Nat.zero_le _, List.not_mem_nil, reads_object_nil,
      fun hne => absurd rfl hne⟩
  | cons e es ih =>
    obtain ⟨text, hf, t, hdenotes, hdepth, hreads, hzero⟩ := h e (List.mem_cons_self ..)
    obtain ⟨body, ms, hjoin, hms, hdepth', hzero', -, hmembers⟩ :=
      ih (fun e he => hkeys e (List.mem_cons_of_mem _ he))
        fun e he => h e (List.mem_cons_of_mem _ he)
    have hkey := hkeys e (List.mem_cons_self ..)
    have hpair := not_mem_zero_pair hkey hzero
    have hfirst : (f e.value).map (Option.map fun text =>
        (dumpString e.key).1 ++ 58 :: 32 :: text) = some (some (pairText e.key text)) := by
      rw [hf]
      rfl
    cases es with
    | nil =>
      have hone := hreads.members hkey
      refine ⟨pairText e.key text, .member e.key t .closed, hfirst,
        ⟨e, [], rfl, rfl, hdenotes, rfl⟩, max_le hdepth (Nat.zero_le _), hpair, hone.object,
        fun _ => hone⟩
    | cons e' es =>
      have hall := hreads.members_cons hkey (hmembers (List.cons_ne_nil _ _))
      refine ⟨pairText e.key text ++ 44 :: 32 :: body, .member e.key t ms, ?_,
        ⟨e, _, rfl, rfl, hdenotes, hms⟩, max_le hdepth hdepth', not_mem_comma hpair hzero',
        hall.object, fun _ => hall⟩
      rw [List.map_cons, hfirst]
      exact joinDumps_cons hjoin

end Joining

section Dumping
variable {C : FloatText} {s : Store} {parents : List ℕ} {n depth : ℕ}

theorem not_mem_zero_decimal (v : ℤ) : 0 ∉ decimal v := by
  have hdigits : (0 : UInt8) ∉ decimalNat v.natAbs := fun h => by
    cases isDigit_decimalNat _ _ h
  unfold decimal
  split_ifs
  · rw [List.mem_cons, not_or]
    exact ⟨by decide, hdigits⟩
  · exact hdigits

theorem dumpInteger_inInt64 {v : ℤ} (hv : InInt64 v) : dumpInteger v = some (decimal v) := by
  have hsmall : v.natAbs < 10 ^ 19 := by
    have hlo := hv.1
    have hhi := hv.2
    omega
  have hdigits := (decimalNat_length v.natAbs 18).mpr hsmall
  have hlength : (decimal v).length ≤ 20 := by
    unfold decimal
    split_ifs
    · rw [List.length_cons]
      omega
    · omega
  rw [dumpInteger, if_neg]
  unfold maxNumberStrLength
  omega

/-- The least depth that a container is within: what it holds is within less, and it is not. -/
theorem exists_least_depth (h : nestedWithin s depth (.node n) = true) :
    ∃ k < depth, nestedWithin s (k + 1) (.node n) = true ∧
      nestedWithin s k (.node n) = false := by
  induction depth with
  | zero => cases h
  | succ depth ih =>
    by_cases hless : nestedWithin s depth (.node n) = true
    · obtain ⟨k, hk, hwithin⟩ := ih hless
      exact ⟨k, Nat.lt_succ_of_lt hk, hwithin⟩
    · exact ⟨depth, Nat.lt_succ_self depth, h, Bool.eq_false_of_not_eq_true hless⟩

/-- The encoder gets through a document that is nested within some depth: the nodes above the
current one are nested more deeply, so that none of them comes again. -/
theorem doDump_writes (hs : Stored s) (hbound : Bounded s) (hreals : RealsReadBack C s)
    (depth : ℕ) : ∀ {json fuel parents}, nestedWithin s depth json = true → Path s parents →
      fuel + parents.length = s.next + 1 →
      (∀ m ∈ parents, nestedWithin s depth (.node m) = false) →
      ∃ text, doDump C.printf s fuel parents json = some (some text) ∧
        Writes C.strtod s depth json text := by
  induction depth using Nat.strong_induction_on with
  | h depth ih =>
    intro json fuel parents hnested hpath hfuel hparents
    have hlength := hpath.length_le
    obtain ⟨fuel, rfl⟩ := Nat.exists_eq_add_one_of_ne_zero (by omega : fuel ≠ 0)
    have hpos : 1 ≤ depth := by
      rcases Nat.eq_zero_or_pos depth with rfl | hpos
      · cases hnested
      · exact hpos
    cases json with
    | true => exact ⟨trueText, rfl, .true, rfl, hpos, reads_true, by decide⟩
    | false => exact ⟨falseText, rfl, .false, rfl, hpos, reads_false, by decide⟩
    | null => exact ⟨nullText, rfl, .null, rfl, hpos, reads_null, by decide⟩
    | node n =>
      obtain ⟨k, hk, hwithin, hnot⟩ := exists_least_depth hnested
      rw [nestedWithin] at hwithin
      cases hc : s.cells n with
      | none => simp [Store.read, hc] at hwithin
      | some c =>
        have hread : Store.read s (.node n) = some (some c.payload) := by
          rw [Store.read, hc, Option.map_some]
        have hvalid := hs n c hc
        have hnew : n ∉ parents := fun hmem => by
          rw [hparents n hmem] at hnested
          cases hnested
        have hchild {v : Ref} (hv : nestedWithin s k v = true) :
            ∃ text, doDump C.printf s fuel (n :: parents) v = some (some text) ∧
              Writes C.strtod s k v text := by
          refine ih k hk hv (hpath.cons hnew (hbound.lt_next hc)) ?_ fun m hm => ?_
          · rw [List.length_cons]
            omega
          · rcases List.mem_cons.mp hm with rfl | hm
            · exact hnot
            · refine Bool.eq_false_of_not_eq_true fun hm' => ?_
              have hmono := nestedWithin_mono hk.le hm'
              rw [hparents m hm] at hmono
              cases hmono
        rw [hread] at hwithin
        rw [doDump, hc, Option.bind_some]
        cases hp : c.payload with
        | integer v =>
          rw [hp] at hread hvalid
          exact ⟨decimal v, congrArg some (dumpInteger_inInt64 hvalid), .integer v, hread, hpos,
            reads_integer hvalid, not_mem_zero_decimal v⟩
        | real x =>
          rw [hp] at hread
          obtain ⟨text, y, htext, hsame, hreads, hzero⟩ := reads_real (hreals _ x hread)
          exact ⟨text, congrArg some htext, .real y, ⟨x, hread, hsame⟩, hpos, hreads, hzero⟩
        | string v =>
          rw [hp] at hread hvalid
          have hok : (dumpString v).2 = true := by
            rw [dumpString_utf8 (utf8CheckString_iff.mp hvalid)]
          exact ⟨(dumpString v).1, congrArg some (if_pos hok), .string v, hread, hpos,
            reads_string hvalid, not_mem_zero_dumpString hvalid⟩
        | array table =>
          rw [hp] at hread hwithin
          have hall := List.all_eq_true.mp hwithin
          obtain ⟨body, is, hjoin, his, hdepth, hzero, hreads, -⟩ :=
            joinDumps_items fun v hv => hchild (hall v hv)
          refine ⟨91 :: body ++ [93], ?_, .array is, ⟨table, hread, his⟩, ?_, hreads, ?_⟩
          · dsimp only
            rw [if_neg hnew, hjoin]
            rfl
          · exact (Nat.succ_le_succ hdepth).trans hk
          · simpa using hzero
        | object es =>
          rw [hp] at hread hwithin hvalid
          have hall := List.all_eq_true.mp hwithin
          obtain ⟨body, ms, hjoin, hms, hdepth, hzero, hreads, -⟩ :=
            joinDumps_members hvalid.1 fun e he => hchild (hall e he)
          refine ⟨123 :: body ++ [125], ?_, .object ms, ⟨es, hread, hms⟩, ?_, hreads, ?_⟩
          · dsimp only
            rw [if_neg hnew, hjoin]
            rfl
          · exact (Nat.succ_le_succ hdepth).trans hk
          · simpa using hzero

end Dumping

section Documents
variable {C : FloatText} {s : Store} {json : Ref} {strtod : Bytes → Option Double}

/-- A text that is a container starts with its bracket. -/
theorem scanValue_container {flags : LoadFlags} {depth : ℕ} {cur : Token × Bytes} {t : Text}
    {rest : Bytes} (h : scanValue strtod flags depth cur = (t, some rest))
    (ht : (∃ is, t = .array is) ∨ ∃ ms, t = .object ms) : cur.1 = .char 91 ∨ cur.1 = .char 123 := by
  obtain ⟨tok, r⟩ := cur
  cases depth with
  | zero => cases h
  | succ depth =>
    cases tok with
    | char c =>
      simp only [scanValue] at h
      split_ifs at h with hobject hempty harray hempty
      · exact .inr (by rw [hobject])
      · exact .inr (by rw [hobject])
      · exact .inl (by rw [harray])
      · exact .inl (by rw [harray])
      · cases h
    | string v =>
      simp only [scanValue] at h
      split_ifs at h
      · cases h
      · cases h
        rcases ht with ⟨is, ht⟩ | ⟨ms, ht⟩ <;> cases ht
    | eof => cases h
    | invalid => cases h
    | _ =>
      cases h
      rcases ht with ⟨is, ht⟩ | ⟨ms, ht⟩ <;> cases ht

theorem Denotes.container {t : Text} (h : Denotes s t json)
    (hcontainer : jsonIsContainer s json = some true) :
    (∃ is, t = .array is) ∨ ∃ ms, t = .object ms := by
  cases t with
  | array is => exact .inl ⟨is, rfl⟩
  | object ms => exact .inr ⟨ms, rfl⟩
  | string v =>
    have hread : Store.read s json = some (some (.string v)) := h
    simp [jsonIsContainer, hread] at hcontainer
  | integer v =>
    have hread : Store.read s json = some (some (.integer v)) := h
    simp [jsonIsContainer, hread] at hcontainer
  | real y =>
    obtain ⟨x, hread, -⟩ := h
    simp [jsonIsContainer, hread] at hcontainer
  | true =>
    obtain rfl : json = .true := h
    simp [jsonIsContainer, Store.read] at hcontainer
  | false =>
    obtain rfl : json = .false := h
    simp [jsonIsContainer, Store.read] at hcontainer
  | null =>
    obtain rfl : json = .null := h
    simp [jsonIsContainer, Store.read] at hcontainer
  | invalid => exact h.elim

/-- The document that the decoder makes of a container's text. -/
theorem Reads.document {text : Bytes} {t : Text} (h : Reads strtod text t)
    (hdepth : t.depth ≤ jsonParserMaxDepth) (ht : (∃ is, t = .array is) ∨ ∃ ms, t = .object ms)
    (report : Bytes → JsonError) :
    (jsonLoadb strtod anyString report text).text = t ∧
      (jsonLoadb strtod anyString report text).ended = true := by
  have hscan := h jsonParserMaxDepth [] hdepth (by simp [Ends])
  rw [List.append_nil] at hscan
  have hfirst : ¬(anyString.decodeAny = false ∧ (lexScan strtod anyString text).1 ≠ .char 91 ∧
      (lexScan strtod anyString text).1 ≠ .char 123) := by
    rintro ⟨-, harray, hobject⟩
    exact (scanValue_container hscan ht).elim harray hobject
  unfold jsonLoadb
  dsimp only
  rw [if_neg hfirst, hscan]
  exact ⟨rfl, rfl⟩

/-- `json_dumps` of an object or an array that is nested within the depth of the decoder. -/
theorem jsonDumps_decodes (hs : Stored s) (hbound : Bounded s) (hreals : RealsReadBack C s)
    (hcontainer : jsonIsContainer s json = some true)
    (hnested : nestedWithin s jsonParserMaxDepth json = true) (report : Bytes → JsonError) :
    ∃ body, jsonDumps C.printf s json = some (some body) ∧
      Denotes s (jsonLoadb C.strtod anyString report body).text json ∧
      (jsonLoadb C.strtod anyString report body).Accepted := by
  obtain ⟨body, hdump, t, hdenotes, hdepth, hreads, hzero⟩ :=
    doDump_writes hs hbound hreals jsonParserMaxDepth hnested ⟨List.nodup_nil, by simp⟩
      (by simp : s.next + 1 + ([] : List ℕ).length = s.next + 1) (by simp)
  obtain ⟨htext, hended⟩ := hreads.document hdepth (hdenotes.container hcontainer) report
  refine ⟨body, ?_, ?_, ?_, hended⟩
  · have hstring : body.takeWhile (· ≠ 0) = body := by
      refine List.takeWhile_eq_self_iff.mpr fun b hb => ?_
      rw [decide_eq_true_eq]
      rintro rfl
      exact hzero hb
    rw [jsonDumps, hcontainer, Option.bind_some, if_pos rfl, hdump, Option.map_some,
      Option.map_some, hstring]
  · rw [htext]
    exact hdenotes
  · rw [htext]
    exact hdenotes.complete

end Documents

end RipExt.Json
