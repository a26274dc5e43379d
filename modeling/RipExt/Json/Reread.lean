import RipExt.Json.Tree

/-! The decoder on a printed text. It reads the tree back, with blanks between the tokens and any
character written as an escape, whatever the flags of the two sides are. -/
namespace RipExt.Json

/-- What may follow a value in a printed text. -/
def Stops (rest : Bytes) : Prop :=
  ∀ b ∈ rest.head?, isBlank b = true ∨ b = 44 ∨ b = 93 ∨ b = 125

section Stops
variable {strtod : Bytes → Option Double} {flags : LoadFlags} {text rest more : Bytes}
  {p : UInt8 → Bool}

theorem stops_cases (h : Stops more) :
    more = [] ∨ ∃ b tail, more = b :: tail ∧ isDigit b = false ∧ isAlpha b = false ∧ b ≠ 46 ∧
      b ≠ 69 ∧ b ≠ 101 ∧ b ≠ 0 := by
  cases more with
  | nil => exact .inl rfl
  | cons b tail =>
    refine .inr ⟨b, tail, rfl, ?_⟩
    have hb := h b rfl
    simp only [isBlank, Bool.or_eq_true, decide_eq_true_eq] at hb
    rcases hb with (((rfl | rfl) | rfl) | rfl) | rfl | rfl | rfl <;> decide

/-- A run that a stop ends is the same run whether the text ends there or not. -/
theorem takeWhile_append_stop (text : Bytes) (h : ∀ b ∈ more.head?, p b = false) :
    (text ++ more).takeWhile p = text.takeWhile p ∧
      (text ++ more).dropWhile p = text.dropWhile p ++ more := by
  induction text with
  | nil =>
    cases more with
    | nil => exact ⟨rfl, rfl⟩
    | cons b tail =>
      have hb : ¬p b = true := by simp [h b rfl]
      exact ⟨List.takeWhile_cons_of_neg hb, List.dropWhile_cons_of_neg hb⟩
  | cons b text ih =>
    by_cases hb : p b = true
    · simp only [List.cons_append, List.takeWhile_cons_of_pos hb, List.dropWhile_cons_of_pos hb, ih,
        and_self]
    · simp only [List.cons_append, List.takeWhile_cons_of_neg hb, List.dropWhile_cons_of_neg hb,
        and_self]

theorem Stops.not_digit (h : Stops more) : ∀ b ∈ more.head?, isDigit b = false := by
  rcases stops_cases h with rfl | ⟨b, tail, rfl, hdigit, -⟩
  · simp
  · intro c hc
    cases hc
    exact hdigit

theorem Stops.not_alpha (h : Stops more) : ∀ b ∈ more.head?, isAlpha b = false := by
  rcases stops_cases h with rfl | ⟨b, tail, rfl, -, halpha, -⟩
  · simp
  · intro c hc
    cases hc
    exact halpha

theorem Stops.unget_append (h : Stops more) : unget (text ++ more) = unget text ++ more := by
  cases text with
  | nil =>
    rcases stops_cases h with rfl | ⟨b, tail, rfl, -, -, -, -, -, hzero⟩
    · rfl
    · exact if_neg hzero
  | cons b text =>
    rw [List.cons_append, unget, unget]
    split_ifs <;> rfl

theorem lexFraction_stop {fraction : Bytes} (h : lexFraction text = some (fraction, rest))
    (hmore : Stops more) : lexFraction (text ++ more) = some (fraction, rest ++ more) := by
  cases text with
  | nil =>
    cases h
    rcases stops_cases hmore with rfl | ⟨b, tail, rfl, -, -, hpoint, -⟩
    · rfl
    · exact if_neg hpoint
  | cons b text =>
    obtain ⟨htake, hdrop⟩ := takeWhile_append_stop text hmore.not_digit
    rw [List.cons_append, lexFraction, htake, hdrop]
    rw [lexFraction] at h
    split_ifs at h ⊢ with hpoint hdigits
    · cases h
      rfl
    · cases h
      rfl

theorem lexExponent_stop {exponent : Bytes} (h : lexExponent text = some (exponent, rest))
    (hmore : Stops more) : lexExponent (text ++ more) = some (exponent, rest ++ more) := by
  cases text with
  | nil =>
    cases h
    rcases stops_cases hmore with rfl | ⟨b, tail, rfl, -, -, -, he, he', -⟩
    · rfl
    · exact if_neg (not_or.mpr ⟨he, he'⟩)
  | cons b text =>
    rw [List.cons_append, lexExponent]
    rw [lexExponent] at h
    split_ifs at h ⊢ with hletter
    · have htext : text ≠ [] := by
        rintro rfl
        cases h
      have hsign : (text ++ more).take 1 = text.take 1 :=
        List.take_append_of_le_length (List.length_pos_iff.mpr htext)
      have hskip : ((text.take 1).filter fun c => c = 43 ∨ c = 45).length ≤ text.length :=
        (List.length_filter_le _ _).trans (List.take_sublist 1 text).length_le
      dsimp only at h ⊢
      rw [hsign, List.drop_append_of_le_length hskip]
      obtain ⟨htake, hdrop⟩ := takeWhile_append_stop _ hmore.not_digit
      rw [htake, hdrop]
      split_ifs at h ⊢
      cases h
      rfl
    · cases h
      rfl

theorem afterDigits_stop {intAsReal : Bool} {number : Number} {integer tail : Bytes}
    (h : afterDigits strtod intAsReal integer tail = some (number, rest)) (hmore : Stops more) :
    afterDigits strtod intAsReal integer (tail ++ more) = some (number, rest ++ more) := by
  have hhead : ((tail ++ more).head?.all fun c => c ≠ 46 ∧ c ≠ 69 ∧ c ≠ 101) =
      tail.head?.all fun c => c ≠ 46 ∧ c ≠ 69 ∧ c ≠ 101 := by
    cases tail with
    | nil =>
      rcases stops_cases hmore with rfl | ⟨b, tail, rfl, -, -, hpoint, he, he', -⟩
      · rfl
      · simp [hpoint, he, he']
    | cons b tail => rfl
  unfold afterDigits at h ⊢
  rw [hhead]
  split_ifs at h ⊢ with hint
  · split at h
    · cases h
    · cases h
      rfl
  · obtain ⟨⟨fraction, middle⟩, hfraction, h⟩ := Option.bind_eq_some_iff.mp h
    obtain ⟨⟨exponent, rest'⟩, hexponent, h⟩ := Option.bind_eq_some_iff.mp h
    obtain ⟨value, hvalue, h⟩ := Option.bind_eq_some_iff.mp h
    cases h
    simp only [lexFraction_stop hfraction hmore, lexExponent_stop hexponent hmore, hvalue,
      Option.bind_eq_bind, Option.bind_some]

theorem lexScanNumber_stop {intAsReal : Bool} {number : Number}
    (h : lexScanNumber strtod intAsReal text = some (number, rest)) (hmore : Stops more) :
    lexScanNumber strtod intAsReal (text ++ more) = some (number, rest ++ more) := by
  have htext : text ≠ [] := by
    rintro rfl
    cases h
  have hminus : minus (text ++ more) = minus text := by
    unfold minus
    rw [List.take_append_of_le_length (List.length_pos_iff.mpr htext)]
  have hsign : (minus text).length ≤ text.length :=
    (List.length_filter_le _ _).trans (List.take_sublist 1 text).length_le
  obtain ⟨htake, hdrop⟩ := takeWhile_append_stop (text.drop (minus text).length)
    hmore.not_digit
  rw [lexScanNumber_eq] at h ⊢
  dsimp only at h ⊢
  rw [hminus, List.drop_append_of_le_length hsign, htake, hdrop]
  split_ifs at h ⊢
  exact afterDigits_stop h hmore

/-- A token at the end of a text is the same token before a stop. -/
theorem lexScan_stop {b : UInt8} (hb : isBlank b = false) {tok : Token}
    (h : lexScan strtod flags (b :: text) = (tok, rest)) (htok : tok ≠ .invalid)
    (hmore : Stops more) : lexScan strtod flags (b :: text ++ more) = (tok, rest ++ more) := by
  have hblank : ¬isBlank b = true := by simp [hb]
  unfold lexScan at h ⊢
  rw [List.dropWhile_cons_of_neg hblank] at h
  rw [List.cons_append, List.dropWhile_cons_of_neg hblank]
  dsimp only at h ⊢
  split_ifs at h ⊢ with hchar hquote hnumber halpha
  · cases h
    rfl
  · cases hstring : lexScanString text with
    | none =>
      rw [hstring] at h
      cases h
      exact absurd rfl htok
    | some r =>
      rw [hstring] at h
      cases h
      rw [lexScanString_append hstring]
  · cases hscan : lexScanNumber strtod flags.decodeIntAsReal (b :: text) with
    | none =>
      rw [hscan] at h
      cases h
      exact absurd rfl htok
    | some r =>
      rw [hscan] at h
      cases h
      have hstop := lexScanNumber_stop hscan hmore
      rw [List.cons_append] at hstop
      rw [hstop]
      dsimp only
      rw [hmore.unget_append]
  · obtain ⟨htake, hdrop⟩ := takeWhile_append_stop text hmore.not_alpha
    rw [htake, hdrop, hmore.unget_append]
    cases h
    rfl
  · cases h
    exact absurd rfl htok

end Stops

section Strings
variable {c : ℕ} {dumpFlags : DumpFlags}

/-- The text of an escape: a short one, one of the BMP, or a surrogate pair. -/
theorem escapeText_cases (c : ℕ) :
    (∃ x, Dump.escapeText c = [92, x] ∧ isEscape x = true ∧ x ≠ 117 ∧
      unescape x = UInt8.ofNat c ∧ c < 0x80) ∨
    (Dump.escapeText c = Dump.unicodeEscape c ∧ c < 0x10000) ∨
    (Dump.escapeText c = Dump.unicodeEscape (0xD800 + (c - 0x10000) / 1024) ++
      Dump.unicodeEscape (0xDC00 + (c - 0x10000) % 1024) ∧ 0x10000 ≤ c) := by
  unfold Dump.escapeText
  split_ifs with h₁ h₂ h₃ h₄ h₅ h₆ h₇ h₈ hbmp
  · exact .inl ⟨92, rfl, rfl, by decide, by rw [h₁]; rfl, by omega⟩
  · exact .inl ⟨34, rfl, rfl, by decide, by rw [h₂]; rfl, by omega⟩
  · exact .inl ⟨98, rfl, rfl, by decide, by rw [h₃]; rfl, by omega⟩
  · exact .inl ⟨102, rfl, rfl, by decide, by rw [h₄]; rfl, by omega⟩
  · exact .inl ⟨110, rfl, rfl, by decide, by rw [h₅]; rfl, by omega⟩
  · exact .inl ⟨114, rfl, rfl, by decide, by rw [h₆]; rfl, by omega⟩
  · exact .inl ⟨116, rfl, rfl, by decide, by rw [h₇]; rfl, by omega⟩
  · exact .inl ⟨47, rfl, rfl, by decide, by rw [h₈]; rfl, by omega⟩
  · exact .inr (.inl ⟨rfl, hbmp⟩)
  · exact .inr (.inr ⟨rfl, Nat.le_of_not_lt hbmp⟩)

/-- The four digits of `\u%04X`. -/
def hexDigits (value : ℕ) : Bytes :=
  [Percent.hexDigit (value / 4096 % 16), Percent.hexDigit (value / 256 % 16),
    Percent.hexDigit (value / 16 % 16), Percent.hexDigit (value % 16)]

theorem decodeUnicodeEscape_hexDigits (value : ℕ) (hvalue : value < 0x10000) (raw : Bytes) :
    decodeUnicodeEscape (hexDigits value ++ raw) = value := by
  have hdigit (n : ℕ) : (Percent.hexValue (Percent.hexDigit (n % 16))).getD 0 = n % 16 := by
    rw [Percent.hexValue_hexDigit (Nat.mod_lt _ (by decide)), Option.getD_some]
  simp only [decodeUnicodeEscape, hexDigits, List.cons_append, List.nil_append, List.take_succ_cons,
    List.take_zero, List.foldl_cons, List.foldl_nil, hdigit]
  omega

theorem lexString_escape {n : ℕ} {u text : Bytes} (h : escapeLength (u ++ text) = some n)
    (hn : u.length = n) :
    lexString 0 (92 :: u ++ text) = (lexString 0 text).map fun r => (92 :: u ++ r.1, r.2) := by
  have hround : lexString 0 (92 :: (u ++ text)) = keep 92 (lexString u.length (u ++ text)) := by
    rw [lexString, if_neg (by decide), if_neg (by decide), if_pos rfl, h, hn]
  rw [List.cons_append, hround, lexString_skip, keep, Option.map_map]
  rfl

theorem lexString_unicodeEscape (value : ℕ) (text : Bytes) :
    lexString 0 (Dump.unicodeEscape value ++ text) =
      (lexString 0 text).map fun r => (Dump.unicodeEscape value ++ r.1, r.2) := by
  have hdigit (n : ℕ) : isXdigit (Percent.hexDigit (n % 16)) = true := by
    rw [isXdigit, Percent.hexValue_hexDigit (Nat.mod_lt _ (by decide)), Option.isSome_some]
  have hlen : escapeLength (117 :: hexDigits value ++ text) = some 5 := by
    rw [List.cons_append, escapeLength, if_pos rfl, if_pos]
    simp [hexDigits, hdigit]
  exact lexString_escape hlen rfl

/-- The first loop of `lex_scan_string` passes over a character, escaped or not. -/
theorem lexString_written (hc : Scalar c) (text : Bytes) :
    lexString 0 (Dump.written dumpFlags c ++ text) =
      (lexString 0 text).map fun r => (Dump.written dumpFlags c ++ r.1, r.2) := by
  unfold Dump.written
  cases hescape : Dump.escapes dumpFlags c with
  | false =>
    rw [if_neg Bool.false_ne_true, ← flatMap_escaped_encode hc hescape]
    exact lexString_escaped (utf8Encode_sequence hc.1 hc.2) text
  | true =>
    rw [if_pos rfl]
    rcases escapeText_cases c with ⟨x, h, hx, hne, -⟩ | ⟨h, -⟩ | ⟨h, -⟩
    · have hlen : escapeLength ([x] ++ text) = some 1 := by
        rw [List.singleton_append, escapeLength, if_neg hne, if_pos hx]
      rw [h]
      exact lexString_escape hlen rfl
    · rw [h]
      exact lexString_unicodeEscape c text
    · rw [h, List.append_assoc, lexString_unicodeEscape, lexString_unicodeEscape, Option.map_map]
      rfl

theorem decodeString_pair (high low : ℕ) (hhigh : high < 1024) (hlow : low < 1024) (raw : Bytes) :
    decodeString 0 (Dump.unicodeEscape (0xD800 + high) ++ (Dump.unicodeEscape (0xDC00 + low) ++ raw)) =
      (decodeString 0 raw).map (utf8Encode (high * 1024 + low + 0x10000) ++ ·) := by
  have hfirst := decodeUnicodeEscape_hexDigits (0xD800 + high) (by omega)
    (92 :: 117 :: (hexDigits (0xDC00 + low) ++ raw))
  have hsecond := decodeUnicodeEscape_hexDigits (0xDC00 + low) (by omega) raw
  have hskip := decodeString_skip
    (117 :: hexDigits (0xD800 + high) ++ 92 :: 117 :: hexDigits (0xDC00 + low)) raw
  have hvalue : (0xD800 + high - 0xD800) * 1024 + (0xDC00 + low - 0xDC00) + 0x10000 =
      high * 1024 + low + 0x10000 := by omega
  show decodeString 0 (92 :: 117 :: (hexDigits (0xD800 + high) ++
    92 :: 117 :: (hexDigits (0xDC00 + low) ++ raw))) = _
  rw [decodeString, if_pos rfl]
  dsimp only
  rw [if_pos rfl, hfirst, if_pos (by omega)]
  have hdrop : (hexDigits (0xD800 + high) ++
      92 :: 117 :: (hexDigits (0xDC00 + low) ++ raw)).drop 6 = hexDigits (0xDC00 + low) ++ raw := rfl
  have hnext : ((hexDigits (0xD800 + high) ++
      92 :: 117 :: (hexDigits (0xDC00 + low) ++ raw)).drop 4).take 2 = [92, 117] := rfl
  rw [hdrop, hnext, hsecond, if_pos ⟨rfl, by omega⟩, hvalue]
  exact congrArg _ hskip

/-- The second loop gives the character back. -/
theorem decodeString_written (hc : Scalar c) (raw : Bytes) :
    decodeString 0 (Dump.written dumpFlags c ++ raw) =
      (decodeString 0 raw).map (utf8Encode c ++ ·) := by
  unfold Dump.written
  cases hescape : Dump.escapes dumpFlags c with
  | false =>
    have hplain := decodeString_escaped (utf8Encode_sequence hc.1 hc.2) raw
    rw [flatMap_escaped_encode hc hescape] at hplain
    exact hplain
  | true =>
    rw [if_pos rfl]
    rcases escapeText_cases c with ⟨x, h, -, hne, hx, hlow⟩ | ⟨h, hlt⟩ | ⟨h, hle⟩
    · rw [h, List.cons_append, List.singleton_append, decodeString_escape hne, hx, utf8Encode,
        if_pos hlow]
      rfl
    · have hvalue := decodeUnicodeEscape_hexDigits c hlt raw
      have hlength : (hexDigits c).length = 4 := rfl
      have hcode := decodeString_unicode hlength raw (by rw [hvalue]; exact hc.2)
      rw [hvalue] at hcode
      rw [h]
      exact hcode
    · have hmax := hc.1
      have hpair := decodeString_pair ((c - 0x10000) / 1024) ((c - 0x10000) % 1024)
        (by omega) (by omega) raw
      have hvalue : (c - 0x10000) / 1024 * 1024 + (c - 0x10000) % 1024 + 0x10000 = c := by omega
      rw [hvalue] at hpair
      rw [h, List.append_assoc]
      exact hpair

/-- The decoder reads a string back, whichever of its characters are escaped. -/
theorem lexScanString_stringText {v : Bytes} (hv : Utf8 v) (rest : Bytes) :
    lexScanString ((Dump.characters v).flatMap (Dump.written dumpFlags) ++ 34 :: rest) =
      some (v, rest) := by
  obtain ⟨hcs, heq⟩ := Dump.characters_scalars hv
  clear hv
  generalize Dump.characters v = cs at hcs heq
  subst heq
  have hlex : lexString 0 (cs.flatMap (Dump.written dumpFlags) ++ 34 :: rest) =
      some (cs.flatMap (Dump.written dumpFlags), rest) := by
    induction cs with
    | nil => rfl
    | cons c cs ih =>
      rw [List.forall_mem_cons] at hcs
      rw [List.flatMap_cons, List.append_assoc, lexString_written hcs.1, ih hcs.2]
      rfl
  have hdecode : decodeString 0 (cs.flatMap (Dump.written dumpFlags)) =
      some (cs.flatMap utf8Encode) := by
    clear hlex
    induction cs with
    | nil => rfl
    | cons c cs ih =>
      rw [List.forall_mem_cons] at hcs
      rw [List.flatMap_cons, decodeString_written hcs.1, ih hcs.2]
      rfl
  rw [lexScanString, hlex, Option.bind_some, hdecode]
  rfl

end Strings

/-- The decoder reads the text as this tree, before anything that may follow it. -/
def ReadsAs (strtod : Bytes → Option Double) (flags : LoadFlags) (text : Bytes) (t : Text) : Prop :=
  ∀ depth rest, t.depth ≤ depth → Stops rest →
    scanValue strtod flags depth (lexScan strtod flags (text ++ rest)) = (t, some rest)

section Scalars
variable {strtod : Bytes → Option Double} {flags : LoadFlags} {dumpFlags : DumpFlags} {text : Bytes}
  {t : Text} {tok : Token}

theorem readsAs_of_token (tok : Token) (hdepth : t.depth = 1)
    (hvalue : ∀ depth rest, scanValue strtod flags (depth + 1) (tok, rest) = (t, some rest))
    (hlex : ∀ rest, Stops rest → lexScan strtod flags (text ++ rest) = (tok, rest)) :
    ReadsAs strtod flags text t := by
  intro depth rest hle hrest
  obtain ⟨depth, rfl⟩ := Nat.exists_eq_add_of_le' (hdepth.symm.le.trans hle)
  rw [hlex rest hrest, hvalue]

theorem ends_nil : Ends [] := by simp [Ends]

/-- A token by itself is that token before a stop. -/
theorem lexScan_token {b : UInt8} (hb : isBlank b = false)
    (h : lexScan strtod flags (b :: text) = (tok, [])) (htok : tok ≠ .invalid) :
    ∀ rest, Stops rest → lexScan strtod flags (b :: text ++ rest) = (tok, rest) :=
  fun _ hrest => lexScan_stop hb h htok hrest

/-- One of the three identifiers. -/
theorem readsAs_word (b : UInt8) (w : Bytes) (hb : isAlpha b = true)
    (hw : ∀ c ∈ w, isAlpha c = true) (hblank : isBlank b = false)
    (htok : identifier (b :: w) ≠ .invalid) (hdepth : t.depth = 1)
    (hvalue : ∀ depth rest, scanValue strtod flags (depth + 1) (identifier (b :: w), rest) =
      (t, some rest)) : ReadsAs strtod flags (b :: w) t := by
  have hlex : lexScan strtod flags (b :: (w ++ [])) = (identifier (b :: w), []) :=
    lexScan_word hw hb ends_nil
  rw [List.append_nil] at hlex
  exact readsAs_of_token _ hdepth hvalue (lexScan_token hblank hlex htok)

theorem readsAs_true : ReadsAs strtod flags trueText .true :=
  readsAs_word 116 [114, 117, 101] rfl (List.all_eq_true.mp rfl) rfl (by decide) rfl fun _ _ => rfl

theorem readsAs_false : ReadsAs strtod flags falseText .false :=
  readsAs_word 102 [97, 108, 115, 101] rfl (List.all_eq_true.mp rfl) rfl (by decide) rfl
    fun _ _ => rfl

theorem readsAs_null : ReadsAs strtod flags nullText .null :=
  readsAs_word 110 [117, 108, 108] rfl (List.all_eq_true.mp rfl) rfl (by decide) rfl fun _ _ => rfl

theorem not_blank_of_number {b : UInt8} (hb : (isDigit b || b = 45) = true) : isBlank b = false := by
  simp only [isDigit, Bool.or_eq_true, Bool.and_eq_true, decide_eq_true_eq] at hb
  simp only [isBlank, Bool.or_eq_false_iff, decide_eq_false_iff_not]
  refine ⟨⟨⟨?_, ?_⟩, ?_⟩, ?_⟩
  all_goals
    rintro rfl
    revert hb
    decide

theorem lexScan_numeral {number : Number} (htext : ∃ b bs, text = b :: bs ∧
      (isDigit b || b = 45) = true)
    (h : lexScanNumber strtod flags.decodeIntAsReal text = some (number, [])) :
    ∀ rest, Stops rest → lexScan strtod flags (text ++ rest) = (numberToken number, rest) := by
  obtain ⟨b, bs, rfl, hb⟩ := htext
  refine lexScan_token (not_blank_of_number hb) (lexScan_number hb h ends_nil) ?_
  cases number <;> simp [numberToken]

theorem readsAs_integer (hflags : flags.decodeIntAsReal = false) {v : ℤ} (hv : InInt64 v) :
    ReadsAs strtod flags (decimal v) (.integer v) := by
  have hscan : lexScanNumber strtod false (decimal v ++ []) = some (.integer v, []) :=
    lexScanNumber_decimal strtod hv.1 hv.2 (by simp)
  rw [List.append_nil, ← hflags] at hscan
  refine readsAs_of_token (.integer v) rfl (fun _ _ => rfl) (lexScan_numeral ?_ hscan)
  unfold decimal
  split_ifs
  · exact ⟨45, _, rfl, rfl⟩
  · obtain ⟨b, bs, hb⟩ := List.exists_cons_of_ne_nil (decimalNat_ne_nil v.natAbs)
    refine ⟨b, bs, hb, ?_⟩
    rw [isDigit_decimalNat v.natAbs b (by simp [hb]), Bool.true_or]

theorem lexScan_stringText {v : Bytes} (hv : Utf8 v) (rest : Bytes) :
    lexScan strtod flags (Dump.stringText dumpFlags v ++ rest) = (.string v, rest) := by
  rw [Dump.stringText, List.cons_append, List.append_assoc]
  exact lexScan_string (lexScanString_stringText hv rest)

theorem readsAs_string {v : Bytes} (hv : Utf8 v) (hzero : 0 ∈ v → flags.allowNul = true) :
    ReadsAs strtod flags (Dump.stringText dumpFlags v) (.string v) := by
  refine readsAs_of_token (.string v) rfl (fun depth rest => ?_)
    fun rest _ => lexScan_stringText hv rest
  simp only [scanValue]
  rw [if_neg]
  rintro ⟨hmem, hnot⟩
  rw [hzero hmem] at hnot
  cases hnot

/-- What is assumed of the C library to read a number: `printf` prints a numeral, and `strtod` takes
what is made of it. -/
def FloatText.Readable (C : FloatText) (x : Double) : Prop :=
  ∃ m : Numeral, m.Printed ∧ C.printf x = m.text ∧ ∃ y, C.strtod m.trimmed.text = some y

theorem FloatText.ReadsBack.readable {C : FloatText} {x : Double} (hx : C.ReadsBack x) :
    C.Readable x := by
  obtain ⟨m, hm, hprintf, hstrtod⟩ := hx
  obtain ⟨y, hy, -⟩ := hstrtod m.trimmed hm.trimmed_wellFormed rfl m.trimmed_magnitude
  exact ⟨m, hm, hprintf, y, hy⟩

/-- The decoder reads what `strtod` makes of a printed number. -/
theorem readsAs_real (flags : LoadFlags) {C : FloatText} {x : Double} (hx : C.Readable x) : ∃ text y,
    jsonpDtostr C.printf x = some text ∧ C.strtod text = some y ∧
      ReadsAs C.strtod flags text (.real y) ∧ text ≠ [] := by
  obtain ⟨m, hm, hprintf, y, hy⟩ := hx
  have hform := hm.trimmed_wellFormed
  have hscan := lexScanNumber_numeral hform m.trimmed_real hy ends_nil flags.decodeIntAsReal
  rw [List.append_nil] at hscan
  refine ⟨m.trimmed.text, y, jsonpDtostr_numeral hm hprintf, hy, ?_, ?_⟩
  · exact readsAs_of_token (.real y) rfl (fun _ _ => rfl) (lexScan_numeral hform.head hscan)
  · obtain ⟨b, bs, htext, -⟩ := hform.head
    rw [htext]
    exact List.cons_ne_nil _ _

end Scalars

section Containers
variable {strtod : Bytes → Option Double} {flags : LoadFlags} {dumpFlags : DumpFlags}
  {u rest comma last : Bytes}

/-- What may stand between two tokens. -/
def Blanks (u : Bytes) : Prop := ∀ b ∈ u, isBlank b = true

theorem blanks_indentText (dumpFlags : DumpFlags) (depth : ℕ) (space : Bool) :
    Blanks (Dump.indentText dumpFlags depth space) := by
  intro b hb
  unfold Dump.indentText at hb
  split_ifs at hb
  · rcases List.mem_cons.mp hb with rfl | hb
    · rfl
    · rw [List.eq_of_mem_replicate hb]
      rfl
  · rw [List.mem_singleton.mp hb]
    rfl
  · cases hb

theorem lexScan_blanks (hu : Blanks u) (rest : Bytes) :
    lexScan strtod flags (u ++ rest) = lexScan strtod flags rest := by
  unfold lexScan
  rw [List.dropWhile_append_of_pos hu]

theorem Blanks.stops (hu : Blanks u) (h : Stops rest) : Stops (u ++ rest) := by
  cases u with
  | nil => exact h
  | cons b u =>
    intro c hc
    cases hc
    exact .inl (hu b List.mem_cons_self)

theorem stops_cons {b : UInt8} (hb : b = 44 ∨ b = 93 ∨ b = 125) (rest : Bytes) :
    Stops (b :: rest) := by
  intro c hc
  cases hc
  exact .inr hb

theorem length_childrenText (comma last : Bytes) (texts : List Bytes) :
    texts.length ≤ (Dump.childrenText ([44] ++ comma) last texts).length + 1 := by
  induction texts with
  | nil => simp
  | cons text texts ih =>
    cases texts with
    | nil => simp
    | cons next texts =>
      rw [List.length_cons, Dump.childrenText]
      simp only [List.length_append, List.length_cons, List.length_nil] at ih ⊢
      omega

/-- The items of an array, up to the closing bracket. -/
theorem scanItems_children (hcomma : Blanks comma) (hlast : Blanks last) {texts : List Bytes}
    {ts : List Text} (h : List.Forall₂ (ReadsAs strtod flags) texts ts) (hne : texts ≠ [])
    {depth fuel : ℕ} (hdepth : ∀ t ∈ ts, t.depth ≤ depth) (hfuel : texts.length ≤ fuel)
    (rest : Bytes) :
    scanItems strtod flags (scanValue strtod flags depth) fuel
      (lexScan strtod flags (Dump.childrenText ([44] ++ comma) last texts ++ 93 :: rest)) =
      (.ofList ts, some rest) := by
  induction h generalizing fuel with
  | nil => exact absurd rfl hne
  | @cons text t texts ts ht htail ih =>
    obtain ⟨fuel, rfl⟩ := Nat.exists_eq_add_one_of_ne_zero (by
      rw [List.length_cons] at hfuel
      omega : fuel ≠ 0)
    rw [List.forall_mem_cons] at hdepth
    rw [List.length_cons, Nat.add_le_add_iff_right] at hfuel
    cases htail with
    | nil =>
      have hvalue := ht depth (last ++ 93 :: rest) hdepth.1
        (hlast.stops (stops_cons (.inr (.inl rfl)) rest))
      have hstart := (scanValue_sound strtod flags depth).starts hvalue
      rw [Dump.childrenText, List.append_assoc]
      refine scanItems_succ.mpr ⟨hstart.1, t, _, hvalue, .inl ⟨?_, rfl⟩⟩
      rw [lexScan_blanks hlast]
      exact lexScan_char rfl rest
    | @cons next t' texts ts hnext htail =>
      have hmore := ih (List.cons_ne_nil _ _) hdepth.2 hfuel
      have hvalue := ht depth (44 :: (comma ++
        (Dump.childrenText ([44] ++ comma) last (next :: texts) ++ 93 :: rest))) hdepth.1
        (stops_cons (.inl rfl) _)
      have hstart := (scanValue_sound strtod flags depth).starts hvalue
      have htext : Dump.childrenText ([44] ++ comma) last (text :: next :: texts) ++ 93 :: rest =
          text ++ 44 :: (comma ++
            (Dump.childrenText ([44] ++ comma) last (next :: texts) ++ 93 :: rest)) := by
        rw [Dump.childrenText]
        simp only [List.append_assoc, List.cons_append, List.nil_append]
      rw [htext]
      refine scanItems_succ.mpr ⟨hstart.1, t, _, hvalue, .inr ⟨_, _, lexScan_char rfl _, ?_, rfl⟩⟩
      rw [lexScan_blanks hcomma]
      exact hmore

/-- The text of a pair, and the decoder reads its value. -/
def ReadsMember (strtod : Bytes → Option Double) (flags : LoadFlags) (dumpFlags : DumpFlags)
    (text : Bytes) (m : Bytes × Text) : Prop :=
  ∃ value, text = Dump.stringText dumpFlags m.1 ++ (Dump.separator dumpFlags ++ value) ∧
    ReadsAs strtod flags value m.2

/-- One pair is read, up to what follows its value. -/
theorem ReadsMember.scan {text : Bytes} {m : Bytes × Text}
    (h : ReadsMember strtod flags dumpFlags text m) (hkey : Utf8 m.1) {depth : ℕ}
    (hdepth : m.2.depth ≤ depth) {tail : Bytes} (htail : Stops tail) :
    ∃ r r', lexScan strtod flags (text ++ tail) = (.string m.1, r) ∧
      lexScan strtod flags r = (.char 58, r') ∧
      scanValue strtod flags depth (lexScan strtod flags r') = (m.2, some tail) := by
  obtain ⟨value, rfl, hvalue⟩ := h
  have hread := hvalue depth tail hdepth htail
  have hlex : lexScan strtod flags
      (Dump.stringText dumpFlags m.1 ++ (Dump.separator dumpFlags ++ value) ++ tail) =
      (.string m.1, Dump.separator dumpFlags ++ (value ++ tail)) := by
    rw [List.append_assoc, List.append_assoc]
    exact lexScan_stringText hkey _
  have hcolon : ∃ r', lexScan strtod flags (Dump.separator dumpFlags ++ (value ++ tail)) =
      (.char 58, r') ∧ lexScan strtod flags r' = lexScan strtod flags (value ++ tail) := by
    unfold Dump.separator
    split_ifs
    · exact ⟨value ++ tail, lexScan_char rfl _, rfl⟩
    · exact ⟨32 :: (value ++ tail), lexScan_char rfl _, lexScan_blank _⟩
  obtain ⟨r', hcolon, hsame⟩ := hcolon
  refine ⟨_, r', hlex, hcolon, ?_⟩
  rw [hsame]
  exact hread

/-- The pairs of an object, up to the closing brace. -/
theorem scanMembers_children (hcomma : Blanks comma) (hlast : Blanks last) {texts : List Bytes}
    {ms : List (Bytes × Text)} (h : List.Forall₂ (ReadsMember strtod flags dumpFlags) texts ms)
    (hne : texts ≠ []) (hkeys : ∀ m ∈ ms, ValidKey m.1) (hnodup : (ms.map (·.1)).Nodup)
    (keys : List Bytes) (hnew : ∀ m ∈ ms, m.1 ∉ keys) {depth fuel : ℕ}
    (hdepth : ∀ m ∈ ms, m.2.depth ≤ depth) (hfuel : texts.length ≤ fuel) (rest : Bytes) :
    scanMembers strtod flags (scanValue strtod flags depth) fuel keys
      (lexScan strtod flags (Dump.childrenText ([44] ++ comma) last texts ++ 125 :: rest)) =
      (.ofList ms, some rest) := by
  induction h generalizing fuel keys with
  | nil => exact absurd rfl hne
  | @cons text m texts ms hm htail ih =>
    obtain ⟨fuel, rfl⟩ := Nat.exists_eq_add_one_of_ne_zero (by
      rw [List.length_cons] at hfuel
      omega : fuel ≠ 0)
    rw [List.forall_mem_cons] at hdepth hkeys hnew
    rw [List.length_cons, Nat.add_le_add_iff_right] at hfuel
    rw [List.map_cons, List.nodup_cons] at hnodup
    have hutf8 := utf8CheckString_iff.mp hkeys.1.1
    have hgood : ¬(0 ∈ m.1 ∨ flags.rejectDuplicates = true ∧ m.1 ∈ keys) := by
      rintro (hzero | ⟨-, hmem⟩)
      · exact hkeys.1.2 hzero
      · exact hnew.1 hmem
    cases htail with
    | nil =>
      obtain ⟨r, r', hlex, hcolon, hvalue⟩ := hm.scan hutf8 hdepth.1
        (hlast.stops (stops_cons (.inr (.inr rfl)) rest))
      rw [Dump.childrenText, List.append_assoc]
      refine scanMembers_succ.mpr ⟨m.1, r, r', m.2, _, hlex, hgood, hcolon, hvalue,
        .inl ⟨?_, rfl⟩⟩
      rw [lexScan_blanks hlast]
      exact lexScan_char rfl rest
    | @cons next m' texts ms hnext htail =>
      have hnew' : ∀ m'' ∈ m' :: ms, m''.1 ∉ m.1 :: keys := by
        intro m'' hm'' hmem
        rcases List.mem_cons.mp hmem with heq | hmem
        · exact hnodup.1 (heq ▸ List.mem_map_of_mem hm'')
        · exact hnew.2 m'' hm'' hmem
      have hmore := ih (List.cons_ne_nil _ _) hkeys.2 hnodup.2 (m.1 :: keys) hnew' hdepth.2 hfuel
      obtain ⟨r, r', hlex, hcolon, hvalue⟩ := hm.scan hutf8 hdepth.1 (stops_cons (.inl rfl)
        (comma ++ (Dump.childrenText ([44] ++ comma) last (next :: texts) ++ 125 :: rest)))
      have htext : Dump.childrenText ([44] ++ comma) last (text :: next :: texts) ++ 125 :: rest =
          text ++ 44 :: (comma ++
            (Dump.childrenText ([44] ++ comma) last (next :: texts) ++ 125 :: rest)) := by
        rw [Dump.childrenText]
        simp only [List.append_assoc, List.cons_append, List.nil_append]
      rw [htext]
      refine scanMembers_succ.mpr ⟨m.1, r, r', m.2, _, hlex, hgood, hcolon, hvalue,
        .inr ⟨_, _, lexScan_char rfl _, ?_, rfl⟩⟩
      rw [lexScan_blanks hcomma]
      exact hmore

theorem containerText_cons (depth : ℕ) (opening closing : UInt8) {texts : List Bytes}
    (hne : texts ≠ []) (rest : Bytes) :
    Dump.containerText dumpFlags false depth opening closing texts ++ rest =
      opening :: (Dump.indentText dumpFlags (depth + 1) false ++
        (Dump.childrenText ([44] ++ Dump.indentText dumpFlags (depth + 1) true)
          (Dump.indentText dumpFlags depth false) texts ++ closing :: rest)) := by
  have hempty : texts.isEmpty = false := by
    cases texts with
    | nil => exact absurd rfl hne
    | cons text texts => rfl
  unfold Dump.containerText
  dsimp only
  rw [hempty]
  simp only [Bool.false_eq_true, if_false, List.append_assoc, List.cons_append, List.nil_append]

theorem items_depth_ofList {ts : List Text} {depth : ℕ} (h : (Items.ofList ts).depth ≤ depth) :
    ∀ t ∈ ts, t.depth ≤ depth := by
  induction ts with
  | nil => exact fun t ht => absurd ht List.not_mem_nil
  | cons t ts ih =>
    have h' : max t.depth (Items.ofList ts).depth ≤ depth := h
    rw [List.forall_mem_cons]
    exact ⟨(le_max_left _ _).trans h', ih ((le_max_right _ _).trans h')⟩

theorem members_depth_ofList {ms : List (Bytes × Text)} {depth : ℕ}
    (h : (Members.ofList ms).depth ≤ depth) : ∀ m ∈ ms, m.2.depth ≤ depth := by
  induction ms with
  | nil => exact fun m hm => absurd hm List.not_mem_nil
  | cons m ms ih =>
    have h' : max m.2.depth (Members.ofList ms).depth ≤ depth := h
    rw [List.forall_mem_cons]
    exact ⟨(le_max_left _ _).trans h', ih ((le_max_right _ _).trans h')⟩

theorem scanItems_not_closed {depth fuel : ℕ} {cur : Token × Bytes} {is : Items}
    (h : scanItems strtod flags (scanValue strtod flags depth) fuel cur = (is, some rest)) :
    cur.1 ≠ .char 93 := by
  obtain ⟨tok, r⟩ := cur
  cases fuel with
  | zero => cases h
  | succ fuel =>
    obtain ⟨-, item, r', hvalue, -⟩ := scanItems_succ.mp h
    rintro rfl
    cases depth <;> cases hvalue

theorem scanMembers_not_closed {depth fuel : ℕ} {keys : List Bytes} {cur : Token × Bytes}
    {ms : Members}
    (h : scanMembers strtod flags (scanValue strtod flags depth) fuel keys cur = (ms, some rest)) :
    cur.1 ≠ .char 125 := by
  cases fuel with
  | zero => cases h
  | succ fuel =>
    obtain ⟨key, r, r', m, r'', rfl, -⟩ := scanMembers_succ.mp h
    exact nofun

/-- The children of a container are fewer than the bytes from the first one on. -/
theorem length_body (dumpFlags : DumpFlags) (level : ℕ) (closing : UInt8) (texts : List Bytes)
    (rest : Bytes) :
    texts.length ≤ (Dump.indentText dumpFlags (level + 1) false ++
      (Dump.childrenText ([44] ++ Dump.indentText dumpFlags (level + 1) true)
        (Dump.indentText dumpFlags level false) texts ++ closing :: rest)).length := by
  have hcount := length_childrenText (Dump.indentText dumpFlags (level + 1) true)
    (Dump.indentText dumpFlags level false) texts
  simp only [List.length_append, List.length_cons] at hcount ⊢
  omega

/-- An array, laid out in any way. -/
theorem readsAs_array (dumpFlags : DumpFlags) (level : ℕ) {texts : List Bytes} {ts : List Text}
    (h : List.Forall₂ (ReadsAs strtod flags) texts ts) :
    ReadsAs strtod flags (Dump.containerText dumpFlags false level 91 93 texts)
      (.array (.ofList ts)) := by
  intro depth rest hdepth hrest
  obtain ⟨depth, rfl⟩ := Nat.exists_eq_add_of_le' ((Nat.le_add_left 1 _).trans hdepth)
  rcases eq_or_ne texts [] with rfl | hne
  · cases h
    have htext : Dump.containerText dumpFlags false level 91 93 [] ++ rest = 91 :: 93 :: rest := rfl
    rw [htext, lexScan_char rfl]
    exact scanValue_array.mpr (.inl ⟨lexScan_char rfl rest, rfl⟩)
  · have hitems := scanItems_children (blanks_indentText dumpFlags (level + 1) true)
      (blanks_indentText dumpFlags level false) h hne
      (items_depth_ofList (Nat.le_of_succ_le_succ hdepth)) (length_body dumpFlags level 93 texts rest)
      rest
    rw [← lexScan_blanks (blanks_indentText dumpFlags (level + 1) false)] at hitems
    rw [containerText_cons level 91 93 hne, lexScan_char rfl]
    exact scanValue_array.mpr (.inr ⟨scanItems_not_closed hitems, _, hitems, rfl⟩)

/-- An object, laid out in any way. -/
theorem readsAs_object (level : ℕ) {texts : List Bytes} {ms : List (Bytes × Text)}
    (h : List.Forall₂ (ReadsMember strtod flags dumpFlags) texts ms)
    (hkeys : ∀ m ∈ ms, ValidKey m.1) (hnodup : (ms.map (·.1)).Nodup) :
    ReadsAs strtod flags (Dump.containerText dumpFlags false level 123 125 texts)
      (.object (.ofList ms)) := by
  intro depth rest hdepth hrest
  obtain ⟨depth, rfl⟩ := Nat.exists_eq_add_of_le' ((Nat.le_add_left 1 _).trans hdepth)
  rcases eq_or_ne texts [] with rfl | hne
  · cases h
    have htext : Dump.containerText dumpFlags false level 123 125 [] ++ rest = 123 :: 125 :: rest :=
      rfl
    rw [htext, lexScan_char rfl]
    exact scanValue_object.mpr (.inl ⟨lexScan_char rfl rest, rfl⟩)
  · have hmembers := scanMembers_children (blanks_indentText dumpFlags (level + 1) true)
      (blanks_indentText dumpFlags level false) h hne hkeys hnodup []
      (fun m _ => List.not_mem_nil) (members_depth_ofList (Nat.le_of_succ_le_succ hdepth))
      (length_body dumpFlags level 125 texts rest) rest
    rw [← lexScan_blanks (blanks_indentText dumpFlags (level + 1) false)] at hmembers
    rw [containerText_cons level 123 125 hne, lexScan_char rfl]
    exact scanValue_object.mpr (.inr ⟨scanMembers_not_closed hmembers, _, hmembers, rfl⟩)

end Containers

end RipExt.Json
