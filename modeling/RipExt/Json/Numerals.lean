import RipExt.Json.Strings

/-! Real numbers as text. `jsonp_dtostr` rewrites what `%.17g` prints without changing its value,
and the decoder takes the result for a real number. -/
namespace RipExt.Json

/-- The absolute value of a `double`. -/
def Double.magnitude (x : Double) : ℚ := x.mantissa * 2 ^ x.exponent

/-- One number with two mantissas. -/
def Double.Same (x y : Double) : Prop := x.negative = y.negative ∧ x.magnitude = y.magnitude

/-- A decimal numeral; the exponent has a sign, which may be left out, and digits. -/
structure Numeral where
  negative : Bool
  whole : Bytes
  fraction : Bytes
  exponent : Option (Bytes × Bytes)
  deriving DecidableEq, Repr

def Digits (ds : Bytes) : Prop := ∀ b ∈ ds, isDigit b = true

namespace Numeral

def sign (m : Numeral) : Bytes := if m.negative then [45] else []

def fractionText (m : Numeral) : Bytes := if m.fraction = [] then [] else 46 :: m.fraction

def exponentText (m : Numeral) : Bytes :=
  match m.exponent with
  | none => []
  | some (sign, digits) => 101 :: (sign ++ digits)

def text (m : Numeral) : Bytes := m.sign ++ (m.whole ++ (m.fractionText ++ m.exponentText))

def exponentValue (m : Numeral) : ℤ :=
  match m.exponent with
  | none => 0
  | some (sign, digits) => if sign = [45] then -digitsValue digits else digitsValue digits

/-- The absolute value of a numeral. -/
def magnitude (m : Numeral) : ℚ :=
  digitsValue (m.whole ++ m.fraction) * 10 ^ (m.exponentValue - m.fraction.length)

/-- A numeral of JSON. -/
structure WellFormed (m : Numeral) : Prop where
  whole : m.whole ≠ [] ∧ Digits m.whole
  leading : m.whole.head? = some 48 → m.whole.length = 1
  fraction : Digits m.fraction
  exponent : ∀ sign digits, m.exponent = some (sign, digits) →
    (sign = [] ∨ sign = [43] ∨ sign = [45]) ∧ digits ≠ [] ∧ Digits digits

/-- A numeral that `%.17g` prints: an exponent has a sign and is not zero. -/
structure Printed (m : Numeral) : Prop extends m.WellFormed where
  signed : ∀ sign digits, m.exponent = some (sign, digits) → sign ≠ [] ∧ ∃ b ∈ digits, b ≠ 48
  short : m.text.length < 97

/-- What `jsonp_dtostr` makes of a numeral. -/
def trimmed (m : Numeral) : Numeral where
  negative := m.negative
  whole := m.whole
  fraction := if m.fraction = [] ∧ m.exponent = none then [48] else m.fraction
  exponent := m.exponent.map fun e => (if e.1 = [45] then [45] else [], e.2.dropWhile (· = 48))

end Numeral

/-- What is assumed of the C library at a number: `%.17g` prints a numeral, and `strtod` gives the
number back from every numeral of the same value. -/
def FloatText.ReadsBack (C : FloatText) (x : Double) : Prop :=
  ∃ m : Numeral, m.Printed ∧ C.printf x = m.text ∧
    ∀ m' : Numeral, m'.WellFormed → m'.negative = m.negative → m'.magnitude = m.magnitude →
      ∃ y, C.strtod m'.text = some y ∧ x.Same y

section Digits
variable {ds tail : Bytes}

theorem takeWhile_digits (hds : Digits ds) (htail : ∀ b ∈ tail.head?, isDigit b = false) :
    (ds ++ tail).takeWhile isDigit = ds ∧ (ds ++ tail).dropWhile isDigit = tail := by
  rw [List.takeWhile_append_of_pos hds, List.dropWhile_append_of_pos hds]
  cases tail with
  | nil => simp
  | cons b tail =>
    have hb : isDigit b = false := htail b rfl
    simp [hb]

theorem digitsValue_cons_zero (ds : Bytes) : digitsValue (48 :: ds) = digitsValue ds := rfl

theorem digitsValue_dropWhile (ds : Bytes) :
    digitsValue (ds.dropWhile (· = 48)) = digitsValue ds := by
  induction ds with
  | nil => rfl
  | cons b ds ih =>
    by_cases hb : b = 48
    · rw [List.dropWhile_cons_of_pos (by simpa using hb), ih, hb, digitsValue_cons_zero]
    · rw [List.dropWhile_cons_of_neg (by simpa using hb)]

theorem Digits.ne {b c : UInt8} (hds : Digits ds) (hb : b ∈ ds) (hc : isDigit c = false) :
    b ≠ c := by
  rintro rfl
  rw [hds b hb] at hc
  cases hc

end Digits

namespace Numeral
variable {m : Numeral}

theorem Printed.trimmed_wellFormed (hm : m.Printed) : m.trimmed.WellFormed where
  whole := hm.whole
  leading := hm.leading
  fraction := by
    unfold trimmed
    dsimp only
    split_ifs
    · intro b hb
      rw [List.mem_singleton.mp hb]
      rfl
    · exact hm.fraction
  exponent sign digits he := by
    obtain ⟨⟨sign', digits'⟩, he', heq⟩ := Option.map_eq_some_iff.mp he
    obtain ⟨hsign, hdigits⟩ := Prod.mk.inj heq
    obtain ⟨b, hb, hne⟩ := (hm.signed sign' digits' he').2
    obtain ⟨-, -, hall⟩ := hm.exponent sign' digits' he'
    refine ⟨?_, ?_, ?_⟩
    · rw [← hsign]
      split_ifs
      · exact .inr (.inr rfl)
      · exact .inl rfl
    · rw [← hdigits]
      intro hnil
      have hzero := List.dropWhile_eq_nil_iff.mp hnil b hb
      exact hne (of_decide_eq_true hzero)
    · rw [← hdigits]
      exact fun c hc => hall c ((List.dropWhile_suffix _).subset hc)

theorem trimmed_exponentValue (m : Numeral) : m.trimmed.exponentValue = m.exponentValue := by
  unfold exponentValue trimmed
  cases he : m.exponent with
  | none => rfl
  | some e =>
    dsimp only [Option.map_some]
    rw [digitsValue_dropWhile]
    split_ifs with h <;> simp_all

/-- The value stays the same. -/
theorem trimmed_magnitude (m : Numeral) : m.trimmed.magnitude = m.magnitude := by
  rw [magnitude, magnitude, trimmed_exponentValue]
  by_cases h : m.fraction = [] ∧ m.exponent = none
  · have hfraction : m.trimmed.fraction = [48] := if_pos h
    have hdigits : digitsValue (m.whole ++ [48]) = 10 * digitsValue m.whole := by
      rw [digitsValue_append]
      rfl
    have hzero : m.exponentValue = 0 := by
      unfold exponentValue
      rw [h.2]
    rw [hfraction, h.1, hzero, show m.trimmed.whole = m.whole from rfl, hdigits, List.append_nil]
    norm_num
    ring
  · have hfraction : m.trimmed.fraction = m.fraction := if_neg h
    rw [hfraction]
    rfl

theorem trimmed_real (m : Numeral) : m.trimmed.fraction ≠ [] ∨ m.trimmed.exponent ≠ none := by
  by_cases h : m.fraction = [] ∧ m.exponent = none
  · left
    have hfraction : m.trimmed.fraction = [48] := if_pos h
    rw [hfraction]
    exact List.cons_ne_nil _ _
  · have hfraction : m.trimmed.fraction = m.fraction := if_neg h
    rw [hfraction]
    by_cases hnil : m.fraction = []
    · right
      intro hnone
      exact h ⟨hnil, Option.map_eq_none_iff.mp hnone⟩
    · exact .inl hnil

/-- The mantissa has no letter in it. -/
theorem WellFormed.no_letter (hm : m.WellFormed) :
    ∀ b ∈ m.sign ++ (m.whole ++ m.fractionText), b ≠ 101 := by
  intro b hb
  rcases List.mem_append.mp hb with hb | hb
  · unfold sign at hb
    split_ifs at hb
    · rw [List.mem_singleton.mp hb]
      decide
    · cases hb
  rcases List.mem_append.mp hb with hb | hb
  · exact hm.whole.2.ne hb rfl
  · unfold fractionText at hb
    split_ifs at hb
    · cases hb
    · rcases List.mem_cons.mp hb with rfl | hb
      · decide
      · exact hm.fraction.ne hb rfl

/-- A numeral starts with a digit or a minus sign. -/
theorem WellFormed.head (hm : m.WellFormed) :
    ∃ b bs, m.text = b :: bs ∧ (isDigit b || b = 45) = true := by
  unfold text sign
  split_ifs
  · exact ⟨45, _, rfl, rfl⟩
  · obtain ⟨d, ds, hd⟩ := List.exists_cons_of_ne_nil hm.whole.1
    have hdigit := hm.whole.2 d (by rw [hd]; exact List.mem_cons_self ..)
    refine ⟨d, _, by rw [hd]; rfl, ?_⟩
    rw [hdigit, Bool.true_or]

theorem WellFormed.not_mem_zero (hm : m.WellFormed) : 0 ∉ m.text := by
  have hzero {ds : Bytes} (hds : Digits ds) : 0 ∉ ds := fun h => hds.ne h rfl rfl
  simp only [text, List.mem_append, not_or]
  refine ⟨?_, hzero hm.whole.2, ?_, ?_⟩
  · unfold sign
    split_ifs <;> decide
  · unfold fractionText
    split_ifs
    · exact List.not_mem_nil
    · rw [List.mem_cons, not_or]
      exact ⟨by decide, hzero hm.fraction⟩
  · unfold exponentText
    split
    · exact List.not_mem_nil
    · next sign digits he =>
      obtain ⟨hsign, -, hdigits⟩ := hm.exponent sign digits he
      rw [List.mem_cons, List.mem_append, not_or, not_or]
      refine ⟨by decide, ?_, hzero hdigits⟩
      rcases hsign with rfl | rfl | rfl <;> decide

theorem text_eq (m : Numeral) :
    m.text = m.sign ++ (m.whole ++ m.fractionText) ++ m.exponentText := by
  rw [text, List.append_assoc, List.append_assoc]

/-- A numeral has a point or a letter unless it is an integer. -/
theorem WellFormed.plain_iff (hm : m.WellFormed) :
    46 ∉ m.text ∧ 101 ∉ m.text ↔ m.fraction = [] ∧ m.exponent = none := by
  constructor
  · rintro ⟨hpoint, hletter⟩
    constructor
    · by_contra hne
      apply hpoint
      simp [text, fractionText, hne]
    · by_contra hne
      obtain ⟨⟨sign, digits⟩, he⟩ := Option.ne_none_iff_exists'.mp hne
      apply hletter
      simp [text, exponentText, he]
  · rintro ⟨hfraction, hexponent⟩
    have htext : m.text = m.sign ++ m.whole := by
      simp [text, fractionText, exponentText, hfraction, hexponent]
    have hletter := hm.no_letter
    rw [htext]
    constructor
    · intro hmem
      rcases List.mem_append.mp hmem with h | h
      · unfold sign at h
        split_ifs at h
        · simp at h
        · cases h
      · exact hm.whole.2.ne h (by decide : isDigit 46 = false) rfl
    · intro hmem
      refine hletter 101 ?_ rfl
      rw [← List.append_assoc]
      exact List.mem_append_left _ hmem

theorem trimExponent_append {text rest : Bytes} (h : ∀ b ∈ text, b ≠ 101) (s : UInt8) :
    trimExponent (text ++ 101 :: s :: rest) =
      text ++ 101 :: ((if s = 45 then [45] else []) ++ rest.dropWhile (· = 48)) := by
  have htext : ∀ b ∈ text, decide (b ≠ 101) = true := fun b hb => by simpa using h b hb
  have hdrop : (text ++ 101 :: s :: rest).dropWhile (· ≠ 101) = 101 :: s :: rest := by
    rw [List.dropWhile_append_of_pos htext]
    rfl
  have htake : (text ++ 101 :: s :: rest).takeWhile (· ≠ 101) = text := by
    rw [List.takeWhile_append_of_pos htext]
    simp
  rw [trimExponent, hdrop, htake]
  simp

theorem trimExponent_plain {text : Bytes} (h : ∀ b ∈ text, b ≠ 101) : trimExponent text = text := by
  have hdrop : text.dropWhile (· ≠ 101) = [] :=
    List.dropWhile_eq_nil_iff.mpr fun b hb => by simpa using h b hb
  rw [trimExponent, hdrop]

/-- The exponent loses its plus sign and its leading zeros. -/
theorem Printed.trimExponent_text (hm : m.Printed) (hreal : m.fraction ≠ [] ∨ m.exponent ≠ none) :
    trimExponent m.text = m.trimmed.text := by
  have hfraction : m.trimmed.fraction = m.fraction := if_neg (by tauto)
  have hsame : m.trimmed.sign ++ (m.trimmed.whole ++ m.trimmed.fractionText) =
      m.sign ++ (m.whole ++ m.fractionText) := by
    unfold fractionText
    rw [hfraction]
    rfl
  rw [text_eq, text_eq m.trimmed, hsame]
  have hletter := hm.no_letter
  cases he : m.exponent with
  | none =>
    have htrimmed : m.trimmed.exponent = none := by simp [trimmed, he]
    simp only [exponentText, he, htrimmed, List.append_nil]
    exact trimExponent_plain hletter
  | some e =>
    obtain ⟨sign, digits⟩ := e
    have htrimmed : m.trimmed.exponent =
        some (if sign = [45] then [45] else [], digits.dropWhile (· = 48)) := by
      simp [trimmed, he]
    obtain ⟨hsign, -⟩ := hm.exponent sign digits he
    obtain ⟨hne, -⟩ := hm.signed sign digits he
    obtain ⟨s, rfl⟩ : ∃ s, sign = [s] := by
      rcases hsign with rfl | rfl | rfl
      · exact absurd rfl hne
      · exact ⟨43, rfl⟩
      · exact ⟨45, rfl⟩
    simp only [exponentText, he, htrimmed, List.singleton_append]
    rw [trimExponent_append hletter]
    simp

end Numeral

/-- `jsonp_dtostr` on a numeral. -/
theorem jsonpDtostr_numeral {printf : Double → Bytes} {x : Double} {m : Numeral} (hm : m.Printed)
    (hx : printf x = m.text) : jsonpDtostr printf x = some m.trimmed.text := by
  have hshort := hm.short
  unfold jsonpDtostr maxNumberStrLength
  dsimp only
  rw [hx, if_neg (by omega)]
  by_cases hplain : m.fraction = [] ∧ m.exponent = none
  · have htext : m.text ++ [46, 48] = m.trimmed.text := by
      have hfraction : m.trimmed.fraction = [48] := if_pos hplain
      have hexponent : m.trimmed.exponent = none := by simp [Numeral.trimmed, hplain.2]
      simp only [Numeral.text, Numeral.fractionText, Numeral.exponentText, hplain.1, hplain.2,
        hfraction, hexponent, if_pos, List.append_nil, List.append_assoc]
      rfl
    have hletter : ∀ b ∈ m.trimmed.text, b ≠ 101 := by
      have hexponent : m.trimmed.exponentText = [] := by
        simp [Numeral.exponentText, Numeral.trimmed, hplain.2]
      rw [Numeral.text_eq, hexponent, List.append_nil]
      exact hm.trimmed_wellFormed.no_letter
    rw [if_pos (hm.plain_iff.mpr hplain), if_neg (by omega), htext,
      Numeral.trimExponent_plain hletter]
  · rw [if_neg fun h => hplain (hm.plain_iff.mp h), hm.trimExponent_text (by tauto)]

section Scanning
variable {m : Numeral} {rest : Bytes}

/-- What may follow a value in a container. -/
def Ends (rest : Bytes) : Prop := ∀ b ∈ rest.head?, b = 44 ∨ b = 93 ∨ b = 125

theorem Ends.not_digit (h : Ends rest) : ∀ b ∈ rest.head?, isDigit b = false := by
  intro b hb
  rcases h b hb with rfl | rfl | rfl <;> rfl

theorem lexExponent_numeral (hm : m.WellFormed) (hrest : Ends rest) :
    lexExponent (m.exponentText ++ rest) = some (m.exponentText, rest) := by
  cases he : m.exponent with
  | none =>
    have hnil : m.exponentText = [] := by simp [Numeral.exponentText, he]
    rw [hnil, List.nil_append]
    cases rest with
    | nil => rfl
    | cons b rest =>
      have hb : ¬(b = 69 ∨ b = 101) := by
        rcases hrest b rfl with rfl | rfl | rfl <;> decide
      rw [lexExponent, if_neg hb]
  | some e =>
    obtain ⟨sign, digits⟩ := e
    obtain ⟨hsign, hne, hdigits⟩ := hm.exponent sign digits he
    obtain ⟨htake, hdrop⟩ := takeWhile_digits hdigits hrest.not_digit
    have htext : m.exponentText = 101 :: (sign ++ digits) := by simp [Numeral.exponentText, he]
    have hsigned : ((sign ++ digits ++ rest).take 1).filter (fun c => c = 43 ∨ c = 45) = sign := by
      rcases hsign with rfl | rfl | rfl
      · obtain ⟨d, ds, rfl⟩ := List.exists_cons_of_ne_nil hne
        have hd := hdigits d (List.mem_cons_self ..)
        have hplus : d ≠ 43 := hdigits.ne (List.mem_cons_self ..) rfl
        have hminus : d ≠ 45 := hdigits.ne (List.mem_cons_self ..) rfl
        simp [hplus, hminus]
      · rfl
      · rfl
    have hskip : (sign ++ digits ++ rest).drop sign.length = digits ++ rest := by
      rw [List.append_assoc, List.drop_left]
    rw [htext, List.cons_append, lexExponent, if_pos (Or.inr rfl)]
    dsimp only
    rw [hsigned, hskip, htake, hdrop, if_neg (by simpa using hne)]
    rfl

theorem lexFraction_numeral (hm : m.WellFormed) {tail : Bytes}
    (htail : ∀ b ∈ tail.head?, isDigit b = false ∧ b ≠ 46) :
    lexFraction (m.fractionText ++ tail) = some (m.fractionText, tail) := by
  unfold Numeral.fractionText
  split_ifs with hnil
  · rw [List.nil_append]
    cases tail with
    | nil => rfl
    | cons b tail => rw [lexFraction, if_neg (htail b rfl).2]
  · obtain ⟨htake, hdrop⟩ := takeWhile_digits hm.fraction fun b hb => (htail b hb).1
    rw [List.cons_append, lexFraction, if_pos rfl, htake, hdrop, if_neg (by simpa using hnil)]

theorem minus_numeral (hm : m.WellFormed) (tail : Bytes) :
    minus (m.sign ++ (m.whole ++ tail)) = m.sign := by
  unfold Numeral.sign minus
  split_ifs
  · rfl
  · obtain ⟨d, ds, hd⟩ := List.exists_cons_of_ne_nil hm.whole.1
    have hminus : d ≠ 45 := hm.whole.2.ne (by rw [hd]; exact List.mem_cons_self ..) rfl
    simp [hd, hminus]

/-- What follows the digits of a real number starts with a point or a letter. -/
theorem tail_numeral (hreal : m.fraction ≠ [] ∨ m.exponent ≠ none) (rest : Bytes) :
    ∃ b tail, m.fractionText ++ (m.exponentText ++ rest) = b :: tail ∧ (b = 46 ∨ b = 101) := by
  unfold Numeral.fractionText
  split_ifs with hnil
  · obtain ⟨⟨sign, digits⟩, he⟩ :=
      Option.ne_none_iff_exists'.mp (hreal.resolve_left (not_not.mpr hnil))
    exact ⟨101, _, by simp only [Numeral.exponentText, he]; rfl, .inr rfl⟩
  · exact ⟨46, _, rfl, .inl rfl⟩

theorem exponent_head (hrest : Ends rest) :
    ∀ b ∈ (m.exponentText ++ rest).head?, isDigit b = false ∧ b ≠ 46 := by
  unfold Numeral.exponentText
  cases m.exponent with
  | none =>
    intro b hb
    rcases hrest b hb with rfl | rfl | rfl <;> decide
  | some e =>
    intro b hb
    cases hb
    decide

/-- The decoder takes a numeral with a fraction or an exponent for a real number. -/
theorem lexScanNumber_numeral {strtod : Bytes → Option Double} {y : Double} (hm : m.WellFormed)
    (hreal : m.fraction ≠ [] ∨ m.exponent ≠ none) (hy : strtod m.text = some y)
    (hrest : Ends rest) (intAsReal : Bool) :
    lexScanNumber strtod intAsReal (m.text ++ rest) = some (.real y, rest) := by
  obtain ⟨b, tail, htail, hb⟩ := tail_numeral hreal rest
  have htext : m.text ++ rest =
      m.sign ++ (m.whole ++ (m.fractionText ++ (m.exponentText ++ rest))) := by
    simp only [Numeral.text, List.append_assoc]
  have hstop : ∀ c ∈ (m.fractionText ++ (m.exponentText ++ rest)).head?, isDigit c = false := by
    rw [htail]
    intro c hc
    cases hc
    rcases hb with rfl | rfl <;> rfl
  obtain ⟨htake, hdrop⟩ := takeWhile_digits hm.whole.2 hstop
  have hleading : ¬(m.whole.isEmpty ∨ m.whole.head? = some 48 ∧ m.whole.length ≠ 1) := by
    rintro (hempty | ⟨hhead, hlength⟩)
    · exact hm.whole.1 (List.isEmpty_iff.mp hempty)
    · exact hlength (hm.leading hhead)
  have hkind : ¬(intAsReal = false ∧ ((m.fractionText ++ (m.exponentText ++ rest)).head?.all
      fun c => c ≠ 46 ∧ c ≠ 69 ∧ c ≠ 101) = true) := by
    rw [htail]
    rintro ⟨-, hall⟩
    rcases hb with rfl | rfl <;> simp at hall
  have hwhole : m.sign ++ m.whole ++ m.fractionText ++ m.exponentText = m.text := by
    simp only [Numeral.text, List.append_assoc]
  rw [htext, lexScanNumber_eq, minus_numeral hm]
  dsimp only
  rw [List.drop_left, htake, hdrop, if_neg hleading, afterDigits, if_neg hkind,
    lexFraction_numeral hm (exponent_head hrest)]
  simp only [Option.bind_eq_bind, Option.bind_some, lexExponent_numeral hm hrest, hwhole, hy]

end Scanning

end RipExt.Json
