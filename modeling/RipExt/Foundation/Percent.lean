import Mathlib.Data.List.Basic
import Mathlib.Data.List.TakeWhile
import Mathlib.Tactic

/-! Percent-encoding of byte strings with respect to a set of safe bytes, and texts that are cut
at a delimiter. -/
namespace Percent

abbrev Text := List UInt8

section Encoding
variable {safe : UInt8 → Bool}

def hexDigit (n : ℕ) : UInt8 := UInt8.ofNat (if n < 10 then 48 + n else 55 + n)

def hexValue (b : UInt8) : Option ℕ :=
  if 48 ≤ b ∧ b ≤ 57 then some (b.toNat - 48)
  else if 65 ≤ b ∧ b ≤ 70 then some (b.toNat - 55)
  else if 97 ≤ b ∧ b ≤ 102 then some (b.toNat - 87)
  else none

def encodeByte (safe : UInt8 → Bool) (b : UInt8) : Text :=
  if safe b then [b] else [37, hexDigit (b.toNat / 16), hexDigit (b.toNat % 16)]

def encode (safe : UInt8 → Bool) (text : Text) : Text := text.flatMap (encodeByte safe)

/-- The byte of an escape whose percent sign stands before the text. -/
def escaped : Text → Option UInt8
  | high :: low :: _ =>
    match hexValue high, hexValue low with
    | some x, some y => some (UInt8.ofNat (16 * x + y))
    | _, _ => none
  | _ => none

/-- Decoding, with `skip` bytes that belong to an escape already read. A percent sign that two
hexadecimal digits do not follow stands for itself. -/
def decodeFrom : ℕ → Text → Text
  | _, [] => []
  | skip + 1, _ :: rest => decodeFrom skip rest
  | 0, b :: rest =>
    if b = 37 then
      match escaped rest with
      | some x => x :: decodeFrom 2 rest
      | none => b :: decodeFrom 0 rest
    else b :: decodeFrom 0 rest

def decode (text : Text) : Text := decodeFrom 0 text

theorem hexValue_hexDigit {n : ℕ} (h : n < 16) : hexValue (hexDigit n) = some n := by
  interval_cases n <;> decide

theorem decode_encodeByte (hsafe : safe 37 = false) (b : UInt8) (rest : Text) :
    decode (encodeByte safe b ++ rest) = b :: decode rest := by
  unfold encodeByte
  split_ifs with hb
  · have hne : b ≠ 37 := by
      rintro rfl
      rw [hsafe] at hb
      cases hb
    rw [List.singleton_append, decode, decodeFrom, if_neg hne, ← decode]
  · have hlt : b.toNat < 256 := b.toNat_lt_size
    have hvalue : UInt8.ofNat (16 * (b.toNat / 16) + b.toNat % 16) = b := by
      rw [Nat.div_add_mod, UInt8.ofNat_toNat]
    have hescaped : escaped (hexDigit (b.toNat / 16) :: hexDigit (b.toNat % 16) :: rest) =
        some b := by
      simp only [escaped, hexValue_hexDigit (n := b.toNat / 16) (by omega),
        hexValue_hexDigit (n := b.toNat % 16) (by omega), hvalue]
    simp only [List.cons_append, List.nil_append, decode, decodeFrom, if_pos, hescaped]

theorem decode_encode (hsafe : safe 37 = false) (text : Text) :
    decode (encode safe text) = text := by
  induction text with
  | nil => rfl
  | cons b text ih => rw [encode, List.flatMap_cons, decode_encodeByte hsafe, ← encode, ih]

theorem encode_injective (hsafe : safe 37 = false) : Function.Injective (encode safe) :=
  Function.LeftInverse.injective (g := decode) (decode_encode hsafe)

/-- A byte that is not safe, no percent sign and no digit does not occur in an encoded text. -/
theorem not_mem_encode {d : UInt8} (hd : safe d = false) (hpercent : d ≠ 37)
    (hhex : hexValue d = none) (text : Text) : d ∉ encode safe text := by
  have hdigit {n : ℕ} (hn : n < 16) : d ≠ hexDigit n := by
    rintro rfl
    rw [hexValue_hexDigit hn] at hhex
    cases hhex
  intro hmem
  obtain ⟨b, -, hb⟩ := List.mem_flatMap.mp hmem
  have hlt : b.toNat < 256 := b.toNat_lt_size
  unfold encodeByte at hb
  split_ifs at hb with hsafe
  · rw [List.mem_singleton.mp hb, hsafe] at hd
    cases hd
  · simp only [List.mem_cons, List.not_mem_nil, or_false] at hb
    rcases hb with hb | hb | hb
    · exact hpercent hb
    · exact hdigit (by omega) hb
    · exact hdigit (by omega) hb

theorem encode_length_le (safe : UInt8 → Bool) (text : Text) :
    (encode safe text).length ≤ 3 * text.length := by
  induction text with
  | nil => rfl
  | cons b text ih =>
    have hbyte : (encodeByte safe b).length ≤ 3 := by
      unfold encodeByte
      split_ifs <;> simp
    rw [encode, List.flatMap_cons, List.length_append, List.length_cons]
    rw [encode] at ih
    omega

end Encoding

section Cutting
variable {d : UInt8} {a b : Text}

/-- What stands before the first delimiter, and what stands after it if there is one. -/
def cut (d : UInt8) (text : Text) : Text × Option Text :=
  match text.dropWhile (· ≠ d) with
  | [] => (text, none)
  | _ :: rest => (text.takeWhile (· ≠ d), some rest)

theorem cut_of_not_mem (h : d ∉ a) : cut d a = (a, none) := by
  have hdrop : a.dropWhile (· ≠ d) = [] := by
    rw [List.dropWhile_eq_nil_iff]
    intro x hx
    simp only [ne_eq, decide_not, Bool.not_eq_true', decide_eq_false_iff_not]
    rintro rfl
    exact h hx
  simp only [cut, hdrop]

theorem cut_append (h : d ∉ a) : cut d (a ++ d :: b) = (a, some b) := by
  have hall : ∀ x ∈ a, decide (x ≠ d) = true := by
    intro x hx
    simp only [ne_eq, decide_not, Bool.not_eq_true', decide_eq_false_iff_not]
    rintro rfl
    exact h hx
  have hdrop : (a ++ d :: b).dropWhile (· ≠ d) = d :: b := by
    rw [List.dropWhile_append_of_pos hall]
    simp
  have htake : (a ++ d :: b).takeWhile (· ≠ d) = a := by
    rw [List.takeWhile_append_of_pos hall]
    simp
  simp only [cut, hdrop, htake]

theorem length_splitOn (d : UInt8) (text : Text) :
    (text.splitOn d).length = text.count d + 1 := by
  induction text with
  | nil => rfl
  | cons b text ih =>
    rw [List.splitOn_cons_eq_if_modifyHead]
    by_cases hb : b = d
    · simp [hb, ih]
    · simp [hb, ih, List.length_modifyHead]

theorem count_intercalate {d : UInt8} {texts : List Text} (h : ∀ t ∈ texts, d ∉ t) :
    ([d].intercalate texts).count d = texts.length - 1 := by
  cases texts with
  | nil => rfl
  | cons t texts =>
    have hlength := length_splitOn d ([d].intercalate (t :: texts))
    rw [List.splitOn_intercalate d h (by simp)] at hlength
    simp only [List.length_cons] at hlength ⊢
    omega

theorem intercalate_cons_cons (d : UInt8) (t u : Text) (texts : List Text) :
    [d].intercalate (t :: u :: texts) = t ++ d :: [d].intercalate (u :: texts) := by
  simp [List.intercalate]

theorem intercalate_concat {texts : List Text} (h : texts ≠ []) (d : UInt8) (t : Text) :
    [d].intercalate (texts ++ [t]) = [d].intercalate texts ++ d :: t := by
  induction texts with
  | nil => exact absurd rfl h
  | cons u texts ih =>
    cases texts with
    | nil => simp [List.intercalate]
    | cons v texts =>
      have hrest := ih (by simp)
      rw [List.cons_append] at hrest ⊢
      rw [List.cons_append, intercalate_cons_cons, intercalate_cons_cons, hrest]
      simp

theorem mem_intercalate {d b : UInt8} {texts : List Text} (h : b ∈ [d].intercalate texts) :
    b = d ∨ ∃ t ∈ texts, b ∈ t := by
  induction texts with
  | nil => simp [List.intercalate] at h
  | cons t texts ih =>
    cases texts with
    | nil =>
      rw [List.intercalate, List.intersperse_singleton, List.flatten_singleton] at h
      exact .inr ⟨t, List.mem_singleton_self t, h⟩
    | cons u texts =>
      rw [intercalate_cons_cons, List.mem_append, List.mem_cons] at h
      rcases h with hb | rfl | hb
      · exact .inr ⟨t, List.mem_cons_self .., hb⟩
      · exact .inl rfl
      · refine (ih hb).imp_right fun ⟨v, hv, hbv⟩ => ?_
        exact ⟨v, List.mem_cons_of_mem t hv, hbv⟩

end Cutting

end Percent
