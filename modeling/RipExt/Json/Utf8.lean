import RipExt.Json.Scan

/-! UTF-8 as the checks of `utf.c` see it: a text is a row of sequences. Every string that the
decoder reads is one, and the decoder reads it back from what the encoder writes. -/
namespace RipExt.Json

/-- One character: a byte of ASCII, or several that `utf8_check_full` accepts. -/
inductive Sequence : Bytes → Prop
  | ascii (b : UInt8) (hb : b.toNat < 0x80) : Sequence [b]
  | full (b : UInt8) (bs : Bytes) (count : ℕ) (hfirst : utf8CheckFirst b = count + 2)
      (hlength : bs.length = count + 1) (hfull : utf8CheckFull (b :: bs) (count + 2) = true) :
      Sequence (b :: bs)

inductive Utf8 : Bytes → Prop
  | nil : Utf8 []
  | cons {u v : Bytes} (hu : Sequence u) (hv : Utf8 v) : Utf8 (u ++ v)

section Checks
variable {b : UInt8} {u v : Bytes}

theorem utf8CheckFirst_eq_one_iff : utf8CheckFirst b = 1 ↔ b.toNat < 0x80 := by
  unfold utf8CheckFirst
  dsimp only
  constructor
  · intro h
    by_contra hb
    rw [if_neg hb] at h
    split_ifs at h <;> simp at h
  · intro h
    rw [if_pos h]

theorem utf8CheckFrom_skip (bs v : Bytes) :
    utf8CheckFrom bs.length (bs ++ v) = utf8CheckFrom 0 v := by
  induction bs with
  | nil => rfl
  | cons b bs ih => exact ih

/-- A sequence at the start of a text does not matter for the rest. -/
theorem Sequence.check (hu : Sequence u) (v : Bytes) :
    utf8CheckFrom 0 (u ++ v) = utf8CheckFrom 0 v := by
  cases hu with
  | ascii b hb =>
    rw [List.singleton_append, utf8CheckFrom, utf8CheckFirst_eq_one_iff.mpr hb]
  | full b bs count hfirst hlength hfull =>
    have htake : (b :: (bs ++ v)).take (count + 2) = b :: bs := by
      rw [List.take_succ_cons, ← hlength, List.take_left]
    have hlong : ¬(bs ++ v).length + 1 < count + 2 := by
      rw [List.length_append]
      omega
    rw [List.cons_append, utf8CheckFrom, hfirst]
    dsimp only
    rw [if_neg hlong, htake, hfull, Bool.true_and, ← hlength, utf8CheckFrom_skip]

theorem utf8_of_check (n : ℕ) (hn : v.length ≤ n) (h : utf8CheckFrom 0 v = true) : Utf8 v := by
  induction n generalizing v with
  | zero =>
    rw [List.eq_nil_of_length_eq_zero (Nat.le_zero.mp hn)]
    exact .nil
  | succ n ih =>
    cases v with
    | nil => exact .nil
    | cons b bs =>
      rw [List.length_cons] at hn
      rw [utf8CheckFrom] at h
      match hfirst : utf8CheckFirst b with
      | 0 => simp [hfirst] at h
      | 1 =>
        simp only [hfirst] at h
        exact .cons (.ascii b (utf8CheckFirst_eq_one_iff.mp hfirst)) (ih (by omega) h)
      | count + 2 =>
        simp only [hfirst] at h
        split_ifs at h with hshort
        rw [List.take_succ_cons, Bool.and_eq_true] at h
        obtain ⟨hfull, hrest⟩ := h
        have hlength : (bs.take (count + 1)).length = count + 1 := by
          rw [List.length_take]
          omega
        have hsplit : bs = bs.take (count + 1) ++ bs.drop (count + 1) :=
          (List.take_append_drop _ bs).symm
        have hskip := utf8CheckFrom_skip (bs.take (count + 1)) (bs.drop (count + 1))
        rw [hlength, ← hsplit, hrest] at hskip
        have hdrop : (bs.drop (count + 1)).length ≤ n := by
          rw [List.length_drop]
          omega
        rw [hsplit, ← List.cons_append]
        exact .cons (.full b _ count hfirst hlength hfull) (ih hdrop hskip.symm)

theorem utf8CheckString_iff : utf8CheckString v = true ↔ Utf8 v := by
  refine ⟨utf8_of_check v.length le_rfl, fun h => ?_⟩
  unfold utf8CheckString
  induction h with
  | nil => rfl
  | cons hu hv ih => rw [hu.check, ih]

theorem utf8Continue_high {value result : ℕ} (h : utf8Continue value v = some result) :
    ∀ c ∈ v, 0x80 ≤ c.toNat := by
  induction v generalizing value with
  | nil => simp
  | cons b bs ih =>
    rw [utf8Continue] at h
    split_ifs at h with hbad
    intro c hc
    rcases List.mem_cons.mp hc with rfl | hc
    · omega
    · exact ih h c hc

/-- The bytes of a longer sequence are not ASCII. -/
theorem Sequence.high {bs : Bytes} {count : ℕ} (hfirst : utf8CheckFirst b = count + 2)
    (hfull : utf8CheckFull (b :: bs) (count + 2) = true) : ∀ c ∈ b :: bs, 0x80 ≤ c.toNat := by
  intro c hc
  rcases List.mem_cons.mp hc with rfl | hc
  · by_contra hlow
    rw [utf8CheckFirst_eq_one_iff.mpr (Nat.lt_of_not_le hlow)] at hfirst
    simp at hfirst
  · simp only [utf8CheckFull] at hfull
    split at hfull
    · cases hfull
    · next value hvalue =>
      obtain ⟨start, -, hcontinue⟩ := Option.bind_eq_some_iff.mp hvalue
      exact utf8Continue_high hcontinue c hc

end Checks

section Encode
variable {codepoint : ℕ}

theorem toNat_ofNat_of_lt {n : ℕ} (hn : n < 256) : (UInt8.ofNat n).toNat = n := by
  rw [UInt8.toNat_ofNat', Nat.mod_eq_of_lt hn]

/-- One round of `utf8_check_full`. -/
theorem utf8Continue_tail (value n : ℕ) (bs : Bytes) :
    utf8Continue value (UInt8.ofNat (0x80 + n % 64) :: bs) =
      utf8Continue (value * 64 + n % 64) bs := by
  have htail : (UInt8.ofNat (0x80 + n % 64)).toNat = 0x80 + n % 64 := toNat_ofNat_of_lt (by omega)
  have hvalue : (0x80 + n % 64) % 64 = n % 64 := by omega
  rw [utf8Continue, htail, if_neg (by omega), hvalue]

/-- The end of `utf8_check_full`. -/
theorem utf8CheckFull_of_continue {b : UInt8} {bs : Bytes} {size start : ℕ}
    (hstart : (if size = 2 then some (b.toNat % 32) else if size = 3 then some (b.toNat % 16)
      else if size = 4 then some (b.toNat % 8) else none) = some start)
    (hbs : utf8Continue start bs = some codepoint) (hlt : codepoint ≤ 0x10FFFF)
    (hsurrogate : codepoint < 0xD800 ∨ 0xDFFF < codepoint)
    (hsize : ¬(size = 2 ∧ codepoint < 0x80 ∨ size = 3 ∧ codepoint < 0x800 ∨
      size = 4 ∧ codepoint < 0x10000)) : utf8CheckFull (b :: bs) size = true := by
  simp only [utf8CheckFull, hstart, Option.bind_some, hbs]
  rw [if_neg (by omega), if_neg (by omega)]
  simp only [Bool.not_eq_true', Bool.or_eq_false_iff, Bool.and_eq_false_iff,
    decide_eq_false_iff_not]
  omega

/-- What `utf8_encode` writes for a character outside the surrogates. -/
theorem utf8Encode_sequence (hlt : codepoint ≤ 0x10FFFF)
    (hsurrogate : codepoint < 0xD800 ∨ 0xDFFF < codepoint) : Sequence (utf8Encode codepoint) := by
  unfold utf8Encode
  split_ifs with h1 h2 h3
  · refine .ascii _ ?_
    rw [toNat_ofNat_of_lt (by omega)]
    exact h1
  · have hfirst : (UInt8.ofNat (0xC0 + codepoint / 64)).toNat = 0xC0 + codepoint / 64 :=
      toNat_ofNat_of_lt (by omega)
    refine .full _ _ 0 ?_ rfl (utf8CheckFull_of_continue (if_pos rfl) ?_ hlt hsurrogate (by omega))
    · simp only [utf8CheckFirst, hfirst]
      split_ifs <;> omega
    · rw [hfirst, utf8Continue_tail, utf8Continue, Option.some.injEq]
      omega
  · have hfirst : (UInt8.ofNat (0xE0 + codepoint / 4096)).toNat = 0xE0 + codepoint / 4096 :=
      toNat_ofNat_of_lt (by omega)
    refine .full _ _ 1 ?_ rfl (utf8CheckFull_of_continue rfl ?_ hlt hsurrogate (by omega))
    · simp only [utf8CheckFirst, hfirst]
      split_ifs <;> omega
    · rw [hfirst, utf8Continue_tail, utf8Continue_tail, utf8Continue, Option.some.injEq]
      omega
  · have hfirst : (UInt8.ofNat (0xF0 + codepoint / 262144)).toNat = 0xF0 + codepoint / 262144 :=
      toNat_ofNat_of_lt (by omega)
    refine .full _ _ 2 ?_ rfl (utf8CheckFull_of_continue rfl ?_ hlt hsurrogate (by omega))
    · simp only [utf8CheckFirst, hfirst]
      split_ifs <;> omega
    · rw [hfirst, utf8Continue_tail, utf8Continue_tail, utf8Continue_tail, utf8Continue,
        Option.some.injEq]
      omega

end Encode

end RipExt.Json
