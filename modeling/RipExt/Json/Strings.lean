import RipExt.Json.Utf8

/-! Strings between the encoder and the decoder. The decoder reads UTF-8 only, and it reads every
UTF-8 string back from what `dump_string` writes. -/
namespace RipExt.Json

section Skipping
variable {text rest raw : Bytes}

theorem decodeString_skip (bs raw : Bytes) :
    decodeString bs.length (bs ++ raw) = decodeString 0 raw := by
  induction bs with
  | nil => rfl
  | cons b bs ih => exact ih

theorem lexString_skip (bs text : Bytes) :
    lexString bs.length (bs ++ text) = (lexString 0 text).map fun r => (bs ++ r.1, r.2) := by
  induction bs with
  | nil =>
    rw [List.length_nil, List.nil_append]
    cases lexString 0 text <;> rfl
  | cons b bs ih =>
    have hround : lexString (b :: bs).length (b :: bs ++ text) =
        keep b (lexString bs.length (bs ++ text)) := rfl
    rw [hround, ih, keep, Option.map_map]
    rfl

theorem dumpChars_skip (bs pending v : Bytes) :
    dumpChars bs.length pending (bs ++ v) = dumpChars 0 (pending ++ bs) v := by
  induction bs generalizing pending with
  | nil => rw [List.length_nil, List.nil_append, List.append_nil]
  | cons b bs ih =>
    have hround : dumpChars (b :: bs).length pending (b :: bs ++ v) =
        dumpChars bs.length (pending ++ [b]) (bs ++ v) := rfl
    rw [hround, ih, List.append_assoc, List.singleton_append]

/-- What was skipped stands at the start of the raw text. -/
theorem lexString_split {n : ℕ} (h : lexString n text = some (raw, rest)) :
    n ≤ text.length ∧ ∃ raw', raw = text.take n ++ raw' ∧
      lexString 0 (text.drop n) = some (raw', rest) := by
  have hlength : n ≤ text.length := by
    induction n generalizing text raw with
    | zero => exact Nat.zero_le _
    | succ n ih =>
      cases text with
      | nil => cases h
      | cons b bs =>
        obtain ⟨raw', hr, -⟩ := keep_eq_some.mp h
        exact Nat.succ_le_succ (ih hr)
  refine ⟨hlength, ?_⟩
  have htake : (text.take n).length = n := by rw [List.length_take, Nat.min_eq_left hlength]
  have hskip := lexString_skip (text.take n) (text.drop n)
  rw [htake, List.take_append_drop, h] at hskip
  obtain ⟨⟨raw', rest'⟩, hr, heq⟩ := Option.map_eq_some_iff.mp hskip.symm
  cases heq
  exact ⟨raw', rfl, hr⟩

end Skipping

section Raw

/-- A character of the raw text of a string, as the first loop of `lex_scan_string` admits it. -/
inductive RawUnit : Bytes → Prop
  | sequence (u : Bytes) (hu : Sequence u) (hplain : 92 ∉ u) : RawUnit u
  | escape (c : UInt8) (hc : isEscape c = true) (hu : c ≠ 117) : RawUnit [92, c]
  | unicode (digits : Bytes) (hlength : digits.length = 4) : RawUnit (92 :: 117 :: digits)

inductive Raw : Bytes → Prop
  | nil : Raw []
  | cons {u raw : Bytes} (hu : RawUnit u) (hraw : Raw raw) : Raw (u ++ raw)

variable {text rest raw : Bytes}

theorem not_mem_of_high {u : Bytes} (h : ∀ c ∈ u, 0x80 ≤ c.toNat) {d : UInt8}
    (hd : d.toNat < 0x80) : d ∉ u := by
  intro hmem
  have hhigh := h d hmem
  omega

theorem rawUnit_escape {n : ℕ} (h : escapeLength text = some n) (hn : n ≤ text.length) :
    RawUnit (92 :: text.take n) := by
  cases text with
  | nil => cases h
  | cons c text =>
    rw [escapeLength] at h
    split_ifs at h with hu hhex hescape
    · cases h
      rw [hu, List.take_succ_cons]
      exact .unicode _ hhex.1
    · cases h
      exact .escape c hescape hu

theorem lexString_raw (n : ℕ) (hn : text.length ≤ n) (h : lexString 0 text = some (raw, rest)) :
    Raw raw := by
  induction n generalizing text raw with
  | zero =>
    rw [List.eq_nil_of_length_eq_zero (Nat.le_zero.mp hn)] at h
    cases h
  | succ n ih =>
    cases text with
    | nil => cases h
    | cons b bs =>
      rw [List.length_cons] at hn
      rw [lexString] at h
      by_cases hquote : b = 34
      · rw [if_pos hquote] at h
        cases h
        exact .nil
      rw [if_neg hquote] at h
      by_cases hcontrol : b.toNat < 32
      · rw [if_pos hcontrol] at h
        cases h
      rw [if_neg hcontrol] at h
      by_cases hescape : b = 92
      · rw [if_pos hescape] at h
        cases hlen : escapeLength bs with
        | none =>
          rw [hlen] at h
          cases h
        | some k =>
          rw [hlen] at h
          obtain ⟨raw', hr, rfl⟩ := keep_eq_some.mp h
          obtain ⟨hk, raw'', rfl, hrest⟩ := lexString_split hr
          rw [hescape, ← List.cons_append]
          refine .cons (rawUnit_escape hlen hk) (ih ?_ hrest)
          rw [List.length_drop]
          omega
      rw [if_neg hescape] at h
      rcases hfirst : utf8CheckFirst b with _ | _ | count
      · rw [hfirst] at h
        cases h
      · rw [hfirst] at h
        obtain ⟨raw', hr, rfl⟩ := keep_eq_some.mp h
        refine .cons (.sequence [b] (.ascii b (utf8CheckFirst_eq_one_iff.mp hfirst)) ?_)
          (ih (by omega) hr)
        rw [List.mem_singleton]
        exact Ne.symm hescape
      · rw [hfirst] at h
        dsimp only at h
        split_ifs at h with hbad
        rw [not_or, List.take_succ_cons, Bool.not_eq_false] at hbad
        obtain ⟨raw', hr, rfl⟩ := keep_eq_some.mp h
        obtain ⟨hk, raw'', rfl, hrest⟩ := lexString_split hr
        have hlength : (bs.take (count + 1)).length = count + 1 := by
          rw [List.length_take, Nat.min_eq_left hk]
        rw [← List.cons_append]
        refine .cons (.sequence _ (.full b _ count hfirst hlength hbad.2) ?_) (ih ?_ hrest)
        · exact not_mem_of_high (Sequence.high hfirst hbad.2) (by decide)
        · rw [List.length_drop]
          omega

end Raw

section Decoded
variable {raw v : Bytes}

theorem decodeString_plain {u : Bytes} (hu : 92 ∉ u) (raw : Bytes) :
    decodeString 0 (u ++ raw) = (decodeString 0 raw).map (u ++ ·) := by
  induction u with
  | nil =>
    rw [List.nil_append]
    cases decodeString 0 raw <;> rfl
  | cons b u ih =>
    rw [List.mem_cons, not_or] at hu
    rw [List.cons_append, decodeString.eq_def]
    dsimp only
    rw [if_neg (Ne.symm hu.1), ih hu.2, Option.map_map]
    rfl

theorem decodeString_escape {c : UInt8} (hc : c ≠ 117) (raw : Bytes) :
    decodeString 0 (92 :: c :: raw) = (decodeString 0 raw).map (unescape c :: ·) := by
  rw [decodeString, if_pos rfl]
  dsimp only
  rw [if_neg hc]
  rfl

theorem hexValue_getD_lt (c : UInt8) : (Percent.hexValue c).getD 0 < 16 := by
  unfold Percent.hexValue
  split_ifs with h1 h2 h3
  · have hle : c.toNat ≤ 57 := UInt8.le_iff_toNat_le.mp h1.2
    rw [Option.getD_some]
    omega
  · have hle : c.toNat ≤ 70 := UInt8.le_iff_toNat_le.mp h2.2
    rw [Option.getD_some]
    omega
  · have hle : c.toNat ≤ 102 := UInt8.le_iff_toNat_le.mp h3.2
    rw [Option.getD_some]
    omega
  · decide

theorem decodeUnicodeEscape_lt {digits : Bytes} (hlength : digits.length = 4) (raw : Bytes) :
    decodeUnicodeEscape (digits ++ raw) < 0x10000 := by
  match digits, hlength with
  | [a, b, c, d], _ =>
    have ha := hexValue_getD_lt a
    have hb := hexValue_getD_lt b
    have hc := hexValue_getD_lt c
    have hd := hexValue_getD_lt d
    simp only [decodeUnicodeEscape, List.cons_append, List.nil_append, List.take_succ_cons,
      List.take_zero, List.foldl_cons, List.foldl_nil]
    omega

/-- An escaped character outside the surrogates. -/
theorem decodeString_unicode {digits : Bytes} (hlength : digits.length = 4) (raw : Bytes)
    (hvalue : decodeUnicodeEscape (digits ++ raw) < 0xD800 ∨
      0xDFFF < decodeUnicodeEscape (digits ++ raw)) :
    decodeString 0 (92 :: 117 :: (digits ++ raw)) =
      (decodeString 0 raw).map (utf8Encode (decodeUnicodeEscape (digits ++ raw)) ++ ·) := by
  have hskip : decodeString 5 (117 :: (digits ++ raw)) = decodeString 0 raw := by
    have hall := decodeString_skip (117 :: digits) raw
    rwa [List.length_cons, hlength] at hall
  rw [decodeString, if_pos rfl]
  dsimp only
  rw [if_pos rfl, if_neg (by omega), if_neg (by omega), hskip]

/-- A unit that starts like a Unicode escape is one. -/
theorem Raw.unicode (h : Raw (92 :: 117 :: raw)) :
    ∃ digits raw', raw = digits ++ raw' ∧ digits.length = 4 ∧ Raw raw' := by
  generalize heq : (92 :: 117 :: raw : Bytes) = text at h
  cases h with
  | nil => cases heq
  | @cons u raw' hu hraw =>
    cases hu with
    | sequence u hseq hplain =>
      cases hseq with
      | ascii b hb =>
        cases heq
        exact absurd (List.mem_singleton.mpr rfl) hplain
      | full b bs count hfirst hlength hfull =>
        rw [List.cons_append, List.cons.injEq] at heq
        obtain ⟨rfl, -⟩ := heq
        exact absurd (List.mem_cons_self ..) hplain
    | escape c hc hne =>
      cases heq
      exact absurd rfl hne
    | unicode digits hlength =>
      rw [List.cons_append, List.cons_append, List.cons.injEq, List.cons.injEq] at heq
      exact ⟨digits, raw', heq.2.2, hlength, hraw⟩

/-- A Unicode escape gives one character, alone or with the escape after it. -/
theorem decodeString_unicode_cases {digits : Bytes} (hlength : digits.length = 4) (hraw : Raw raw)
    (h : decodeString 0 (92 :: 117 :: (digits ++ raw)) = some v) :
    ∃ codepoint raw' v', Raw raw' ∧ raw'.length ≤ raw.length ∧ decodeString 0 raw' = some v' ∧
      v = utf8Encode codepoint ++ v' ∧ codepoint ≤ 0x10FFFF ∧
      (codepoint < 0xD800 ∨ 0xDFFF < codepoint) := by
  have hlt := decodeUnicodeEscape_lt hlength raw
  by_cases hvalue : decodeUnicodeEscape (digits ++ raw) < 0xD800 ∨
      0xDFFF < decodeUnicodeEscape (digits ++ raw)
  · rw [decodeString_unicode hlength raw hvalue] at h
    obtain ⟨v', hv', rfl⟩ := Option.map_eq_some_iff.mp h
    exact ⟨_, raw, v', hraw, le_rfl, hv', rfl, by omega, hvalue⟩
  · have hdrop : (digits ++ raw).drop 4 = raw := by rw [← hlength, List.drop_left]
    rw [decodeString, if_pos rfl] at h
    dsimp only at h
    rw [if_pos rfl, hdrop] at h
    split_ifs at h with hhigh hpair
    · obtain ⟨hnext, hlow⟩ := hpair
      obtain ⟨raw₁, rfl⟩ : ∃ raw₁, raw = 92 :: 117 :: raw₁ := by
        have hsplit := List.take_append_drop 2 raw
        rw [hnext] at hsplit
        exact ⟨raw.drop 2, hsplit.symm⟩
      obtain ⟨digits', raw', rfl, hlength', hraw'⟩ := hraw.unicode
      have hskip : decodeString 11 (117 :: (digits ++ 92 :: 117 :: (digits' ++ raw'))) =
          decodeString 0 raw' := by
        have hall := decodeString_skip (117 :: digits ++ 92 :: 117 :: digits') raw'
        simpa [hlength, hlength'] using hall
      rw [hskip] at h
      obtain ⟨v', hv', rfl⟩ := Option.map_eq_some_iff.mp h
      refine ⟨_, raw', v', hraw', ?_, hv', rfl, by omega, by omega⟩
      simp only [List.length_cons, List.length_append]
      omega
    · omega

theorem isEscape_lt {c : UInt8} (h : isEscape c = true) : (unescape c).toNat < 0x80 := by
  simp only [isEscape, Bool.or_eq_true, decide_eq_true_eq] at h
  rcases h with ((((((rfl | rfl) | rfl) | rfl) | rfl) | rfl) | rfl) | rfl <;> decide

theorem decodeString_utf8 (n : ℕ) (hn : raw.length ≤ n) (hraw : Raw raw)
    (h : decodeString 0 raw = some v) : Utf8 v := by
  induction n generalizing raw v with
  | zero =>
    rw [List.eq_nil_of_length_eq_zero (Nat.le_zero.mp hn)] at h
    cases h
    exact .nil
  | succ n ih =>
    cases hraw with
    | nil =>
      cases h
      exact .nil
    | @cons u raw hu hraw =>
      rw [List.length_append] at hn
      cases hu with
      | sequence u hseq hplain =>
        have hpos : 0 < u.length := by cases hseq <;> simp
        rw [decodeString_plain hplain] at h
        obtain ⟨v', hv', rfl⟩ := Option.map_eq_some_iff.mp h
        exact .cons hseq (ih (by omega) hraw hv')
      | escape c hc hne =>
        rw [List.cons_append, List.singleton_append, decodeString_escape hne] at h
        obtain ⟨v', hv', rfl⟩ := Option.map_eq_some_iff.mp h
        simp only [List.length_cons, List.length_nil] at hn
        exact .cons (.ascii _ (isEscape_lt hc)) (ih (by omega) hraw hv')
      | unicode digits hlength =>
        rw [List.cons_append, List.cons_append] at h
        simp only [List.length_cons, hlength] at hn
        obtain ⟨codepoint, raw', v', hraw', hle, hv', rfl, hmax, hsurrogate⟩ :=
          decodeString_unicode_cases hlength hraw h
        exact .cons (utf8Encode_sequence hmax hsurrogate) (ih (by omega) hraw' hv')

/-- Whatever the decoder takes for a string is UTF-8. -/
theorem lexScanString_utf8 {text rest : Bytes} (h : lexScanString text = some (v, rest)) :
    utf8CheckString v = true := by
  obtain ⟨⟨raw, rest'⟩, hraw, h⟩ := Option.bind_eq_some_iff.mp h
  obtain ⟨v', hv', heq⟩ := Option.map_eq_some_iff.mp h
  cases heq
  exact utf8CheckString_iff.mpr
    (decodeString_utf8 raw.length le_rfl (lexString_raw text.length le_rfl hraw) hv')

end Decoded

section RoundTrip
variable {u v : Bytes}

/-- What `dump_string` writes for a byte. -/
def escaped (b : UInt8) : Bytes := (escapeByte b).getD [b]

/-- A byte of ASCII is written as a short escape, as a Unicode escape, or as it is. -/
theorem escapeByte_cases (b : UInt8) :
    (∃ c, escapeByte b = some [92, c] ∧ isEscape c = true ∧ c ≠ 117 ∧ unescape c = b) ∨
      (escapeByte b = some [92, 117, 48, 48, Percent.hexDigit (b.toNat / 16),
        Percent.hexDigit (b.toNat % 16)] ∧ b.toNat < 32) ∨
      (escapeByte b = none ∧ b ≠ 92 ∧ b ≠ 34 ∧ 32 ≤ b.toNat) := by
  by_cases hback : b = 92
  · exact .inl ⟨92, by rw [hback]; rfl, rfl, by decide, hback.symm⟩
  by_cases hquote : b = 34
  · exact .inl ⟨34, by rw [hquote]; rfl, rfl, by decide, hquote.symm⟩
  by_cases hb : b = 8
  · exact .inl ⟨98, by rw [hb]; rfl, rfl, by decide, hb.symm⟩
  by_cases hf : b = 12
  · exact .inl ⟨102, by rw [hf]; rfl, rfl, by decide, hf.symm⟩
  by_cases hn : b = 10
  · exact .inl ⟨110, by rw [hn]; rfl, rfl, by decide, hn.symm⟩
  by_cases hr : b = 13
  · exact .inl ⟨114, by rw [hr]; rfl, rfl, by decide, hr.symm⟩
  by_cases ht : b = 9
  · exact .inl ⟨116, by rw [ht]; rfl, rfl, by decide, ht.symm⟩
  rw [escapeByte, if_neg hback, if_neg hquote, if_neg hb, if_neg hf, if_neg hn, if_neg hr,
    if_neg ht]
  by_cases hcontrol : b.toNat < 32
  · rw [if_pos hcontrol]
    exact .inr (.inl ⟨rfl, hcontrol⟩)
  · rw [if_neg hcontrol]
    exact .inr (.inr ⟨rfl, hback, hquote, Nat.le_of_not_lt hcontrol⟩)

theorem escapeByte_high {b : UInt8} (hb : 0x80 ≤ b.toNat) : escapeByte b = none := by
  rcases escapeByte_cases b with ⟨c, -, hc, -, rfl⟩ | ⟨-, hlt⟩ | ⟨h, -⟩
  · have hlt := isEscape_lt hc
    omega
  · omega
  · exact h

theorem flatMap_escaped_high (hu : ∀ c ∈ u, 0x80 ≤ c.toNat) : u.flatMap escaped = u := by
  induction u with
  | nil => rfl
  | cons b u ih =>
    have hb : escaped b = [b] := by rw [escaped, escapeByte_high (hu b (List.mem_cons_self ..))]; rfl
    rw [List.flatMap_cons, hb, ih fun c hc => hu c (List.mem_cons_of_mem _ hc)]
    rfl

/-- `dump_string` escapes every byte of a UTF-8 string on its own. -/
theorem dumpChars_utf8 (hv : Utf8 v) (pending : Bytes) :
    dumpChars 0 pending v = (pending ++ v.flatMap escaped ++ [34], true) := by
  induction hv generalizing pending with
  | nil => rw [dumpChars, List.flatMap_nil, List.append_nil]
  | @cons u v hu hv ih =>
    rw [List.flatMap_append]
    cases hu with
    | ascii b hb =>
      rw [List.singleton_append, dumpChars, utf8CheckFirst_eq_one_iff.mpr hb]
      dsimp only
      cases hescape : escapeByte b with
      | none => simp [ih, escaped, hescape]
      | some text => simp [ih, escaped, hescape]
    | full b bs count hfirst hlength hfull =>
      have htake : (b :: (bs ++ v)).take (count + 2) = b :: bs := by
        rw [List.take_succ_cons, ← hlength, List.take_left]
      have hgood : ¬((bs ++ v).length + 1 < count + 2 ∨
          utf8CheckFull ((b :: (bs ++ v)).take (count + 2)) (count + 2) = false) := by
        rw [htake, hfull, List.length_append]
        simp
        omega
      rw [flatMap_escaped_high (Sequence.high hfirst hfull), List.cons_append, dumpChars, hfirst]
      dsimp only
      rw [if_neg hgood, ← hlength, dumpChars_skip, ih]
      simp

theorem dumpString_utf8 (hv : Utf8 v) : dumpString v = (34 :: (v.flatMap escaped ++ [34]), true) := by
  rw [dumpString, dumpChars_utf8 hv]
  rfl

/-- The two digits of a control character. -/
theorem decodeUnicodeEscape_hexDigit {n : ℕ} (hn : n < 32) (raw : Bytes) :
    decodeUnicodeEscape ([48, 48, Percent.hexDigit (n / 16), Percent.hexDigit (n % 16)] ++ raw) =
      n := by
  simp only [decodeUnicodeEscape, List.cons_append, List.nil_append, List.take_succ_cons,
    List.take_zero, List.foldl_cons, List.foldl_nil,
    Percent.hexValue_hexDigit (n := n / 16) (by omega),
    Percent.hexValue_hexDigit (n := n % 16) (by omega), Option.getD_some]
  have hzero : (Percent.hexValue 48).getD 0 = 0 := by decide
  rw [hzero]
  omega

/-- The second loop of `lex_scan_string` gives a sequence back. -/
theorem decodeString_escaped (hu : Sequence u) (raw : Bytes) :
    decodeString 0 (u.flatMap escaped ++ raw) = (decodeString 0 raw).map (u ++ ·) := by
  cases hu with
  | ascii b hb =>
    rw [List.flatMap_singleton, escaped]
    rcases escapeByte_cases b with ⟨c, h, hc, hne, hb⟩ | ⟨h, hlt⟩ | ⟨h, hne, -⟩
    · rw [h, Option.getD_some, List.cons_append, List.singleton_append, decodeString_escape hne, hb]
      rfl
    · have hvalue := decodeUnicodeEscape_hexDigit hlt raw
      have hlength : [48, 48, Percent.hexDigit (b.toNat / 16),
          Percent.hexDigit (b.toNat % 16)].length = 4 := rfl
      have hcode := decodeString_unicode hlength raw (by rw [hvalue]; omega)
      have hencode : utf8Encode b.toNat = [b] := by
        rw [utf8Encode, if_pos hb, UInt8.ofNat_toNat]
      rw [h, Option.getD_some]
      rw [hvalue, hencode] at hcode
      exact hcode
    · rw [h]
      exact decodeString_plain (by simpa using Ne.symm hne) raw
  | full b bs count hfirst hlength hfull =>
    have hhigh := Sequence.high hfirst hfull
    rw [flatMap_escaped_high hhigh]
    exact decodeString_plain (not_mem_of_high hhigh (by decide)) raw

/-- The first loop of `lex_scan_string` passes over a sequence. -/
theorem lexString_escaped (hu : Sequence u) (text : Bytes) :
    lexString 0 (u.flatMap escaped ++ text) =
      (lexString 0 text).map fun r => (u.flatMap escaped ++ r.1, r.2) := by
  cases hu with
  | ascii b hb =>
    rw [List.flatMap_singleton, escaped]
    rcases escapeByte_cases b with ⟨c, h, hc, hne, -⟩ | ⟨h, hlt⟩ | ⟨h, hne, hquote, hlow⟩
    · have hlen : escapeLength (c :: text) = some 1 := by rw [escapeLength, if_neg hne, if_pos hc]
      have hround : lexString 0 (92 :: c :: text) = keep 92 (lexString [c].length ([c] ++ text)) := by
        rw [lexString, if_neg (by decide), if_neg (by decide), if_pos rfl, hlen]
        rfl
      rw [h, Option.getD_some, List.cons_append, List.singleton_append, hround, lexString_skip, keep,
        Option.map_map]
      rfl
    · have hdigit {n : ℕ} (hn : n < 16) : isXdigit (Percent.hexDigit n) = true := by
        rw [isXdigit, Percent.hexValue_hexDigit hn, Option.isSome_some]
      have hhigh := hdigit (n := b.toNat / 16) (by omega)
      have hlow := hdigit (n := b.toNat % 16) (by omega)
      have hzero : isXdigit 48 = true := by decide
      have hlen : escapeLength (117 :: 48 :: 48 :: Percent.hexDigit (b.toNat / 16) ::
          Percent.hexDigit (b.toNat % 16) :: text) = some 5 := by
        rw [escapeLength, if_pos rfl, if_pos]
        simp [hhigh, hlow, hzero]
      have hround : lexString 0 (92 :: 117 :: 48 :: 48 :: Percent.hexDigit (b.toNat / 16) ::
          Percent.hexDigit (b.toNat % 16) :: text) = keep 92 (lexString 5
            ([117, 48, 48, Percent.hexDigit (b.toNat / 16), Percent.hexDigit (b.toNat % 16)] ++
              text)) := by
        rw [lexString, if_neg (by decide), if_neg (by decide), if_pos rfl, hlen]
        rfl
      have hskip := lexString_skip [117, 48, 48, Percent.hexDigit (b.toNat / 16),
        Percent.hexDigit (b.toNat % 16)] text
      rw [h, Option.getD_some]
      refine hround.trans ?_
      rw [keep]
      refine (congrArg _ hskip).trans ?_
      rw [Option.map_map]
      rfl
    · rw [h, Option.getD_none, List.singleton_append, lexString, if_neg hquote,
        if_neg (Nat.not_lt.mpr hlow), if_neg hne, utf8CheckFirst_eq_one_iff.mpr hb]
      rfl
  | full b bs count hfirst hlength hfull =>
    have hhigh := Sequence.high hfirst hfull
    have hb := hhigh b (List.mem_cons_self ..)
    have hquote : b ≠ 34 := by
      rintro rfl
      simp at hb
    have hslash : b ≠ 92 := by
      rintro rfl
      simp at hb
    have htake : (b :: (bs ++ text)).take (count + 2) = b :: bs := by
      rw [List.take_succ_cons, ← hlength, List.take_left]
    have hgood : ¬((bs ++ text).length + 1 < count + 2 ∨
        utf8CheckFull ((b :: (bs ++ text)).take (count + 2)) (count + 2) = false) := by
      rw [htake, hfull, List.length_append]
      simp
      omega
    rw [flatMap_escaped_high hhigh, List.cons_append, lexString, if_neg hquote, if_neg (by omega),
      if_neg hslash, hfirst]
    dsimp only
    rw [if_neg hgood, ← hlength, lexString_skip, keep, Option.map_map]
    rfl

/-- The decoder reads every UTF-8 string back. -/
theorem lexScanString_escaped (hv : Utf8 v) (rest : Bytes) :
    lexScanString (v.flatMap escaped ++ 34 :: rest) = some (v, rest) := by
  have hlex : lexString 0 (v.flatMap escaped ++ 34 :: rest) = some (v.flatMap escaped, rest) := by
    induction hv with
    | nil => rfl
    | cons hu hv ih =>
      rw [List.flatMap_append, List.append_assoc, lexString_escaped hu, ih]
      rfl
  have hdecode : decodeString 0 (v.flatMap escaped) = some v := by
    clear hlex
    induction hv with
    | nil => rfl
    | cons hu hv ih =>
      rw [List.flatMap_append, decodeString_escaped hu, ih]
      rfl
  rw [lexScanString, hlex, Option.bind_some, hdecode]
  rfl

end RoundTrip

end RipExt.Json
