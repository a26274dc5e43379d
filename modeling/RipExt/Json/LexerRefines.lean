import RipExt.Json.StreamStrings

/-! The lexer of `load.c` reads the tokens of `Scan.lean`, and at every exit it can report where it
is. -/
namespace RipExt.Json

section Scanned
variable {text saved p rest : Bytes} {l : Lex}

/-- The token of the lexer is that of the scanner, and after a token that is valid the lexer stands
where the scanner does. -/
structure Scanned (text : Bytes) (cur : Token × Bytes) (r : Token × Lex) : Prop where
  token : r.1 = cur.1
  tells : r.2.Tells text
  stands : cur.1 ≠ .invalid → ∃ p, r.2.Stands text p cur.2

theorem Lex.At.scanned {t : Token} (h : l.At text saved p rest) (hsaved : saved ≠ []) :
    Scanned text (t, rest) (t, l) :=
  ⟨rfl, Lex.Within.tells ⟨saved, p, rest, hsaved, h⟩, fun _ => ⟨p, h.toStands⟩⟩

theorem Lex.Tells.scanned (h : l.Tells text) : Scanned text (.invalid, []) (.invalid, l) :=
  ⟨rfl, h, fun hne => absurd rfl hne⟩

/-- A token that is refused. -/
theorem Lex.At.refused (h : l.At text saved p rest) (hsaved : saved ≠ []) (c : Complaint) :
    Scanned text (.invalid, []) (.invalid, l.errorSet c) := by
  have htells : l.Tells text := Lex.Within.tells ⟨saved, p, rest, hsaved, h⟩
  exact (htells.errorSet c).scanned

/-- `lex_scan_string`, after the opening quote. -/
theorem Lex.Inside.scanString {bound : ℕ} (h : l.Inside text [34] p rest 0)
    (hbound : rest.length < bound) :
    Scanned text
      (match lexScanString rest with
        | some (value, rest) => (.string value, rest)
        | none => (.invalid, []))
      (l.scanString bound) := by
  have hended := h.stringLoop (by simp) hbound
  have hspelled {raw rest' : Bytes} := @lexString_spelled rest raw rest.length le_rfl rest'
  unfold Lex.scanString lexScanString
  generalize lexString 0 rest = o at hended hspelled
  generalize Lex.stringLoop bound l.getSave.1 l.getSave.2 = r at hended
  cases hended with
  | failed tells => exact tells.scanned
  | @quote raw rest' l here =>
    have htext : l.savedText.drop 1 = raw ++ [34] := by
      rw [here.token]
      rfl
    have hlength : raw.length < l.savedText.length := by
      rw [here.token]
      simp only [List.length_append, List.length_singleton]
      omega
    have hagrees := decodeLoop_agrees (hspelled rfl) hlength
    rw [Option.bind_some]
    dsimp only
    rw [htext]
    generalize decodeString 0 raw = v at hagrees
    generalize decodeLoop l.savedText.length (raw ++ [34]) = e at hagrees
    cases hagrees with
    | ok v => exact here.scanned (by simp)
    | error c => exact here.refused (by simp) c

end Scanned

section Numbers
variable {text saved p rest : Bytes} {l : Lex} {c : Got} {bound : ℕ}

theorem Lex.Ahead.isDigit_iff (h : Lex.Ahead text saved p rest (c, l)) :
    c.isDigit = true ↔ rest.takeWhile isDigit ≠ [] := by
  cases h with
  | @byte b tail => cases hb : isDigit b <;> simp [Got.isDigit, hb]
  | eof => simp [Got.isDigit]
  | error here state =>
    obtain ⟨b, tail, rfl, hb⟩ := (here.undecodable state).high
    have hnot : ¬isDigit b = true := not_of_high (fun _ => isDigit_low) hb
    simp [Got.isDigit, hnot]

theorem Lex.Ahead.byte_iff {b : UInt8} (h : Lex.Ahead text saved p rest (c, l))
    (hb : b.toNat < 0x80) : c = .byte b ↔ rest.head? = some b := by
  cases h with
  | byte => simp
  | eof => simp
  | error here state =>
    obtain ⟨b', tail, rfl, hb'⟩ := (here.undecodable state).high
    simp [ne_of_high hb' hb]

/-- A sign is read, if it is there. -/
theorem Lex.Ahead.sign (h : Lex.Ahead text saved p rest (c, l)) (q : UInt8 → Bool) (cond : Prop)
    [Decidable cond] (hq : ∀ b, q b = true → b.toNat < 0x80)
    (hcond : cond ↔ ∃ b, c = .byte b ∧ q b = true) :
    Lex.Ahead text (saved ++ (rest.take 1).filter q) (p ++ (rest.take 1).filter q)
      (rest.drop ((rest.take 1).filter q).length) (if cond then l.getSave else (c, l)) := by
  cases h with
  | @byte b tail l next back passed =>
    by_cases hb : q b = true
    · rw [if_pos (hcond.mpr ⟨b, rfl, hb⟩)]
      simpa [hb] using next.getSave
    · have hnot : ¬cond := fun hc => by
        obtain ⟨b', hb', hqb⟩ := hcond.mp hc
        cases hb'
        exact hb hqb
      rw [if_neg hnot]
      simpa [hb] using Lex.Ahead.byte next back passed
  | eof here =>
    have hnot : ¬cond := fun hc => by
      obtain ⟨b, hb, -⟩ := hcond.mp hc
      cases hb
    rw [if_neg hnot]
    simpa using Lex.Ahead.eof here
  | error here state =>
    obtain ⟨b, tail, rfl, hb⟩ := (here.undecodable state).high
    have hnot : ¬cond := fun hc => by
      obtain ⟨b, hb, -⟩ := hcond.mp hc
      cases hb
    have hqb : ¬q b = true := not_of_high hq hb
    rw [if_neg hnot]
    simpa [hqb] using Lex.Ahead.error here state

/-- A run of digits that must not be empty. -/
theorem Lex.Ahead.digits (h : Lex.Ahead text saved p rest (c, l)) (hbound : rest.length ≤ bound)
    (hdigit : c.isDigit = true) :
    Lex.Ahead text (saved ++ rest.takeWhile isDigit) (p ++ rest.takeWhile isDigit)
      (rest.dropWhile isDigit) (l.saveWhile isDigit bound) := by
  cases h with
  | @byte b tail l next =>
    have hb : isDigit b = true := hdigit
    simpa [hb] using next.saveWhile (fun _ => isDigit_low) (by simpa using hbound)
  | eof => cases hdigit
  | error => cases hdigit

/-- The digits before the point. -/
theorem Lex.Ahead.wholeDigits (h : Lex.Ahead text saved p rest (c, l))
    (hbound : rest.length ≤ bound) (hsaved : saved = [] → c.isDigit = true) :
    ((rest.takeWhile isDigit).isEmpty ∨ (rest.takeWhile isDigit).head? = some 48 ∧
        (rest.takeWhile isDigit).length ≠ 1) ∧
      (∃ l' : Lex, l.wholeDigits bound c = .error l' ∧ l'.Within text) ∨
    ¬((rest.takeWhile isDigit).isEmpty ∨ (rest.takeWhile isDigit).head? = some 48 ∧
        (rest.takeWhile isDigit).length ≠ 1) ∧
      ∃ r : Got × Lex, l.wholeDigits bound c = .ok r ∧
        Lex.Ahead text (saved ++ rest.takeWhile isDigit) (p ++ rest.takeWhile isDigit)
          (rest.dropWhile isDigit) r := by
  have hiff := h.isDigit_iff
  unfold Lex.wholeDigits
  by_cases hzero : c = .byte 48
  · rw [if_pos hzero]
    subst hzero
    cases h with
    | @byte b tail l next =>
      have hahead := next.getSave
      have hiff' := Lex.Ahead.isDigit_iff (c := l.getSave.1) (l := l.getSave.2) hahead
      have hback := Lex.Ahead.back (c := l.getSave.1) (l := l.getSave.2) hahead
      have h48 : isDigit 48 = true := by decide
      dsimp only
      by_cases hdigit : l.getSave.1.isDigit = true
      · have hne := hiff'.mp hdigit
        rw [if_pos hdigit]
        exact .inl ⟨by simpa [h48] using hne, _, rfl, _, _, _, by simp, hback⟩
      · have hnil := not_not.mp (mt hiff'.mpr hdigit)
        have hdrop : tail.dropWhile isDigit = tail := by
          have hsplit := List.takeWhile_append_dropWhile (p := isDigit) (l := tail)
          rwa [hnil, List.nil_append] at hsplit
        rw [if_neg hdigit]
        refine .inr ⟨by simp [h48, hnil], _, rfl, ?_⟩
        simpa [h48, hnil, hdrop] using hahead
  · rw [if_neg hzero]
    by_cases hdigit : c.isDigit = true
    · rw [if_pos hdigit]
      refine .inr ⟨?_, _, rfl, h.digits hbound hdigit⟩
      rw [not_or, List.isEmpty_iff]
      refine ⟨hiff.mp hdigit, fun hhead => ?_⟩
      have hfirst : rest.head? = some 48 := by
        cases rest with
        | nil => cases hhead.1
        | cons b tail =>
          rw [List.takeWhile_cons] at hhead
          split_ifs at hhead
          · exact hhead.1
          · cases hhead.1
      exact hzero ((h.byte_iff (by decide)).mpr hfirst)
    · rw [if_neg hdigit]
      have hnil := not_not.mp (mt hiff.mpr hdigit)
      refine .inl ⟨.inl (by rw [hnil]; rfl), _, rfl, _, _, _, ?_, h.back⟩
      exact fun hsaved' => hdigit (hsaved hsaved')

/-- A part of a number, compared with the scanner. -/
inductive Lex.Part (text saved p : Bytes) : Option (Bytes × Bytes) → Except Lex (Got × Lex) → Prop
  | ok {u rest : Bytes} {r : Got × Lex} (ahead : Lex.Ahead text (saved ++ u) (p ++ u) rest r) :
      Lex.Part text saved p (some (u, rest)) (.ok r)
  | error {l : Lex} (within : l.Within text) : Lex.Part text saved p none (.error l)

theorem Lex.Ahead.fraction (h : Lex.Ahead text saved p rest (c, l)) (hbound : rest.length ≤ bound) :
    Lex.Part text saved p (lexFraction rest) (l.fraction bound c) := by
  have hpoint := h.byte_iff (b := 46) (by decide)
  unfold Lex.fraction
  by_cases hc : c = .byte 46
  · rw [if_pos hc]
    subst hc
    cases h with
    | @byte b tail l next =>
      have hholding := next.get
      rw [lexFraction, if_pos rfl]
      generalize l.get = r at hholding
      cases hholding with
      | @byte b' tail' l' next' token' suffix' back' passed' =>
        dsimp only
        have hsave := (Lex.Holding.byte next' token' suffix' back' passed').save
        rw [List.length_cons, List.length_cons] at hbound
        by_cases hb : isDigit b' = true
        · rw [if_pos (show Got.isDigit (.byte b') = true from hb)]
          have hshort : (b' :: tail').length ≤ bound := by
            rw [List.length_cons]
            omega
          have hdigits := hsave.digits hshort hb
          rw [if_neg (by simp [hb])]
          exact .ok (by simpa using hdigits)
        · rw [if_neg (show ¬Got.isDigit (.byte b') = true from hb), if_pos (by simp [hb])]
          exact .error ⟨_, _, _, by simp, back'⟩
      | eof here => exact .error ⟨_, _, _, by simp, here⟩
      | error here state =>
        obtain ⟨b', tail', rfl, hb⟩ := (here.undecodable state).high
        have hnot : ¬isDigit b' = true := not_of_high (fun _ => isDigit_low) hb
        rw [if_pos (by simp [hnot])]
        exact .error ⟨_, _, _, by simp, here⟩
  · rw [if_neg hc]
    have hfraction : lexFraction rest = some ([], rest) := by
      cases rest with
      | nil => rfl
      | cons b tail =>
        rw [lexFraction, if_neg]
        rintro rfl
        exact hc (hpoint.mpr rfl)
    rw [hfraction]
    exact .ok (by simpa using h)

theorem Lex.Ahead.exponent (h : Lex.Ahead text saved p rest (c, l)) (hbound : rest.length ≤ bound) :
    Lex.Part text saved p (lexExponent rest) (l.exponent bound c) := by
  have hlower := h.byte_iff (b := 101) (by decide)
  have hupper := h.byte_iff (b := 69) (by decide)
  unfold Lex.exponent
  by_cases hc : c = .byte 69 ∨ c = .byte 101
  · rw [if_pos hc]
    cases h with
    | @byte b tail l next =>
      have hb : b = 69 ∨ b = 101 := by simpa using hc
      rw [lexExponent, if_pos hb]
      have hahead := next.getSave
      have hsign := Lex.Ahead.sign (c := l.getSave.1) (l := l.getSave.2) hahead
        (fun c => decide (c = 43 ∨ c = 45)) (l.getSave.1 = .byte 43 ∨ l.getSave.1 = .byte 45)
        (fun b hb => by
          rcases of_decide_eq_true hb with rfl | rfl <;> decide)
        (by
          constructor
          · rintro (h | h)
            · exact ⟨43, h, by decide⟩
            · exact ⟨45, h, by decide⟩
          · rintro ⟨b, hb, hq⟩
            rcases of_decide_eq_true hq with rfl | rfl
            · exact .inl hb
            · exact .inr hb)
      dsimp only
      generalize (if l.getSave.1 = .byte 43 ∨ l.getSave.1 = .byte 45 then l.getSave.2.getSave
        else (l.getSave.1, l.getSave.2)) = r at hsign ⊢
      obtain ⟨c', l'⟩ := r
      have hiff := hsign.isDigit_iff
      have hlength :
          (tail.drop ((tail.take 1).filter fun c => decide (c = 43 ∨ c = 45)).length).length ≤
            bound := by
        rw [List.length_drop]
        rw [List.length_cons] at hbound
        omega
      dsimp only
      by_cases hdigit : c'.isDigit = true
      · rw [if_pos hdigit, if_neg (by simpa using hiff.mp hdigit)]
        refine .ok ?_
        simpa using hsign.digits hlength hdigit
      · have hnil := not_not.mp (mt hiff.mpr hdigit)
        rw [if_neg hdigit, if_pos (by simpa using hnil)]
        exact .error ⟨_, _, _, by simp, hsign.back⟩
    | eof => simp at hc
    | error => simp at hc
  · rw [if_neg hc]
    have hexponent : lexExponent rest = some ([], rest) := by
      cases rest with
      | nil => rfl
      | cons b tail =>
        rw [lexExponent, if_neg]
        rintro (rfl | rfl)
        · exact hc (.inl (hupper.mpr rfl))
        · exact hc (.inr (hlower.mpr rfl))
    rw [hexponent]
    exact .ok (by simpa using h)

variable {strtod : Bytes → Option Double} {flags : LoadFlags} {integer : Bytes}

/-- `lex_scan_number` behind the whole digits. -/
theorem Lex.Ahead.numberTail (h : Lex.Ahead text integer p rest (c, l))
    (hbound : rest.length ≤ bound) (hinteger : integer ≠ []) :
    Scanned text
      (match afterDigits strtod flags.decodeIntAsReal integer rest with
        | some (number, rest) => (numberToken number, Json.unget rest)
        | none => (.invalid, []))
      (l.numberTail strtod flags bound c) := by
  have hcond : (flags.decodeIntAsReal = false ∧ c ≠ .byte 46 ∧ c ≠ .byte 69 ∧ c ≠ .byte 101) ↔
      (flags.decodeIntAsReal = false ∧ rest.head?.all fun c => c ≠ 46 ∧ c ≠ 69 ∧ c ≠ 101) := by
    have h46 := h.byte_iff (b := 46) (by decide)
    have h69 := h.byte_iff (b := 69) (by decide)
    have h101 := h.byte_iff (b := 101) (by decide)
    rw [ne_eq, ne_eq, ne_eq, h46, h69, h101]
    cases rest <;> simp
  unfold Lex.numberTail afterDigits
  by_cases hint : flags.decodeIntAsReal = false ∧ c ≠ .byte 46 ∧ c ≠ .byte 69 ∧ c ≠ .byte 101
  · rw [if_pos hint, if_pos (hcond.mp hint)]
    have hback := h.back
    dsimp only
    rw [hback.token]
    rcases jsonStrtoint integer with ⟨value, _ | _⟩
    · exact hback.scanned hinteger
    · exact hback.refused hinteger _
  · rw [if_neg hint, if_neg (mt hcond.mpr hint)]
    have hfraction := h.fraction hbound
    generalize hf : lexFraction rest = f at hfraction
    generalize l.fraction bound c = r at hfraction
    cases hfraction with
    | error within => exact within.tells.scanned
    | @ok u rest' r ahead =>
      obtain ⟨c', l'⟩ := r
      have hlength := (lexFraction_suffix hf).length_le.trans hbound
      have hexponent := ahead.exponent hlength
      rw [Option.bind_eq_bind, Option.bind_some]
      dsimp only
      generalize lexExponent rest' = e at hexponent
      generalize l'.exponent bound c' = r' at hexponent
      cases hexponent with
      | error within => exact within.tells.scanned
      | @ok u' rest'' r' ahead' =>
        obtain ⟨c'', l''⟩ := r'
        have hback := ahead'.back
        rw [Option.bind_eq_bind, Option.bind_some]
        dsimp only
        rw [hback.token]
        cases strtod (integer ++ u ++ u') with
        | none => exact hback.refused (by simp [hinteger]) _
        | some value => exact hback.scanned (by simp [hinteger])

/-- `lex_scan_number`. -/
theorem Lex.Ahead.scanNumber {b : UInt8} {tail : Bytes}
    (h : Lex.Ahead text [] p (b :: tail) (.byte b, l)) (hbound : (b :: tail).length ≤ bound)
    (hb : (isDigit b || b = 45) = true) :
    Scanned text
      (match lexScanNumber strtod flags.decodeIntAsReal (b :: tail) with
        | some (number, rest) => (numberToken number, Json.unget rest)
        | none => (.invalid, []))
      (l.scanNumber strtod flags bound (.byte b)) := by
  rw [lexScanNumber_eq]
  dsimp only
  unfold Lex.scanNumber
  have hsign := h.sign (fun c => decide (c = 45)) (Got.byte b = .byte 45)
    (fun b hb => by rw [of_decide_eq_true hb]; decide) (by simp)
  change Lex.Ahead text ([] ++ minus (b :: tail)) (p ++ minus (b :: tail))
    ((b :: tail).drop (minus (b :: tail)).length) _ at hsign
  rw [List.nil_append] at hsign
  have hdigit : minus (b :: tail) = [] → isDigit b = true := fun hminus => by
    by_contra hnot
    have h45 : b = 45 := by simpa [hnot] using hb
    simp [minus, h45] at hminus
  have hsame : minus (b :: tail) = [] →
      (if Got.byte b = .byte 45 then l.getSave else (.byte b, l)) = (.byte b, l) := fun hminus => by
    rw [if_neg]
    intro h45
    cases h45
    simp [minus] at hminus
  generalize (if Got.byte b = .byte 45 then l.getSave else (.byte b, l)) = r at hsign hsame
  obtain ⟨c, l'⟩ := r
  have hlength : ((b :: tail).drop (minus (b :: tail)).length).length ≤ bound := by
    rw [List.length_drop]
    omega
  have hfirst : minus (b :: tail) = [] → c.isDigit = true := fun hminus => by
    have heq := hsame hminus
    cases heq
    exact hdigit hminus
  dsimp only
  rcases hsign.wholeDigits hlength hfirst with ⟨hbad, l'', hl'', hwithin⟩ | ⟨hgood, r, hr, hahead⟩
  · rw [if_pos hbad, hl'']
    exact hwithin.tells.scanned
  · rw [if_neg hgood, hr]
    obtain ⟨c', l''⟩ := r
    refine hahead.numberTail ?_ ?_
    · exact (List.dropWhile_suffix _).length_le.trans hlength
    · rw [not_or, List.isEmpty_iff] at hgood
      exact List.append_ne_nil_of_right_ne_nil _ hgood.1

end Numbers

section Tokens
variable {text saved p rest : Bytes} {l : Lex} {bound : ℕ} {strtod : Bytes → Option Double}
  {flags : LoadFlags}

theorem utf8CheckFirst_continued {b : UInt8} (hb : 0x80 ≤ b.toNat ∧ b.toNat ≤ 0xBF) :
    utf8CheckFirst b = 0 := by
  unfold utf8CheckFirst
  dsimp only
  rw [if_neg (by omega), if_pos (by omega)]

/-- The rest of a character is moved into the token. -/
theorem Lex.At.saveCached (h : l.At text saved p rest) (hstate : l.stream.state = .ok)
    (hcontinued : Continued l.stream.pending) (hsaved : saved ≠ []) (n : ℕ) :
    (l.saveCached n).Within text := by
  induction n generalizing l saved p rest with
  | zero => exact ⟨saved, p, rest, hsaved, h⟩
  | succ n ih =>
    rw [Lex.saveCached]
    dsimp only
    split_ifs with hzero
    · exact ⟨saved, p, rest, hsaved, h⟩
    obtain ⟨b, more, hdrop, hpending⟩ := Stream.pending_cons hzero
    rw [hpending] at hcontinued
    have hb := hcontinued b List.mem_cons_self
    have hmore : Continued more := fun c hc => hcontinued c (List.mem_cons_of_mem b hc)
    rw [getD_of_drop hdrop]
    obtain ⟨hbuffer, hrest⟩ := h.reads.fine hstate
    rw [hpending, List.cons_append] at hrest
    subst hrest
    have hafter : Stream.pending { l.stream with
        bufferPos := l.stream.bufferPos + 1, position := l.stream.position + 1 } = more :=
      pending_of_continued (drop_succ_of_drop hdrop) hmore
    have hplace : (placeAfter p).next b =
        ⟨l.stream.line, l.stream.column, l.stream.position + 1⟩ := by
      have hline : b ≠ 10 := ne_of_high hb.1 (by decide)
      rw [← h.place, Place.next, if_neg hline, startsCharacter, utf8CheckFirst_continued hb]
      rfl
    have hat : Lex.At text (saved ++ [b]) (p ++ [b]) (more ++ l.stream.source)
        { l with
          savedText := l.savedText ++ [b]
          stream :=
            { l.stream with
              bufferPos := l.stream.bufferPos + 1, position := l.stream.position + 1 } } := by
      refine ⟨⟨.ok hstate hbuffer (by rw [hafter]), ?_, ?_, h.clean, h.blamed⟩, ?_,
        List.suffix_append_self_iff.mpr h.suffix⟩
      · rw [placeAfter_concat, hplace]
        rfl
      · rw [List.append_assoc]
        exact h.drops
      · rw [← h.token]
    exact ih hat hstate (hafter ▸ hmore) (by simp)

/-- The lexer reads the tokens of the scanner. -/
theorem Lex.Stands.scan (h : l.Stands text p rest) (hbound : rest.length < bound) :
    Scanned text (lexScan strtod flags rest) (l.scan strtod flags bound) := by
  have hstart : Lex.At text [] p rest { l with savedText := [] } :=
    ⟨⟨h.reads, h.place, h.drops, h.clean, h.blamed⟩, rfl, List.nil_suffix⟩
  have hholding := hstart.skipBlanks hbound
  have hlength := (List.dropWhile_suffix isBlank (l := rest)).length_le.trans_lt hbound
  unfold Lex.scan lexScan
  generalize p ++ rest.takeWhile isBlank = p' at hholding
  generalize rest.dropWhile isBlank = rest' at hholding hlength
  generalize Lex.skipBlanks bound { l with savedText := [] } = r at hholding
  cases hholding with
  | @byte b tail l next token suffix back passed =>
    have hahead := (Lex.Holding.byte next token suffix back passed).save
    have hat : (l.save (.byte b)).At text [b] (p' ++ [b]) tail := by
      cases hahead with
      | byte next => exact next
    rw [List.length_cons] at hlength
    dsimp only
    by_cases hpunctuation : isPunctuation b = true
    · rw [if_pos hpunctuation, if_pos hpunctuation]
      exact hat.scanned (by simp)
    rw [if_neg hpunctuation, if_neg hpunctuation]
    by_cases hquote : b = 34
    · rw [if_pos hquote, if_pos hquote]
      subst hquote
      have halone : (l.save (.byte 34)).stream.pending = [] := passed.alone (by decide)
      exact Lex.Inside.scanString
        ⟨hat, passed.state, passed.continued, by rw [halone]; rfl⟩ (by omega)
    rw [if_neg hquote, if_neg hquote]
    by_cases hnumber : (isDigit b || b = 45) = true
    · rw [if_pos hnumber, if_pos hnumber]
      exact hahead.scanNumber (by rw [List.length_cons]; omega) hnumber
    rw [if_neg hnumber, if_neg hnumber]
    by_cases halpha : isAlpha b = true
    · rw [if_pos halpha, if_pos halpha]
      have hshort : tail.length < bound := by omega
      have hword := hat.saveWhile (fun _ => isAlpha_low) hshort
      have hback := Lex.Ahead.back (c := (Lex.saveWhile isAlpha bound (l.save (.byte b))).1)
        (l := (Lex.saveWhile isAlpha bound (l.save (.byte b))).2) hword
      rw [hback.token, List.singleton_append]
      exact hback.scanned (by simp)
    · rw [if_neg halpha, if_neg halpha]
      exact (hat.saveCached passed.state passed.continued (by simp) 5).tells.scanned
  | eof here => exact ⟨rfl, here.tells fun _ _ => rfl, fun _ => ⟨p', here.toStands⟩⟩
  | @error _ l here state =>
    obtain ⟨b, tail, rfl, hb⟩ := (here.undecodable state).high
    have hpunctuation : ¬isPunctuation b = true := not_of_high (fun _ => isPunctuation_low) hb
    have hquote : b ≠ 34 := ne_of_high hb (by decide)
    have hnumber : ¬(isDigit b || b = 45) = true := by
      rw [Bool.or_eq_true, decide_eq_true_eq, not_or]
      exact ⟨not_of_high (fun _ => isDigit_low) hb, ne_of_high hb (by decide)⟩
    have halpha : ¬isAlpha b = true := not_of_high (fun _ => isAlpha_low) hb
    dsimp only
    rw [if_neg hpunctuation, if_neg hquote, if_neg hnumber, if_neg halpha]
    exact (here.tells fun _ hok => absurd state hok).scanned

end Tokens

end RipExt.Json
