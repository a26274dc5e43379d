import RipExt.Json.StreamReads
import RipExt.Json.Strings

/-! The lexer of `load.c` in the middle of a token: a character ahead, which it can give back, runs
of characters, and the two loops over a string. They take from the stream what the scanner takes
from the text. -/
namespace RipExt.Json

section Saving
variable {text saved p rest : Bytes} {l : Lex} {c : Got}

/-- Whatever the lexer complains about, the report tells where it is. -/
def Lex.Tells (text : Bytes) (l : Lex) : Prop := ∀ c, Blamed text (l.errorSet c).error

/-- The lexer has read a part of a token. -/
def Lex.Within (text : Bytes) (l : Lex) : Prop :=
  ∃ saved p rest, saved ≠ [] ∧ l.At text saved p rest

theorem Lex.At.tells (h : l.At text saved p rest)
    (hnear : saved = [] → l.stream.state ≠ .error → rest = []) : l.Tells text := by
  intro c
  by_cases hstate : l.stream.state = .error
  · have hblamed := h.blamed hstate
    rw [Lex.errorSet_of_error hblamed.text_ne_nil]
    exact hblamed
  · rw [Lex.errorSet_of_clean (h.clean hstate) h.place h.token]
    exact ⟨c, p, rest, saved, _, h.drops, h.suffix, rfl, fun herror => absurd herror hstate, hnear⟩

theorem Lex.Within.tells (h : l.Within text) : l.Tells text := by
  obtain ⟨saved, p, rest, hsaved, hat⟩ := h
  exact hat.tells fun hnil => absurd hnil hsaved

/-- The first complaint stays. -/
theorem Lex.Tells.errorSet (h : l.Tells text) (c : Complaint) : (l.errorSet c).Tells text := by
  intro c'
  rw [Lex.errorSet_of_error (h c).text_ne_nil]
  exact h c

/-- What a call of `lex_get_save` returns where `rest` is left. -/
inductive Lex.Ahead (text saved p : Bytes) : Bytes → Got × Lex → Prop
  | byte {b : UInt8} {tail : Bytes} {l : Lex} (next : l.At text (saved ++ [b]) (p ++ [b]) tail)
      (back : (l.ungetUnsave (.byte b)).At text saved p (Json.unget (b :: tail)))
      (passed : l.stream.Passed b) : Lex.Ahead text saved p (b :: tail) (.byte b, l)
  | eof {l : Lex} (here : l.At text saved p []) : Lex.Ahead text saved p [] (.eof, l)
  | error {rest : Bytes} {l : Lex} (here : l.At text saved p rest)
      (state : l.stream.state = .error) : Lex.Ahead text saved p rest (.error, l)

theorem Lex.ungetUnsave_save (b : UInt8) (l : Lex) :
    (l.save (.byte b)).ungetUnsave (.byte b) = l.unget (.byte b) := by
  simp only [Lex.ungetUnsave, Lex.save, Lex.unget, List.dropLast_concat]
  split_ifs <;> rfl

theorem Lex.Holding.save {r : Got × Lex} (h : Lex.Holding text saved p rest r) :
    Lex.Ahead text saved p rest (r.1, r.2.save r.1) := by
  cases h with
  | @byte b tail l next token suffix back passed =>
    refine .byte ⟨⟨next.reads, next.place, next.drops, next.clean, next.blamed⟩, ?_,
      List.suffix_append_self_iff.mpr suffix⟩ ?_ passed
    · rw [← token]
      rfl
    · rw [Lex.ungetUnsave_save]
      exact back
  | eof here => exact .eof here
  | error here state => exact .error here state

theorem Lex.At.getSave (h : l.At text saved p rest) :
    Lex.Ahead text saved p rest l.getSave := h.get.save

/-- The character ahead is given back. -/
theorem Lex.Ahead.back (h : Lex.Ahead text saved p rest (c, l)) :
    (l.ungetUnsave c).At text saved p (Json.unget rest) := by
  cases h with
  | byte next back => exact back
  | eof here => exact here
  | error here state =>
    obtain ⟨b, tail, rfl, hb⟩ := (here.undecodable state).high
    rw [Json.unget, if_neg (ne_of_high hb (by decide))]
    exact here

/-- A run of characters is read up to the first other one. -/
theorem Lex.At.saveWhile {q : UInt8 → Bool} (hq : ∀ b, q b = true → b.toNat < 0x80) {bound : ℕ}
    (h : l.At text saved p rest) (hbound : rest.length < bound) :
    Lex.Ahead text (saved ++ rest.takeWhile q) (p ++ rest.takeWhile q) (rest.dropWhile q)
      (l.saveWhile q bound) := by
  induction bound generalizing l saved p rest with
  | zero => omega
  | succ bound ih =>
    have hahead := h.getSave
    rw [Lex.saveWhile]
    generalize l.getSave = r at hahead
    cases hahead with
    | @byte b tail l next back passed =>
      dsimp only
      by_cases hb : q b = true
      · have hmore := ih next (by simpa using hbound)
        simpa [hb] using hmore
      · simpa [hb] using Lex.Ahead.byte next back passed
    | eof here => simpa using Lex.Ahead.eof here
    | error here state =>
      obtain ⟨b, tail, rfl, hb⟩ := (here.undecodable state).high
      have hnot : ¬q b = true := not_of_high hq hb
      simpa [hnot] using Lex.Ahead.error here state

theorem isBlank_low {b : UInt8} (hb : isBlank b = true) : b.toNat < 0x80 := by
  simp only [isBlank, Bool.or_eq_true, decide_eq_true_eq] at hb
  rcases hb with ((rfl | rfl) | rfl) | rfl <;> decide

theorem isPunctuation_low {b : UInt8} (hb : isPunctuation b = true) : b.toNat < 0x80 := by
  simp only [isPunctuation, Bool.or_eq_true, decide_eq_true_eq] at hb
  rcases hb with ((((rfl | rfl) | rfl) | rfl) | rfl) | rfl <;> decide

theorem isAlpha_low {b : UInt8} (hb : isAlpha b = true) : b.toNat < 0x80 := by
  simp [isAlpha] at hb
  omega

theorem isDigit_low {b : UInt8} (hb : isDigit b = true) : b.toNat < 0x80 := by
  simp [isDigit] at hb
  omega

theorem isXdigit_low {b : UInt8} (hb : isXdigit b = true) : b.toNat < 0x80 := by
  unfold isXdigit Percent.hexValue at hb
  by_contra hhigh
  have hle {d : UInt8} (hd : d.toNat < 0x80) : ¬b ≤ d := by
    rw [UInt8.le_iff_toNat_le]
    omega
  split_ifs at hb with hdigit hupper hlower
  · exact hle (by decide) hdigit.2
  · exact hle (by decide) hupper.2
  · exact hle (by decide) hlower.2
  · cases hb

theorem Lex.At.skipBlanks {bound : ℕ} (h : l.At text [] p rest) (hbound : rest.length < bound) :
    Lex.Holding text [] (p ++ rest.takeWhile isBlank) (rest.dropWhile isBlank)
      (l.skipBlanks bound) := by
  induction bound generalizing l p rest with
  | zero => omega
  | succ bound ih =>
    have hholding := h.get
    rw [Lex.skipBlanks]
    generalize l.get = r at hholding
    cases hholding with
    | @byte b tail l next token suffix back passed =>
      dsimp only
      by_cases hb : isBlank b = true
      · have hmore := ih ⟨next, token, List.nil_suffix⟩ (by simpa using hbound)
        simpa [hb] using hmore
      · simpa [hb] using Lex.Holding.byte next token List.nil_suffix back passed
    | eof here => simpa using Lex.Holding.eof here
    | error here state =>
      obtain ⟨b, tail, rfl, hb⟩ := (here.undecodable state).high
      have hnot : ¬isBlank b = true := not_of_high (fun _ => isBlank_low) hb
      simpa [hnot] using Lex.Holding.error here state

end Saving

section Strings
variable {text saved p rest tail : Bytes} {l : Lex} {b : UInt8} {k k' n : ℕ}

/-- The byte `b` is passed where `k` bytes of the current character are left, and `k'` are after it.
At the start of a character it is whole in the text. -/
inductive Passes (b : UInt8) (tail : Bytes) : ℕ → ℕ → Prop
  | inside {k : ℕ} (hb : 0x80 ≤ b.toNat) : Passes b tail (k + 1) k
  | ascii (hb : b.toNat < 0x80) : Passes b tail 0 0
  | first {count : ℕ} (hfirst : utf8CheckFirst b = count + 2)
      (hfull : ¬(tail.length + 1 < count + 2 ∨
        utf8CheckFull ((b :: tail).take (count + 2)) (count + 2) = false)) :
      Passes b tail 0 (count + 1)

theorem Sequence.passes {more source : Bytes} (h : Sequence (b :: more)) :
    Passes b (more ++ source) 0 more.length := by
  cases h with
  | ascii b hb => exact .ascii hb
  | full b bs count hfirst hlength hfull =>
    have htake : (b :: (more ++ source)).take (count + 2) = b :: more := by
      rw [List.take_succ_cons, ← hlength, List.take_left]
    rw [hlength]
    refine .first hfirst ?_
    rw [htake, hfull, List.length_append, not_or]
    exact ⟨by omega, by simp⟩

/-- The lexer is in the middle of a token; `k` bytes of the current character are left. -/
structure Lex.Inside (text saved p rest : Bytes) (k : ℕ) (l : Lex) : Prop
    extends Lex.At text saved p rest l where
  state : l.stream.state = .ok
  continued : Continued l.stream.pending
  count : l.stream.pending.length = k

/-- What the stream does with the current character. -/
theorem Lex.Inside.get_passes (h : l.Inside text saved p rest k) :
    (l.get.1 = .error → k = 0) ∧
      ∀ b tail, l.get.1 = .byte b → rest = b :: tail →
        Passes b tail k l.get.2.stream.pending.length := by
  have hcount := h.count
  have hhigh := h.continued
  obtain ⟨hbuffer, hrest⟩ := h.reads.fine h.state
  have hget := Lex.get_fetches h.state hbuffer
  generalize l.get = r at hget
  cases hget with
  | eof => exact ⟨by simp, by simp⟩
  | error hpending =>
    rw [hpending] at hcount
    exact ⟨fun _ => hcount.symm, by simp⟩
  | @first b more source hpending hsource hsequence =>
    obtain ⟨hfst, hafter, -⟩ := Stream.pass_spec
      (s := { l.stream with buffer := b :: more, source, bufferPos := 0 }) hsequence rfl
    refine ⟨by simp [Lex.pass], fun b' tail' hb' htail => ?_⟩
    simp only [Lex.pass, hfst, hafter] at hb' ⊢
    cases hb'
    rw [hrest, hpending, hsource, List.nil_append] at htail
    rw [hpending, List.length_nil] at hcount
    rw [← hcount, ← (List.cons.inj htail).2]
    exact hsequence.passes
  | @inside b more hpending hdrop hsequence =>
    obtain ⟨hfst, hafter, -⟩ := Stream.pass_spec hsequence hdrop
    rw [hpending] at hhigh hcount
    refine ⟨by simp [Lex.pass], fun b' tail' hb' htail => ?_⟩
    simp only [Lex.pass, hfst, hafter] at hb' ⊢
    cases hb'
    rw [← hcount, List.length_cons]
    exact .inside (hhigh b List.mem_cons_self).1

/-- What `lex_get_save` does in the middle of a token. -/
inductive Lex.Next (text saved p : Bytes) (k : ℕ) : Bytes → Got × Lex → Prop
  | byte {b : UInt8} {tail : Bytes} {k' : ℕ} {l : Lex} (passes : Passes b tail k k')
      (next : l.Inside text (saved ++ [b]) (p ++ [b]) tail k')
      (back : (l.ungetUnsave (.byte b)).At text saved p (Json.unget (b :: tail))) :
      Lex.Next text saved p k (b :: tail) (.byte b, l)
  | eof {l : Lex} (here : l.At text saved p []) : Lex.Next text saved p k [] (.eof, l)
  | error {rest : Bytes} {l : Lex} (here : l.At text saved p rest) (undecodable : Undecodable rest)
      (start : k = 0) : Lex.Next text saved p k rest (.error, l)

theorem Lex.Inside.getSave (h : l.Inside text saved p rest k) :
    Lex.Next text saved p k rest l.getSave := by
  have hahead := h.toAt.getSave
  obtain ⟨herror, hbyte⟩ := h.get_passes
  have hstream : l.getSave.2.stream = l.get.2.stream := by
    unfold Lex.getSave Lex.save
    split <;> rfl
  have hfst : l.get.1 = l.getSave.1 := rfl
  rw [hfst] at herror hbyte
  rw [← hstream] at hbyte
  generalize l.getSave = r at hahead herror hbyte
  cases hahead with
  | byte next back passed =>
    exact .byte (hbyte _ _ rfl rfl) ⟨next, passed.state, passed.continued, rfl⟩ back
  | eof here => exact .eof here
  | error here state => exact .error here (here.undecodable state) (herror rfl)

theorem lexString_undecodable (h : Undecodable rest) : lexString 0 rest = none := by
  obtain ⟨b, tail, rfl, hfill⟩ := h
  unfold fillBuffer at hfill
  by_cases hlow : b.toNat < 0x80
  · rw [if_pos hlow] at hfill
    cases hfill
  rw [if_neg hlow] at hfill
  have hb := Nat.not_lt.mp hlow
  have hquote : b ≠ 34 := ne_of_high hb (by decide)
  have hescape : b ≠ 92 := ne_of_high hb (by decide)
  rw [lexString, if_neg hquote, if_neg (by omega), if_neg hescape]
  rcases hfirst : utf8CheckFirst b with _ | _ | count
  · rfl
  · exact absurd (utf8CheckFirst_eq_one_iff.mp hfirst) hlow
  · dsimp only at hfill ⊢
    rw [hfirst, if_neg (Nat.succ_ne_zero _)] at hfill
    rw [if_pos]
    by_cases hshort : tail.length + 1 < count + 2
    · exact .inl hshort
    · rw [List.take_append_of_le_length (by omega)] at hfill
      exact .inr hfill

theorem Passes.of_low (h : Passes b tail 0 k') (hb : b.toNat < 0x80) : k' = 0 := by
  cases h with
  | ascii => rfl
  | first hfirst =>
    rw [utf8CheckFirst_eq_one_iff.mpr hb] at hfirst
    simp at hfirst

/-- The hexadecimal digits of an escape. -/
theorem Lex.Inside.hexLoop (h : l.Inside text saved p rest 0) (hsaved : saved ≠ []) (n : ℕ) :
    ((rest.take n).length = n ∧ (rest.take n).all isXdigit ∧
      ∃ l' : Lex, Lex.hexLoop n l.getSave.1 l.getSave.2 = (true, l'.getSave) ∧
        l'.Inside text (saved ++ rest.take n) (p ++ rest.take n) (rest.drop n) 0) ∨
    (¬((rest.take n).length = n ∧ (rest.take n).all isXdigit) ∧
      ∃ (c : Got) (l' : Lex), Lex.hexLoop n l.getSave.1 l.getSave.2 = (false, c, l') ∧
        l'.Within text) := by
  induction n generalizing l saved p rest with
  | zero => exact .inl ⟨rfl, rfl, l, rfl, by simpa using h⟩
  | succ n ih =>
    have hnext := h.getSave
    generalize l.getSave = r at hnext
    cases hnext with
    | @byte b tail k' l passes next back =>
      simp only [Lex.hexLoop]
      by_cases hb : isXdigit b = true
      · rw [passes.of_low (isXdigit_low hb)] at next
        rw [if_pos hb]
        simpa [hb, and_assoc] using ih next (by simp)
      · rw [if_neg hb]
        refine .inr ⟨by simp [hb], _, _, rfl, _, _, _, by simp, next.toAt⟩
    | eof here => exact .inr ⟨by simp, _, _, rfl, _, _, _, hsaved, here⟩
    | error here undecodable =>
      obtain ⟨b, tail, rfl, hb⟩ := undecodable.high
      have hnot : ¬isXdigit b = true := not_of_high (fun _ => isXdigit_low) hb
      exact .inr ⟨by simp [hnot], _, _, rfl, _, _, _, hsaved, here⟩

theorem isEscape_low (hb : isEscape b = true) : b.toNat < 0x80 := by
  simp only [isEscape, Bool.or_eq_true, decide_eq_true_eq] at hb
  rcases hb with ((((((rfl | rfl) | rfl) | rfl) | rfl) | rfl) | rfl) | rfl <;> decide

/-- An escape, after the backslash. -/
theorem Lex.Inside.escape (h : l.Inside text saved p rest 0) (hsaved : saved ≠ []) :
    (∃ n, escapeLength rest = some n ∧ ∃ l' : Lex, l.escape = (true, l'.getSave) ∧
      l'.Inside text (saved ++ rest.take n) (p ++ rest.take n) (rest.drop n) 0) ∨
    (escapeLength rest = none ∧
      ∃ (c : Got) (l' : Lex), l.escape = (false, c, l') ∧ l'.Within text) := by
  unfold Lex.escape
  have hnext := h.getSave
  generalize l.getSave = r at hnext
  cases hnext with
  | @byte b tail k' l passes next back =>
    dsimp only [escapeLength]
    by_cases hu : b = 117
    · rw [if_pos hu, if_pos hu]
      subst hu
      rw [passes.of_low (by decide)] at next
      rcases next.hexLoop (by simp) 4 with
        ⟨hlength, hall, l', hloop, hinside⟩ | ⟨hnot, c, l', hloop, hwithin⟩
      · refine .inl ⟨5, if_pos ⟨hlength, hall⟩, l', hloop, ?_⟩
        simpa using hinside
      · exact .inr ⟨if_neg hnot, c, l', hloop, hwithin⟩
    · rw [if_neg hu, if_neg hu]
      by_cases hescape : isEscape b = true
      · rw [passes.of_low (isEscape_low hescape)] at next
        rw [if_pos hescape, if_pos hescape]
        exact .inl ⟨1, rfl, l, rfl, next⟩
      · rw [if_neg hescape, if_neg hescape]
        exact .inr ⟨rfl, _, _, rfl, _, _, _, by simp, next.toAt⟩
  | eof here => exact .inr ⟨rfl, _, _, rfl, _, _, _, hsaved, here⟩
  | error here undecodable =>
    obtain ⟨b, tail, rfl, hb⟩ := undecodable.high
    have hescape : ¬isEscape b = true := not_of_high (fun _ => isEscape_low) hb
    refine .inr ⟨?_, _, _, rfl, _, _, _, hsaved, here⟩
    rw [escapeLength, if_neg (ne_of_high hb (by decide)), if_neg hescape]

/-- How the first loop of `lex_scan_string` ends, compared with the scanner. -/
inductive Lex.Ended (text saved p : Bytes) : Option (Bytes × Bytes) → Bool × Lex → Prop
  | quote {raw rest : Bytes} {l : Lex}
      (here : l.At text (saved ++ raw ++ [34]) (p ++ raw ++ [34]) rest) :
      Lex.Ended text saved p (some (raw, rest)) (true, l)
  | failed {l : Lex} (tells : l.Tells text) : Lex.Ended text saved p none (false, l)

theorem Lex.Ended.prepend {u : Bytes} {o : Option (Bytes × Bytes)} {r : Bool × Lex}
    (h : Lex.Ended text (saved ++ u) (p ++ u) o r) :
    Lex.Ended text saved p (o.map fun r => (u ++ r.1, r.2)) r := by
  cases h with
  | quote here => exact .quote (by simpa using here)
  | failed tells => exact .failed tells

theorem lexString_nil (k : ℕ) : lexString k [] = none := by
  cases k <;> rfl

/-- A byte that ends no string and starts no escape belongs to the string. -/
theorem Passes.lexString (h : Passes b tail k k') (hquote : b ≠ 34) (hcontrol : ¬b.toNat < 32)
    (hescape : b ≠ 92) : lexString k (b :: tail) = keep b (lexString k' tail) := by
  cases h with
  | inside => rfl
  | ascii hlow =>
    rw [Json.lexString, if_neg hquote, if_neg hcontrol, if_neg hescape,
      utf8CheckFirst_eq_one_iff.mpr hlow]
  | first hfirst hfull =>
    rw [Json.lexString, if_neg hquote, if_neg hcontrol, if_neg hescape, hfirst]
    exact if_neg hfull

theorem Passes.start (h : Passes b tail k k') (hb : b.toNat < 0x80) : k = 0 ∧ k' = 0 := by
  cases h with
  | inside hhigh => omega
  | ascii => exact ⟨rfl, rfl⟩
  | first hfirst hfull => exact ⟨rfl, (Passes.first hfirst hfull).of_low hb⟩

theorem escapeLength_le (h : escapeLength rest = some n) : n ≤ rest.length := by
  cases rest with
  | nil => cases h
  | cons b tail =>
    rw [escapeLength] at h
    rw [List.length_cons]
    split_ifs at h with hu hhex
    · cases h
      have hlength := hhex.1
      rw [List.length_take] at hlength
      omega
    · cases h
      omega

/-- The first loop of `lex_scan_string`. -/
theorem Lex.Inside.stringLoop {bound : ℕ} (h : l.Inside text saved p rest k) (hsaved : saved ≠ [])
    (hbound : rest.length < bound) :
    Lex.Ended text saved p (lexString k rest) (Lex.stringLoop bound l.getSave.1 l.getSave.2) := by
  induction bound generalizing l saved p rest k with
  | zero => omega
  | succ bound ih =>
    have hnext := h.getSave
    generalize l.getSave = r at hnext
    cases hnext with
    | @byte b tail k' l passes next back =>
      have hwithin {c : Complaint} : ((l.ungetUnsave (.byte b)).errorSet c).Tells text :=
        (Lex.Within.tells ⟨_, _, _, hsaved, back⟩).errorSet c
      simp only [Lex.stringLoop]
      by_cases hquote : b = 34
      · subst hquote
        obtain ⟨rfl, rfl⟩ := passes.start (by decide)
        rw [if_pos rfl]
        exact .quote (by simpa using next.toAt)
      rw [if_neg hquote]
      by_cases hcontrol : b.toNat < 32
      · obtain ⟨rfl, rfl⟩ := passes.start (by omega)
        rw [if_pos hcontrol, lexString, if_neg hquote, if_pos hcontrol]
        exact .failed hwithin
      rw [if_neg hcontrol]
      by_cases hescape : b = 92
      · subst hescape
        obtain ⟨rfl, rfl⟩ := passes.start (by decide)
        rw [if_pos rfl, lexString, if_neg hquote, if_neg hcontrol, if_pos rfl]
        rcases next.escape (by simp) with ⟨n, hn, l', hl', hinside⟩ | ⟨hn, c, l', hl', hwithin⟩
        · rw [hn, hl']
          have hlength : (tail.drop n).length < bound := by
            rw [List.length_drop]
            rw [List.length_cons] at hbound
            omega
          have hmore := (ih hinside (by simp) hlength).prepend.prepend
          have hn' : n ≤ tail.length := escapeLength_le hn
          have hskip := lexString_skip (tail.take n) (tail.drop n)
          rw [List.length_take, Nat.min_eq_left hn', List.take_append_drop] at hskip
          dsimp only
          rw [hskip]
          exact hmore
        · rw [hn, hl']
          exact .failed (hwithin.tells.errorSet _)
      · rw [if_neg hescape, passes.lexString hquote hcontrol hescape]
        exact (ih next (by simp) (by simpa using hbound)).prepend
    | eof here =>
      rw [lexString_nil]
      exact .failed ((Lex.Within.tells ⟨_, _, _, hsaved, here⟩).errorSet _)
    | error here undecodable start =>
      rw [start, lexString_undecodable undecodable]
      exact .failed (Lex.Within.tells ⟨_, _, _, hsaved, here⟩)

end Strings

section Decoding
variable {text saved p rest raw : Bytes} {l : Lex} {n : ℕ}

/-- The raw text of a string, as it is written between the quotes. -/
inductive Spelled : Bytes → Prop
  | nil : Spelled []
  | plain {b : UInt8} {raw : Bytes} (hquote : b ≠ 34) (hescape : b ≠ 92) (h : Spelled raw) :
      Spelled (b :: raw)
  | escape {c : UInt8} {raw : Bytes} (hc : c ≠ 117) (h : Spelled raw) : Spelled (92 :: c :: raw)
  | unicode {digits raw : Bytes} (hlength : digits.length = 4) (hhex : digits.all isXdigit = true)
      (h : Spelled raw) : Spelled (92 :: 117 :: (digits ++ raw))

theorem spelled_of_high {u : Bytes} (hu : ∀ b ∈ u, 0x80 ≤ b.toNat) (h : Spelled raw) :
    Spelled (u ++ raw) := by
  induction u with
  | nil => exact h
  | cons b u ih =>
    have hb := hu b List.mem_cons_self
    exact .plain (ne_of_high hb (by decide)) (ne_of_high hb (by decide))
      (ih fun c hc => hu c (List.mem_cons_of_mem b hc))

/-- What the first loop of `lex_scan_string` reads. -/
theorem lexString_spelled (n : ℕ) (hn : rest.length ≤ n) {rest' : Bytes}
    (h : lexString 0 rest = some (raw, rest')) : Spelled raw := by
  induction n generalizing rest raw with
  | zero =>
    rw [List.eq_nil_of_length_eq_zero (Nat.le_zero.mp hn)] at h
    cases h
  | succ n ih =>
    cases rest with
    | nil => cases h
    | cons b bs =>
      rw [List.length_cons] at hn
      rw [lexString] at h
      by_cases hquote : b = 34
      · rw [if_pos hquote] at h
        cases h
        exact .nil
      rw [if_neg hquote] at h
      by_cases hcontrol : b.toNat < 32
      · rw [if_pos hcontrol] at h
        cases h
      rw [if_neg hcontrol] at h
      by_cases hescape : b = 92
      · rw [if_pos hescape] at h
        cases hlen : escapeLength bs with
        | none =>
          rw [hlen] at h
          cases h
        | some k =>
          rw [hlen] at h
          obtain ⟨raw', hr, rfl⟩ := keep_eq_some.mp h
          obtain ⟨hk, raw'', rfl, hrest⟩ := lexString_split hr
          have hspelled := ih (by rw [List.length_drop]; omega) hrest
          subst hescape
          cases bs with
          | nil => cases hlen
          | cons c bs =>
            rw [escapeLength] at hlen
            split_ifs at hlen with hu hhex hc
            · cases hlen
              subst hu
              exact .unicode hhex.1 hhex.2 hspelled
            · cases hlen
              exact .escape hu hspelled
      rw [if_neg hescape] at h
      rcases hfirst : utf8CheckFirst b with _ | _ | count
      · rw [hfirst] at h
        cases h
      · rw [hfirst] at h
        obtain ⟨raw', hr, rfl⟩ := keep_eq_some.mp h
        exact .plain hquote hescape (ih (by omega) hr)
      · rw [hfirst] at h
        dsimp only at h
        split_ifs at h with hbad
        rw [not_or, List.take_succ_cons, Bool.not_eq_false] at hbad
        obtain ⟨raw', hr, rfl⟩ := keep_eq_some.mp h
        obtain ⟨hk, raw'', rfl, hrest⟩ := lexString_split hr
        refine .plain hquote hescape (spelled_of_high ?_ (ih ?_ hrest))
        · exact fun c hc => Sequence.high hfirst hbad.2 c (List.mem_cons_of_mem b hc)
        · rw [List.length_drop]
          omega

/-- The scanner and the decoder give the same text, or none. -/
inductive Agrees : Option Bytes → Except Complaint Bytes → Prop
  | ok (v : Bytes) : Agrees (some v) (.ok v)
  | error (c : Complaint) : Agrees none (.error c)

theorem Agrees.map {o : Option Bytes} {e : Except Complaint Bytes} (h : Agrees o e)
    (f : Bytes → Bytes) : Agrees (o.map f) (e.map f) := by
  cases h with
  | ok v => exact .ok (f v)
  | error c => exact .error c

/-- One digit of `decode_unicode_escape`. -/
theorem unicodeEscape_digit {c : UInt8} (hc : isXdigit c = true) (value : ℕ) :
    (if isDigit c then some (16 * value + (c.toNat - 48))
      else if 97 ≤ c.toNat ∧ c.toNat ≤ 122 then some (16 * value + (c.toNat - 97 + 10))
      else if 65 ≤ c.toNat ∧ c.toNat ≤ 90 then some (16 * value + (c.toNat - 65 + 10))
      else none) = some (16 * value + (Percent.hexValue c).getD 0) := by
  simp only [isXdigit, Percent.hexValue, UInt8.le_iff_toNat_le] at hc
  simp only [isDigit, Percent.hexValue, UInt8.le_iff_toNat_le, Bool.and_eq_true, decide_eq_true_eq]
  simp only [UInt8.reduceToNat] at hc ⊢
  split_ifs at hc ⊢ <;> simp at hc ⊢ <;> omega

theorem unicodeEscapeValue_of_hex {digits : Bytes} (hlength : digits.length = 4)
    (hhex : digits.all isXdigit = true) (tail : Bytes) :
    unicodeEscapeValue (digits ++ tail) = some (decodeUnicodeEscape (digits ++ tail)) := by
  match digits, hlength with
  | [a, b, c, d], _ =>
    simp only [List.all_cons, List.all_nil, Bool.and_true, Bool.and_eq_true] at hhex
    obtain ⟨ha, hb, hc, hd⟩ := hhex
    have hrange : List.range 4 = [0, 1, 2, 3] := rfl
    simp only [unicodeEscapeValue, hrange, List.foldlM_cons, List.foldlM_nil, List.cons_append,
      List.nil_append, List.getD_cons_zero, List.getD_cons_succ, unicodeEscape_digit ha,
      unicodeEscape_digit hb, unicodeEscape_digit hc, unicodeEscape_digit hd, Option.bind_eq_bind,
      Option.bind_some, decodeUnicodeEscape, List.take_succ_cons, List.take_zero, List.foldl_cons,
      List.foldl_nil]
    rfl

theorem decodeUnicodeEscape_append {digits : Bytes} (hlength : digits.length = 4) (u v : Bytes) :
    decodeUnicodeEscape (digits ++ u) = decodeUnicodeEscape (digits ++ v) := by
  unfold decodeUnicodeEscape
  rw [← hlength, List.take_left, List.take_left]

/-- What starts like a Unicode escape is one. -/
theorem Spelled.unicode_inv (h : Spelled raw) (hraw : raw.take 2 = [92, 117]) :
    ∃ digits raw', raw = 92 :: 117 :: (digits ++ raw') ∧ digits.length = 4 ∧
      digits.all isXdigit = true ∧ Spelled raw' := by
  cases h with
  | nil => cases hraw
  | plain hquote hescape => exact absurd (List.cons.inj hraw).1 hescape
  | escape hc => exact absurd (List.cons.inj (List.cons.inj hraw).2).1 hc
  | unicode hlength hhex h => exact ⟨_, _, rfl, hlength, hhex, h⟩

section Pairs
variable {digits digits' : Bytes} (hlength : digits.length = 4) (hlength' : digits'.length = 4)
include hlength

theorem drop_escape (raw : Bytes) : (digits ++ raw).drop 4 = raw := by
  rw [← hlength, List.drop_left]

theorem drop_escape_six (raw : Bytes) : (digits ++ 92 :: 117 :: raw).drop 6 = raw := by
  rw [show (6 : ℕ) = 4 + 2 from rfl, ← List.drop_drop, drop_escape hlength]
  rfl

theorem decodeString_skip_escape (raw : Bytes) :
    decodeString 5 (117 :: (digits ++ raw)) = decodeString 0 raw := by
  have hall := decodeString_skip (117 :: digits) raw
  rwa [List.length_cons, hlength] at hall

include hlength'

theorem decodeString_skip_pair (raw : Bytes) :
    decodeString 11 (117 :: (digits ++ 92 :: 117 :: (digits' ++ raw))) = decodeString 0 raw := by
  have hall := decodeString_skip (117 :: digits ++ 92 :: 117 :: digits') raw
  simpa [hlength, hlength'] using hall

end Pairs

theorem take_two_quote (raw : Bytes) :
    (raw ++ [34]).take 2 = [92, 117] ↔ raw.take 2 = [92, 117] := by
  match raw with
  | [] => decide
  | [b] => simp
  | b :: c :: raw => simp

/-- The second loop of `lex_scan_string` on the raw text and the quote. -/
theorem decodeLoop_agrees {bound : ℕ} (h : Spelled raw) (hbound : raw.length < bound) :
    Agrees (decodeString 0 raw) (decodeLoop bound (raw ++ [34])) := by
  induction bound generalizing raw with
  | zero => omega
  | succ bound ih =>
    cases h with
    | nil => exact .ok []
    | @plain b raw hquote hescape h =>
      rw [List.length_cons] at hbound
      rw [List.cons_append, decodeLoop.eq_def]
      dsimp only
      rw [if_neg hquote, if_neg hescape, decodeString.eq_def]
      dsimp only
      rw [if_neg hescape]
      exact (ih h (by omega)).map _
    | @escape c raw hc h =>
      rw [List.length_cons, List.length_cons] at hbound
      rw [List.cons_append, List.cons_append, decodeLoop, decodeString_escape hc]
      dsimp only
      rw [if_neg (by decide), if_pos rfl, if_neg hc]
      exact (ih h (by omega)).map _
    | @unicode digits raw hlength hhex h =>
      rw [List.length_cons, List.length_cons, List.length_append, hlength] at hbound
      have hvalue := decodeUnicodeEscape_append hlength raw (raw ++ [34])
      rw [List.cons_append, List.cons_append, List.append_assoc, decodeLoop]
      dsimp only
      rw [if_neg (by decide), if_pos rfl, if_pos rfl, unicodeEscapeValue_of_hex hlength hhex,
        decodeString, if_pos rfl]
      dsimp only
      rw [if_pos rfl, drop_escape hlength, drop_escape hlength, ← hvalue,
        decodeString_skip_escape hlength]
      by_cases hhigh : 0xD800 ≤ decodeUnicodeEscape (digits ++ raw) ∧
          decodeUnicodeEscape (digits ++ raw) ≤ 0xDBFF
      · rw [if_pos hhigh, if_pos hhigh]
        by_cases hpair : raw.take 2 = [92, 117]
        · rw [if_pos ((take_two_quote raw).mpr hpair)]
          obtain ⟨digits', raw', rfl, hlength', hhex', hraw'⟩ := h.unicode_inv hpair
          have hvalue' := decodeUnicodeEscape_append hlength' raw' (raw' ++ [34])
          rw [List.cons_append, List.cons_append, List.append_assoc, List.drop_succ_cons,
            List.drop_succ_cons, List.drop_zero, unicodeEscapeValue_of_hex hlength' hhex',
            drop_escape_six hlength, List.drop_succ_cons, List.drop_succ_cons,
            drop_escape hlength', decodeString_skip_pair hlength hlength', ← hvalue']
          dsimp only
          by_cases hlow : 0xDC00 ≤ decodeUnicodeEscape (digits' ++ raw') ∧
              decodeUnicodeEscape (digits' ++ raw') ≤ 0xDFFF
          · rw [if_pos hlow, if_pos ⟨hpair, hlow⟩]
            simp only [List.length_cons, List.length_append, hlength'] at hbound
            exact (ih hraw' (by omega)).map _
          · rw [if_neg hlow, if_neg fun hand => hlow hand.2]
            exact .error _
        · rw [if_neg (mt (take_two_quote raw).mp hpair), if_neg (fun hand => hpair hand.1)]
          exact .error _
      · rw [if_neg hhigh, if_neg hhigh]
        by_cases hlow : 0xDC00 ≤ decodeUnicodeEscape (digits ++ raw) ∧
            decodeUnicodeEscape (digits ++ raw) ≤ 0xDFFF
        · rw [if_pos hlow, if_pos hlow]
          exact .error _
        · rw [if_neg hlow, if_neg hlow]
          exact (ih h (by omega)).map _

end Decoding

end RipExt.Json
