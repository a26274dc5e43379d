import RipExt.Json.Parser
import RipExt.Json.Utf8

/-! What the stream has read: the bytes that it has passed, the place that it has counted, and the
bytes that are left. One character at a time and one byte back, it reads its source. -/
namespace RipExt.Json

section Places

structure Place where
  line : ℕ
  column : ℕ
  position : ℕ
  deriving DecidableEq, Repr

def startsCharacter (b : UInt8) : Bool := utf8CheckFirst b ≠ 0

def lineAfter (p : Bytes) : ℕ := 1 + p.count 10

/-- The number of characters that start in the last line. -/
def columnAfter (p : Bytes) : ℕ := (p.reverse.takeWhile (· ≠ 10)).countP startsCharacter

/-- The place after some bytes. -/
def placeAfter (p : Bytes) : Place := ⟨lineAfter p, columnAfter p, p.length⟩

def Place.next (q : Place) (b : UInt8) : Place :=
  if b = 10 then ⟨q.line + 1, 0, q.position + 1⟩
  else ⟨q.line, if startsCharacter b then q.column + 1 else q.column, q.position + 1⟩

theorem placeAfter_concat (p : Bytes) (b : UInt8) :
    placeAfter (p ++ [b]) = (placeAfter p).next b := by
  unfold placeAfter Place.next lineAfter columnAfter
  by_cases hb : b = 10
  · simp [hb, List.count_append]
    omega
  · rw [if_neg hb]
    cases hfirst : startsCharacter b <;> simp [hb, hfirst, List.count_append]

def Stream.place (s : Stream) : Place := ⟨s.line, s.column, s.position⟩

end Places

section Dropping
variable {a b c p : Bytes}

/-- The second text is the first one without some of its zero bytes. -/
def Drops (a b : Bytes) : Prop := b.Sublist a ∧ b.filter (· ≠ 0) = a.filter (· ≠ 0)

theorem Drops.refl (a : Bytes) : Drops a a := ⟨List.Sublist.refl a, rfl⟩

theorem Drops.trans (h : Drops a b) (h' : Drops b c) : Drops a c :=
  ⟨h'.1.trans h.1, h'.2.trans h.2⟩

theorem drops_zero (p tail : Bytes) : Drops (p ++ 0 :: tail) (p ++ tail) :=
  ⟨(List.Sublist.refl p).append (List.sublist_cons_self 0 tail), by simp [List.filter_append]⟩

theorem Drops.length_le (h : Drops a b) : b.length ≤ a.length := h.1.length_le

/-- A text without zeros loses nothing. -/
theorem Drops.eq (h : Drops a b) (ha : 0 ∉ a) : b = a := by
  have hall : a.filter (· ≠ 0) = a := by
    rw [List.filter_eq_self]
    intro x hx
    simpa using ne_of_mem_of_not_mem hx ha
  have hlength : a.length ≤ b.length := by
    rw [← hall, ← h.2]
    exact List.length_filter_le _ b
  exact h.1.eq_of_length_le hlength

end Dropping

section Decoding
variable {c : UInt8} {tail buffer source : Bytes}

/-- The text does not start with a character. -/
def Undecodable (rest : Bytes) : Prop :=
  ∃ c tail, rest = c :: tail ∧ (fillBuffer c tail).1 = false

theorem Undecodable.high {rest : Bytes} (h : Undecodable rest) :
    ∃ c tail, rest = c :: tail ∧ 0x80 ≤ c.toNat := by
  obtain ⟨c, tail, rfl, hfill⟩ := h
  refine ⟨c, tail, rfl, ?_⟩
  by_contra hlow
  rw [fillBuffer, if_pos (Nat.lt_of_not_le hlow)] at hfill
  cases hfill

theorem not_of_high {q : UInt8 → Bool} (hq : ∀ b, q b = true → b.toNat < 0x80)
    (hc : 0x80 ≤ c.toNat) : ¬q c = true := by
  intro hqc
  have hlow := hq c hqc
  omega

theorem ne_of_high {d : UInt8} (hc : 0x80 ≤ c.toNat) (hd : d.toNat < 0x80) : c ≠ d := by
  rintro rfl
  omega

theorem utf8CheckFirst_le (c : UInt8) : utf8CheckFirst c ≤ 4 := by
  unfold utf8CheckFirst
  dsimp only
  split_ifs <;> simp

theorem utf8Continue_replicate {value n : ℕ} {bs : Bytes} (hn : 0 < n) :
    utf8Continue value (bs ++ List.replicate n 0xFF) = none := by
  induction bs generalizing value with
  | nil =>
    obtain ⟨n, rfl⟩ := Nat.exists_eq_succ_of_ne_zero hn.ne'
    rfl
  | cons b bs ih =>
    rw [List.cons_append, utf8Continue]
    split_ifs
    · rfl
    · exact ih

/-- A sequence that the source does not hold to its end is no character. -/
theorem utf8CheckFull_short {count : ℕ} (hcount : tail.length + 1 < count) (hle : count ≤ 4) :
    utf8CheckFull (c :: (tail ++ List.replicate 3 0xFF).take (count - 1)) count = false := by
  have htake : (tail ++ List.replicate 3 0xFF).take (count - 1) =
      tail ++ List.replicate (count - 1 - tail.length) 0xFF := by
    rw [List.take_append, List.take_of_length_le (by omega), List.take_replicate]
    congr 2
    omega
  rw [htake, utf8CheckFull]
  have hnone (start : ℕ) :
      utf8Continue start (tail ++ List.replicate (count - 1 - tail.length) 0xFF) = none :=
    utf8Continue_replicate (by omega)
  have hbind (start : Option ℕ) : (start.bind fun start =>
      utf8Continue start (tail ++ List.replicate (count - 1 - tail.length) 0xFF)) = none := by
    cases start with
    | none => rfl
    | some start => exact hnone start
  rw [hbind]

/-- A character that fits is in the buffer as a whole. -/
theorem fillBuffer_true (h : fillBuffer c tail = (true, buffer, source)) :
    Sequence buffer ∧ buffer.head? = some c ∧ c :: tail = buffer ++ source := by
  unfold fillBuffer at h
  by_cases hlow : c.toNat < 0x80
  · rw [if_pos hlow] at h
    cases h
    exact ⟨.ascii c hlow, rfl, rfl⟩
  rw [if_neg hlow] at h
  rcases hfirst : utf8CheckFirst c with _ | _ | count
  · simp [hfirst] at h
  · exact absurd (utf8CheckFirst_eq_one_iff.mp hfirst) hlow
  · dsimp only at h
    rw [hfirst, if_neg (Nat.succ_ne_zero _)] at h
    obtain ⟨hfull, hrest⟩ := Prod.mk.inj h
    obtain ⟨hbuffer, hsource⟩ := Prod.mk.inj hrest
    have hfit : count + 1 ≤ tail.length := by
      by_contra hshort
      have hle := utf8CheckFirst_le c
      rw [utf8CheckFull_short (by omega) (by omega)] at hfull
      cases hfull
    rw [Nat.add_sub_assoc (by omega), List.take_append_of_le_length hfit] at hfull hbuffer
    subst hbuffer hsource
    refine ⟨.full c _ count hfirst ?_ hfull, rfl, ?_⟩
    · rw [List.length_take]
      omega
    · rw [List.cons_append, Nat.add_sub_assoc (by omega), List.take_append_drop]

end Decoding

section Reports

theorem Complaint.text_ne_nil (c : Complaint) : c.text ≠ [] := by
  cases c <;> simp [Complaint.text, chars]

theorem snprintf_ne_nil {n : ℕ} {text : Bytes} (h : text ≠ []) : snprintf (n + 2) text ≠ [] := by
  obtain ⟨b, bs, rfl⟩ := List.exists_cons_of_ne_nil h
  exact List.cons_ne_nil _ _

theorem Complaint.describe_ne_nil (c : Complaint) (near : Bytes) (state : StreamState) :
    c.describe near state ≠ [] := by
  have hmessage : snprintf 160 c.text ≠ [] := snprintf_ne_nil c.text_ne_nil
  unfold Complaint.describe
  dsimp only
  split_ifs
  · exact snprintf_ne_nil (by simp [hmessage])
  · exact hmessage
  · exact hmessage
  · exact snprintf_ne_nil (by simp [hmessage])

/-- The report of a complaint after the bytes `p`, about the token `near`. -/
def Complaint.reportAt (c : Complaint) (p near : Bytes) (state : StreamState) : Report :=
  ⟨lineAfter p, columnAfter p, p.length, c.codeAt near, snprintf 159 (c.describe near state)⟩

/-- A report has the place that the decoder has come to in a text, and the message that `error_set`
makes of the token it has read there. It has read none only at the end, or before bytes that are no
character. -/
def Blamed (text : Bytes) (r : Report) : Prop :=
  ∃ c p rest near state, Drops text (p ++ rest) ∧ near <:+ p ∧
    r = Complaint.reportAt c p near state ∧ (state = .error → Undecodable rest) ∧
    (near = [] → state ≠ .error → rest = [])

theorem Blamed.text_ne_nil {text : Bytes} {r : Report} (h : Blamed text r) : r.text ≠ [] := by
  obtain ⟨c, p, rest, near, state, -, -, rfl, -⟩ := h
  exact snprintf_ne_nil (c.describe_ne_nil near state)

end Reports

section Standing

/-- What of the current character was not passed. -/
def Stream.pending (s : Stream) : Bytes :=
  if s.buffer.getD s.bufferPos 0 = 0 then [] else s.buffer.drop s.bufferPos

/-- The bytes that are left of the source. -/
inductive Stream.Reads (s : Stream) (rest : Bytes) : Prop
  | ok (hstate : s.state = .ok) (hbuffer : s.buffer = [] ∨ Sequence s.buffer)
      (hrest : rest = s.pending ++ s.source)
  | eof (hstate : s.state = .eof) (hrest : rest = [])
  | error (hstate : s.state = .error) (hrest : Undecodable rest)

/-- The lexer has read the bytes `p` of a text, apart from some zeros, and `rest` is left. -/
structure Lex.Stands (text p rest : Bytes) (l : Lex) : Prop where
  reads : l.stream.Reads rest
  place : l.stream.place = placeAfter p
  drops : Drops text (p ++ rest)
  clean : l.stream.state ≠ .error → l.error = {}
  blamed : l.stream.state = .error → Blamed text l.error

/-- The same with the text of the token so far. -/
structure Lex.At (text saved p rest : Bytes) (l : Lex) : Prop extends Lex.Stands text p rest l where
  token : l.savedText = saved
  suffix : saved <:+ p

/-- The bytes of a character after its first one. -/
def Continued (bs : Bytes) : Prop := ∀ c ∈ bs, 0x80 ≤ c.toNat ∧ c.toNat ≤ 0xBF

/-- The stream has passed the byte `b`; the rest of its character is pending. -/
structure Stream.Passed (s : Stream) (b : UInt8) : Prop where
  state : s.state = .ok
  continued : Continued s.pending
  alone : b.toNat < 0x80 → s.pending = []

/-- What a call of `lex_get` returns where `rest` is left. -/
inductive Lex.Holding (text saved p : Bytes) : Bytes → Got × Lex → Prop
  | byte {b : UInt8} {tail : Bytes} {l : Lex} (next : l.Stands text (p ++ [b]) tail)
      (token : l.savedText = saved) (suffix : saved <:+ p)
      (back : (l.unget (.byte b)).At text saved p (Json.unget (b :: tail)))
      (passed : l.stream.Passed b) : Lex.Holding text saved p (b :: tail) (.byte b, l)
  | eof {l : Lex} (here : l.At text saved p []) : Lex.Holding text saved p [] (.eof, l)
  | error {rest : Bytes} {l : Lex} (here : l.At text saved p rest)
      (state : l.stream.state = .error) : Lex.Holding text saved p rest (.error, l)

variable {text saved p rest : Bytes} {l : Lex}

/-- While the stream is fine, what is left is what is pending and what the source holds. -/
theorem Stream.Reads.fine {s : Stream} (h : s.Reads rest) (hstate : s.state = .ok) :
    (s.buffer = [] ∨ Sequence s.buffer) ∧ rest = s.pending ++ s.source := by
  cases h with
  | ok _ hbuffer hrest => exact ⟨hbuffer, hrest⟩
  | eof heof => rw [hstate] at heof; cases heof
  | error herror => rw [hstate] at herror; cases herror

theorem Lex.Stands.undecodable (h : l.Stands text p rest) (hstate : l.stream.state = .error) :
    Undecodable rest := by
  cases h.reads with
  | ok hok => rw [hok] at hstate; cases hstate
  | eof heof => rw [heof] at hstate; cases hstate
  | error _ hrest => exact hrest

theorem utf8Continue_continued {value result : ℕ} {bs : Bytes}
    (h : utf8Continue value bs = some result) : Continued bs := by
  induction bs generalizing value with
  | nil => simp [Continued]
  | cons b bs ih =>
    rw [utf8Continue] at h
    split_ifs at h with hbad
    intro c hc
    rcases List.mem_cons.mp hc with rfl | hc
    · omega
    · exact ih h c hc

theorem Sequence.continued {b : UInt8} {bs : Bytes} (h : Sequence (b :: bs)) : Continued bs := by
  cases h with
  | ascii => simp [Continued]
  | full _ _ count hfirst hlength hfull =>
    simp only [utf8CheckFull] at hfull
    split at hfull
    · cases hfull
    · next value hvalue =>
      obtain ⟨start, -, hcontinue⟩ := Option.bind_eq_some_iff.mp hvalue
      exact utf8Continue_continued hcontinue

/-- The byte under the position. -/
theorem getD_of_drop {bs more : Bytes} {n : ℕ} {b : UInt8} (h : bs.drop n = b :: more) :
    bs.getD n 0 = b := by
  rw [List.getD_eq_getElem?_getD, ← List.head?_drop, h]
  rfl

theorem drop_succ_of_drop {bs more : Bytes} {n : ℕ} {b : UInt8} (h : bs.drop n = b :: more) :
    bs.drop (n + 1) = more := by
  rw [← List.drop_drop, h]
  rfl

/-- A byte of ASCII is a character of its own. -/
theorem Sequence.alone {u more : Bytes} {b : UInt8} {n : ℕ} (hu : Sequence u)
    (h : u.drop n = b :: more) (hb : b.toNat < 0x80) : more = [] := by
  cases hu with
  | ascii b' hb' =>
    cases n with
    | zero => exact (List.cons.inj h).2.symm
    | succ n => simp at h
  | full b' bs count hfirst hlength hfull =>
    have hmem : b ∈ (b' :: bs).drop n := h ▸ List.mem_cons_self
    have hhigh := Sequence.high hfirst hfull b (List.mem_of_mem_drop hmem)
    omega

theorem pending_of_continued {s : Stream} {more : Bytes}
    (hdrop : s.buffer.drop s.bufferPos = more) (hmore : Continued more) : s.pending = more := by
  unfold Stream.pending
  cases more with
  | nil =>
    rw [hdrop]
    split_ifs <;> rfl
  | cons b more =>
    have hb := (hmore b List.mem_cons_self).1
    rw [getD_of_drop hdrop, if_neg (ne_of_high hb (by decide)), hdrop]

/-- The byte under the position is the first one that is pending. -/
theorem Stream.pending_cons {s : Stream} (h : s.buffer.getD s.bufferPos 0 ≠ 0) :
    ∃ b more, s.buffer.drop s.bufferPos = b :: more ∧ s.pending = b :: more := by
  have hpending : s.pending = s.buffer.drop s.bufferPos := if_neg h
  cases hdrop : s.buffer.drop s.bufferPos with
  | nil =>
    refine absurd ?_ h
    rw [List.getD_eq_getElem?_getD, ← List.head?_drop, hdrop]
    rfl
  | cons b more => exact ⟨b, more, rfl, hpending.trans hdrop⟩

/-- Passing a byte and giving it back. -/
theorem Lex.unget_pass {b : UInt8} (hb : l.stream.buffer.getD l.stream.bufferPos 0 = b) :
    ∃ lastColumn, Lex.unget (.byte b) { l with stream := l.stream.pass.2 } =
      { l with stream := { l.stream with lastColumn } } := by
  unfold Stream.pass
  rw [hb]
  dsimp only
  by_cases hline : b = 10
  · exact ⟨l.stream.column, by simp [Lex.unget, hline]⟩
  · rw [if_neg hline]
    by_cases hfirst : utf8CheckFirst b ≠ 0
    · exact ⟨l.stream.lastColumn, by simp [Lex.unget, hline, hfirst]⟩
    · exact ⟨l.stream.lastColumn, by simp [Lex.unget, hline, hfirst]⟩

theorem Stream.pass_place {s : Stream} {b : UInt8} (hb : s.buffer.getD s.bufferPos 0 = b) :
    s.pass.2.place = s.place.next b := by
  unfold Stream.pass Place.next Stream.place startsCharacter
  rw [hb]
  dsimp only
  by_cases hline : b = 10
  · simp [hline]
  · by_cases hfirst : utf8CheckFirst b ≠ 0 <;> simp [hline, hfirst]

theorem Stream.pass_frame (s : Stream) :
    s.pass.2.source = s.source ∧ s.pass.2.buffer = s.buffer ∧
      s.pass.2.bufferPos = s.bufferPos + 1 ∧ s.pass.2.state = s.state := by
  unfold Stream.pass
  dsimp only
  split_ifs <;> exact ⟨rfl, rfl, rfl, rfl⟩

/-- The next byte of a character is the one under the position, and the others are left. -/
theorem Stream.pass_spec {s : Stream} {b : UInt8} {more : Bytes} (hbuffer : Sequence s.buffer)
    (hdrop : s.buffer.drop s.bufferPos = b :: more) :
    s.pass.1 = b ∧ s.pass.2.pending = more ∧ Continued more := by
  obtain ⟨-, hbuffer', hpos, -⟩ := s.pass_frame
  have hmore : Continued more := by
    intro c hc
    obtain ⟨first, tail, hcons⟩ := List.exists_cons_of_ne_nil
      (l := s.buffer) (fun hnil => by rw [hnil, List.drop_nil] at hdrop; cases hdrop)
    rw [hcons] at hbuffer hdrop
    refine hbuffer.continued c ?_
    have htail := drop_succ_of_drop hdrop
    rw [List.drop_succ_cons] at htail
    exact List.mem_of_mem_drop (htail ▸ hc)
  refine ⟨?_, pending_of_continued (by rw [hbuffer', hpos, drop_succ_of_drop hdrop]) hmore, hmore⟩
  unfold Stream.pass
  rw [getD_of_drop hdrop]
  dsimp only
  split_ifs <;> rfl

theorem Lex.pass_holding {b : UInt8} {more : Bytes} (hstate : l.stream.state = .ok)
    (hbuffer : Sequence l.stream.buffer)
    (hdrop : l.stream.buffer.drop l.stream.bufferPos = b :: more)
    (hplace : l.stream.place = placeAfter p)
    (hdrops : Drops text (p ++ b :: (more ++ l.stream.source)))
    (hclean : l.error = {}) (htoken : l.savedText = saved) (hsuffix : saved <:+ p) :
    Lex.Holding text saved p (b :: (more ++ l.stream.source)) l.pass := by
  obtain ⟨hsource, hbuffer', -, hstate'⟩ := l.stream.pass_frame
  have hb := getD_of_drop hdrop
  obtain ⟨hfst, hpending, hmore⟩ := Stream.pass_spec hbuffer hdrop
  have hpass : l.pass = (.byte b, { l with stream := l.stream.pass.2 }) := by
    rw [Lex.pass, hfst]
  rw [hpass]
  obtain ⟨lastColumn, hunget⟩ := Lex.unget_pass hb
  refine .byte ⟨?_, ?_, ?_, fun _ => hclean, fun herror => ?_⟩ htoken hsuffix ?_ ?_
  · refine .ok (hstate'.trans hstate) (.inr (hbuffer' ▸ hbuffer)) ?_
    rw [hpending, hsource]
  · rw [Stream.pass_place hb, hplace, placeAfter_concat]
  · rw [List.append_assoc]
    exact hdrops
  · rw [hstate', hstate] at herror
    cases herror
  · rw [hunget]
    have hback : Json.unget (b :: (more ++ l.stream.source)) =
        l.stream.pending ++ l.stream.source := by
      unfold Stream.pending
      rw [hb, Json.unget]
      by_cases hzero : b = 0
      · have hlast : more = [] := hbuffer.alone hdrop (by rw [hzero]; decide)
        rw [if_pos hzero, if_pos hzero, hlast]
      · rw [if_neg hzero, if_neg hzero, hdrop, List.cons_append]
    refine ⟨⟨.ok hstate (.inr hbuffer) hback, hplace, ?_, fun _ => hclean, fun herror => ?_⟩,
      htoken, hsuffix⟩
    · rw [Json.unget]
      split_ifs with hzero
      · subst hzero
        exact hdrops.trans (drops_zero _ _)
      · exact hdrops
    · rw [hstate] at herror
      cases herror
  · refine ⟨hstate'.trans hstate, ?_, fun hlow => ?_⟩
    · rw [hpending]
      exact hmore
    · exact hpending.trans (hbuffer.alone hdrop hlow)

/-- A complaint that is not the first one is lost. -/
theorem Lex.errorSet_of_error {c : Complaint} (h : l.error.text ≠ []) : l.errorSet c = l := by
  unfold Lex.errorSet Report.set
  rw [if_pos h]

theorem Lex.errorSet_of_clean {c : Complaint} (h : l.error = {})
    (hplace : l.stream.place = placeAfter p) (htoken : l.savedText = saved) :
    (l.errorSet c).error = c.reportAt p saved l.stream.state := by
  unfold Lex.errorSet Report.set Complaint.reportAt
  have hline : l.stream.line = lineAfter p := congrArg Place.line hplace
  have hcolumn : l.stream.column = columnAfter p := congrArg Place.column hplace
  have hposition : l.stream.position = p.length := congrArg Place.position hplace
  rw [h, if_neg (by simp), hline, hcolumn, hposition, htoken]

/-- What `lex_get` does while the stream has seen neither its end nor an error: it passes a byte of
the current character, or else the first byte of the next one, if there is one. -/
inductive Lex.Fetches (l : Lex) : Got × Lex → Prop
  | eof (hpending : l.stream.pending = []) (hsource : l.stream.source = []) :
      Lex.Fetches l (.eof, { l with stream := { l.stream with source := [], state := .eof } })
  | error {c : UInt8} {tail buffer source : Bytes} (hpending : l.stream.pending = [])
      (hsource : l.stream.source = c :: tail) (hundecodable : Undecodable (c :: tail)) :
      Lex.Fetches l (.error, Lex.errorSet (.undecodable c)
        { l with stream := { l.stream with buffer, source, bufferPos := 0, state := .error } })
  | first {b : UInt8} {more source : Bytes} (hpending : l.stream.pending = [])
      (hsource : l.stream.source = b :: (more ++ source)) (hsequence : Sequence (b :: more)) :
      Lex.Fetches l
        (Lex.pass
          { l with stream := { l.stream with buffer := b :: more, source, bufferPos := 0 } })
  | inside {b : UInt8} {more : Bytes} (hpending : l.stream.pending = b :: more)
      (hdrop : l.stream.buffer.drop l.stream.bufferPos = b :: more)
      (hsequence : Sequence l.stream.buffer) : Lex.Fetches l l.pass

theorem Lex.get_fetches (hstate : l.stream.state = .ok)
    (hbuffer : l.stream.buffer = [] ∨ Sequence l.stream.buffer) : l.Fetches l.get := by
  unfold Lex.get
  rw [hstate]
  dsimp only
  by_cases hzero : l.stream.buffer.getD l.stream.bufferPos 0 = 0
  · rw [if_pos hzero]
    have hpending : l.stream.pending = [] := if_pos hzero
    cases hsource : l.stream.source with
    | nil => exact .eof hpending hsource
    | cons c tail =>
      dsimp only
      rcases hfill : fillBuffer c tail with ⟨_ | _, buffer, source⟩
      · exact .error hpending hsource ⟨c, tail, rfl, by rw [hfill]⟩
      · obtain ⟨hsequence, hhead, hsplit⟩ := fillBuffer_true hfill
        cases buffer with
        | nil => cases hhead
        | cons b more => exact .first hpending (hsource.trans hsplit) hsequence
  · rw [if_neg hzero]
    obtain ⟨b, more, hdrop, hpending⟩ := Stream.pending_cons hzero
    have hsequence : Sequence l.stream.buffer := by
      refine hbuffer.resolve_left fun hnil => ?_
      rw [hnil, List.drop_nil] at hdrop
      cases hdrop
    exact .inside hpending hdrop hsequence

/-- `lex_get` where a lexer stands. -/
theorem Lex.At.get (h : l.At text saved p rest) : Lex.Holding text saved p rest l.get := by
  cases h.reads with
  | eof hstate hrest =>
    rw [Lex.get, hstate]
    subst hrest
    exact .eof h
  | error hstate hrest =>
    rw [Lex.get, hstate]
    exact .error h hstate
  | ok hstate hbuffer hrest =>
    have hclean := h.clean (by simp [hstate])
    have hdrops := h.drops
    have hget := Lex.get_fetches hstate hbuffer
    generalize l.get = r at hget
    cases hget with
    | eof hpending hsource =>
      rw [hpending, hsource] at hrest
      subst hrest
      exact .eof ⟨⟨.eof rfl rfl, h.place, hdrops, fun _ => hclean, by simp⟩, h.token, h.suffix⟩
    | @error c tail buffer source hpending hsource hundecodable =>
      rw [hpending, hsource, List.nil_append] at hrest
      subst hrest
      have hreport := Lex.errorSet_of_clean (c := .undecodable c) (p := p)
        (l := { l with
          stream := { l.stream with buffer, source, bufferPos := 0, state := .error } })
        hclean h.place h.token
      refine .error ⟨⟨.error rfl hundecodable, h.place, hdrops, fun hne => absurd rfl hne,
        fun _ => ?_⟩, h.token, h.suffix⟩ rfl
      exact ⟨.undecodable c, p, c :: tail, saved, .error, hdrops, h.suffix, hreport,
        fun _ => hundecodable, fun _ hne => absurd rfl hne⟩
    | @first b more source hpending hsource hsequence =>
      rw [hpending, hsource, List.nil_append] at hrest
      subst hrest
      exact Lex.pass_holding
        (l := { l with stream := { l.stream with buffer := b :: more, source, bufferPos := 0 } })
        hstate hsequence rfl h.place hdrops hclean h.token h.suffix
    | inside hpending hdrop hsequence =>
      rw [hpending, List.cons_append] at hrest
      subst hrest
      exact Lex.pass_holding hstate hsequence hdrop h.place hdrops hclean h.token h.suffix

end Standing

end RipExt.Json
