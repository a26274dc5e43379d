import RipExt.Json.Printer

/-! The encoder and its callback. Whatever the document is, two callbacks that take the same pieces
get the same pieces, none of them is empty, and no piece has a byte that JSON forbids. -/
namespace RipExt.Json

section Bytes
variable {flags : DumpFlags} {Q : UInt8 → Prop}

/-- A byte of the text that is not part of a string: a line feed, or printable ASCII. -/
def Plain (b : UInt8) : Prop := 10 ≤ b.toNat ∧ b.toNat < 0x80

instance (b : UInt8) : Decidable (Plain b) :=
  inferInstanceAs (Decidable (10 ≤ b.toNat ∧ b.toNat < 0x80))

theorem plain_hexDigit {n : ℕ} (hn : n < 16) : Plain (Percent.hexDigit n) := by
  interval_cases n <;> decide

theorem plain_unicodeEscape (value : ℕ) : ∀ b ∈ Dump.unicodeEscape value, Plain b := by
  intro b hb
  simp only [Dump.unicodeEscape, List.mem_cons, List.not_mem_nil, or_false] at hb
  rcases hb with rfl | rfl | rfl | rfl | rfl | rfl
  · decide
  · decide
  all_goals exact plain_hexDigit (Nat.mod_lt _ (by decide))

theorem plain_escapeText (c : ℕ) : ∀ b ∈ Dump.escapeText c, Plain b := by
  have hshort {x : UInt8} (hx : Plain x) : ∀ b ∈ [92, x], Plain b := by
    intro b hb
    simp only [List.mem_cons, List.not_mem_nil, or_false] at hb
    rcases hb with rfl | rfl
    · decide
    · exact hx
  unfold Dump.escapeText
  split_ifs
  all_goals first | exact hshort (by decide) | skip
  · exact plain_unicodeEscape c
  · intro b hb
    rcases List.mem_append.mp hb with hb | hb
    · exact plain_unicodeEscape _ b hb
    · exact plain_unicodeEscape _ b hb

theorem plain_decimal (v : ℤ) : ∀ b ∈ decimal v, Plain b := by
  have hdigit {b : UInt8} (hb : isDigit b = true) : Plain b := by
    simp only [isDigit, Bool.and_eq_true, decide_eq_true_eq] at hb
    exact ⟨by omega, by omega⟩
  intro b hb
  unfold decimal at hb
  split_ifs at hb
  · rcases List.mem_cons.mp hb with rfl | hb
    · decide
    · exact hdigit (isDigit_decimalNat _ b hb)
  · exact hdigit (isDigit_decimalNat _ b hb)

theorem decimal_ne_nil (v : ℤ) : decimal v ≠ [] := by
  unfold decimal
  split_ifs
  · exact List.cons_ne_nil _ _
  · exact decimalNat_ne_nil _

theorem trimExponent_plain {text : Bytes} (h : ∀ b ∈ text, Plain b) :
    ∀ b ∈ trimExponent text, Plain b := by
  unfold trimExponent
  split
  · next e sign digits heq =>
    have hdrop : ∀ b ∈ e :: sign :: digits, Plain b := by
      rw [← heq]
      exact fun b hb => h b ((List.dropWhile_sublist _).subset hb)
    rw [List.forall_mem_cons, List.forall_mem_cons] at hdrop
    intro b hb
    simp only [List.mem_append, List.mem_cons] at hb
    rcases hb with (hb | rfl | hb) | hb
    · exact h b ((List.takeWhile_sublist _).subset hb)
    · exact hdrop.1
    · split_ifs at hb
      · rw [List.mem_singleton.mp hb]
        decide
      · cases hb
    · exact hdrop.2.2 b ((List.dropWhile_sublist _).subset hb)
  · exact h

theorem trimExponent_ne_nil {text : Bytes} (h : text ≠ []) : trimExponent text ≠ [] := by
  unfold trimExponent
  split
  · simp
  · exact h

/-- A piece of the text: it is not empty, and its bytes have a property. -/
def Piece (Q : UInt8 → Prop) (chunk : Bytes) : Prop := chunk ≠ [] ∧ ∀ b ∈ chunk, Q b

theorem piece_plain {chunk : Bytes} (hne : chunk ≠ [])
    (h : chunk.all (fun b => decide (Plain b)) = true) : Piece Plain chunk :=
  ⟨hne, fun b hb => of_decide_eq_true (List.all_eq_true.mp h b hb)⟩

/-- A property of the bytes outside of strings and of those that a character is written with. -/
structure Printable (flags : DumpFlags) (Q : UInt8 → Prop) : Prop where
  plain : ∀ b, Plain b → Q b
  written : ∀ c, Scalar c → ∀ b ∈ Dump.written flags c, Q b

/-- What is assumed of `printf`: a number has a text, and it is printable. -/
def PrintsPlain (printf : ℕ → Double → Bytes) : Prop := ∀ precision x, Piece Plain (printf precision x)

theorem jsonpDtostr_piece {printf : Double → Bytes} {x : Double} (hprintf : Piece Plain (printf x))
    {text : Bytes} (h : jsonpDtostr printf x = some text) : Piece Plain text := by
  obtain ⟨hne, hplain⟩ := hprintf
  unfold jsonpDtostr at h
  dsimp only at h
  split_ifs at h
  · cases h
    refine ⟨trimExponent_ne_nil (by simp), trimExponent_plain fun b hb => ?_⟩
    rcases List.mem_append.mp hb with hb | hb
    · exact hplain b hb
    · simp only [List.mem_cons, List.not_mem_nil, or_false] at hb
      rcases hb with rfl | rfl <;> decide
  · cases h
    exact ⟨trimExponent_ne_nil hne, trimExponent_plain hplain⟩

theorem Printable.piece (h : Printable flags Q) {chunk : Bytes} (hchunk : Piece Plain chunk) :
    Piece Q chunk := ⟨hchunk.1, fun b hb => h.plain b (hchunk.2 b hb)⟩

/-- A text has no zero byte. -/
theorem printable_ne_zero (flags : DumpFlags) : Printable flags (· ≠ 0) where
  plain b hb := by
    rintro rfl
    exact absurd hb (by decide)
  written c hc b hb := by
    unfold Dump.written at hb
    split_ifs at hb with hescape
    · rintro rfl
      exact absurd (plain_escapeText c 0 hb) (by decide)
    · rintro rfl
      rcases utf8Encode_bytes hc 0 hb with rfl | hhigh
      · exact hescape rfl
      · exact absurd hhigh (by decide)

/-- `JSON_ENSURE_ASCII`. -/
theorem printable_ascii (h : flags.ensureAscii = true) : Printable flags (·.toNat < 0x80) where
  plain b hb := hb.2
  written c hc b hb := by
    unfold Dump.written at hb
    split_ifs at hb with hescape
    · exact (plain_escapeText c b hb).2
    · have hlow : c < 0x80 := by
        by_contra hhigh
        apply hescape
        simp only [Dump.escapes, h, Bool.true_and, Bool.or_eq_true, decide_eq_true_eq]
        omega
      rw [utf8Encode, if_pos hlow] at hb
      rw [List.mem_singleton.mp hb, toNat_ofNat_of_lt (by omega)]
      exact hlow

end Bytes

namespace Dump
variable {σ τ : Type*} {R : σ → τ → Prop} {B : τ → Prop} {flags : DumpFlags} {Q : UInt8 → Prop}
  {dump : Sink σ} {dump' : Sink τ}

/-- The second callback does the same as the first one until it breaks, and then it takes nothing
any more. -/
structure Agree (Q : UInt8 → Prop) (R : σ → τ → Prop) (B : τ → Prop) (dump : Sink σ)
    (dump' : Sink τ) : Prop where
  takes : ∀ {out out' chunk}, R out out' → Piece Q chunk →
    (dump' chunk out').2 = false ∧ B (dump' chunk out').1 ∨
      (dump chunk out).2 = (dump' chunk out').2 ∧ R (dump chunk out).1 (dump' chunk out').1
  broken : ∀ {out' chunk}, B out' → Piece Q chunk →
    (dump' chunk out').2 = false ∧ B (dump' chunk out').1

/-- A part of the encoder over both callbacks: the second run fails with its callback broken, or
both end in the same way. -/
def Alike (R : σ → τ → Prop) (B : τ → Prop) (p : Dump σ) (q : Dump τ) : Prop :=
  ∀ out out', R out out' → (∃ broken, q out' = some (broken, false) ∧ B broken) ∨
    Option.Rel (fun r r' => r.2 = r'.2 ∧ R r.1 r'.1) (p out) (q out')

section Control
variable {p p' : Dump σ} {q q' : Dump τ}

theorem alike_done : Alike R B done done := fun _ _ h => .inr (.some ⟨rfl, h⟩)

theorem alike_fail : Alike R B fail fail := fun _ _ h => .inr (.some ⟨rfl, h⟩)

theorem alike_none : Alike R B (fun _ => none) fun _ => none := fun _ _ _ => .inr .none

theorem alike_emit (hdump : Agree Q R B dump dump') {chunk : Bytes} (hchunk : Piece Q chunk) :
    Alike R B (emit dump chunk) (emit dump' chunk) := by
  intro out out' h
  rcases hdump.takes h hchunk with ⟨hfail, hbroken⟩ | hboth
  · exact .inl ⟨(dump' chunk out').1, congrArg some (Prod.ext rfl hfail), hbroken⟩
  · exact .inr (.some hboth)

theorem Alike.andThen (hp : Alike R B p q) (hp' : Alike R B p' q') :
    Alike R B (p.andThen p') (q.andThen q') := by
  intro out out' h
  show (∃ broken, (q out').bind _ = _ ∧ B broken) ∨ Option.Rel _ ((p out).bind _) ((q out').bind _)
  rcases hp out out' h with ⟨broken, hfail, hbroken⟩ | hboth
  · refine .inl ⟨broken, ?_, hbroken⟩
    rw [hfail, Option.bind_some, if_neg Bool.false_ne_true]
  · generalize p out = x, q out' = y at hboth
    cases hboth with
    | none => exact .inr .none
    | some hr =>
      obtain ⟨hok, hout⟩ := hr
      rw [Option.bind_some, Option.bind_some, hok]
      split_ifs
      · exact hp' _ _ hout
      · exact .inr (.some ⟨hok, hout⟩)

/-- What a part returns may be left out of account if something is written after it. -/
theorem Alike.ignoring_emit (hdump : Agree Q R B dump dump') {chunk : Bytes}
    (hchunk : Piece Q chunk) (hp : Alike R B p q) (hp' : Alike R B p' q') :
    Alike R B (p.ignoring.andThen ((emit dump chunk).andThen p'))
      (q.ignoring.andThen ((emit dump' chunk).andThen q')) := by
  have hafter := (alike_emit hdump hchunk).andThen hp'
  intro out out' h
  show (∃ broken, ((q out').map _).bind _ = _ ∧ B broken) ∨
    Option.Rel _ (((p out).map _).bind _) (((q out').map _).bind _)
  rcases hp out out' h with ⟨broken, hfail, hbroken⟩ | hboth
  · obtain ⟨hfail', hbroken'⟩ := hdump.broken hbroken hchunk
    refine .inl ⟨(dump' chunk broken).1, ?_, hbroken'⟩
    rw [hfail, Option.map_some, Option.bind_some, if_pos rfl]
    show (if (dump' chunk broken).2 then q' (dump' chunk broken).1 else some (dump' chunk broken)) = _
    rw [hfail', if_neg Bool.false_ne_true, ← hfail']
  · generalize p out = x, q out' = y at hboth
    cases hboth with
    | none => exact .inr .none
    | some hr => exact hafter _ _ hr.2

theorem alike_emitText (hdump : Agree Q R B dump dump') {text : Option Bytes}
    (h : ∀ chunk, text = some chunk → Piece Q chunk) :
    Alike R B (emitText dump text) (emitText dump' text) := by
  cases text with
  | none => exact alike_fail
  | some chunk => exact alike_emit hdump (h chunk rfl)

end Control

section Strings

/-- What `utf8_iterate` finds is what `utf8_encode` writes. -/
theorem utf8Iterate_eq_some {buffer : Bytes} {c count : ℕ}
    (h : utf8Iterate buffer = some (c, count)) :
    Scalar c ∧ buffer.take count = utf8Encode c ∧ 0 < count := by
  have hsequence : Sequence (buffer.take count) ∧ 0 < count := by
    cases buffer with
    | nil => cases h
    | cons b bs =>
      simp only [utf8Iterate] at h
      split at h
      · cases h
      · next hfirst =>
        cases h
        exact ⟨.ascii b (utf8CheckFirst_eq_one_iff.mp hfirst), Nat.one_pos⟩
      · next n hfirst =>
        split_ifs at h with hlength
        obtain ⟨value, hvalue, heq⟩ := Option.map_eq_some_iff.mp h
        cases heq
        rw [List.take_succ_cons] at hvalue ⊢
        have hfull : utf8CheckFull (b :: bs.take (n + 1)) (n + 2) = true := by
          by_contra hnot
          rw [utf8Value, if_neg hnot] at hvalue
          cases hvalue
        refine ⟨.full b _ n hfirst ?_ hfull, Nat.succ_pos _⟩
        rw [List.length_cons] at hlength
        rw [List.length_take]
        omega
  obtain ⟨d, hd, heq, hiterate⟩ := hsequence.1.scalar
  have hagain := hiterate (buffer.drop count)
  rw [List.take_append_drop, h, Option.some.injEq, Prod.mk.injEq] at hagain
  rw [hagain.1]
  exact ⟨hd, heq, hsequence.2⟩

variable (h : Printable flags Q) (hdump : Agree Q R B dump dump')
include h hdump

theorem alike_spaces (fuel n : ℕ) : Alike R B (dumpSpaces dump fuel n) (dumpSpaces dump' fuel n) := by
  induction fuel generalizing n with
  | zero =>
    cases n with
    | zero => exact alike_done
    | succ n => exact alike_none
  | succ fuel ih =>
    cases n with
    | zero => exact alike_done
    | succ n =>
      refine (alike_emit hdump ⟨?_, fun b hb => ?_⟩).andThen (ih _)
      · rw [Ne, List.replicate_eq_nil_iff]
        omega
      · rw [List.eq_of_mem_replicate hb]
        exact h.plain _ (by decide)

theorem alike_byte {b : UInt8} (hb : Plain b) : Alike R B (emit dump [b]) (emit dump' [b]) :=
  alike_emit hdump (h.piece ⟨List.cons_ne_nil _ _, by simpa using hb⟩)

theorem alike_indent (depth : ℕ) (space : Bool) :
    Alike R B (dumpIndent dump flags depth space) (dumpIndent dump' flags depth space) := by
  unfold dumpIndent
  split_ifs
  · exact (alike_byte h hdump (by decide)).andThen (alike_spaces h hdump _ _)
  · exact alike_byte h hdump (by decide)
  · exact alike_done

omit h in
theorem alike_pending {pending : Bytes} (hpending : ∀ b ∈ pending, Q b) :
    Alike R B (dumpPending dump pending) (dumpPending dump' pending) := by
  unfold dumpPending
  split_ifs with hnil
  · exact alike_done
  · exact alike_emit hdump ⟨hnil, hpending⟩

theorem alike_chars (fuel : ℕ) {pending : Bytes} (hpending : ∀ b ∈ pending, Q b) (text : Bytes) :
    Alike R B (dumpChars dump flags fuel pending text) (dumpChars dump' flags fuel pending text) := by
  induction fuel generalizing pending text with
  | zero =>
    cases text with
    | nil => exact (alike_pending hdump hpending).andThen (alike_byte h hdump (by decide))
    | cons b bs => exact alike_none
  | succ fuel ih =>
    cases text with
    | nil => exact (alike_pending hdump hpending).andThen (alike_byte h hdump (by decide))
    | cons b bs =>
      unfold dumpChars
      cases hiterate : utf8Iterate (b :: bs) with
      | none => exact alike_fail
      | some found =>
        obtain ⟨c, count⟩ := found
        obtain ⟨hc, htake, -⟩ := utf8Iterate_eq_some hiterate
        have hwritten := h.written c hc
        dsimp only
        rw [htake]
        unfold written at hwritten
        split_ifs at hwritten ⊢
        · exact (alike_pending hdump hpending).andThen
            ((alike_emit hdump ⟨escapeText_ne_nil c, hwritten⟩).andThen
              (ih (fun b hb => absurd hb List.not_mem_nil) _))
        · refine ih (fun b hb => ?_) _
          exact (List.mem_append.mp hb).elim (hpending b) (hwritten b)

theorem alike_string (v : Bytes) : Alike R B (dumpString dump flags v) (dumpString dump' flags v) :=
  (alike_byte h hdump (by decide)).andThen
    (alike_chars h hdump _ (fun b hb => absurd hb List.not_mem_nil) v)

end Strings

section Containers

theorem alike_children {comma last : Dump σ} {comma' last' : Dump τ} (hcomma : Alike R B comma comma')
    (hlast : Alike R B last last') {children : List (Dump σ)} {children' : List (Dump τ)}
    (hchildren : List.Forall₂ (Alike R B) children children') :
    Alike R B (dumpChildren comma last children) (dumpChildren comma' last' children') := by
  induction hchildren with
  | nil => exact alike_done
  | cons hchild htail ih =>
    cases htail with
    | nil => exact hchild.andThen hlast
    | cons hnext htail => exact hchild.andThen (hcomma.andThen ih)

variable (h : Printable flags Q) (hdump : Agree Q R B dump dump')
include h hdump

theorem alike_container (embed : Bool) (depth : ℕ) {opening closing : UInt8}
    (hopening : Plain opening) (hclosing : Plain closing) {children : List (Dump σ)}
    {children' : List (Dump τ)} (hchildren : List.Forall₂ (Alike R B) children children') :
    Alike R B (dumpContainer dump flags embed depth opening closing children)
      (dumpContainer dump' flags embed depth opening closing children') := by
  have hbracket {b : UInt8} (hb : Plain b) :
      Alike R B (if embed then done else emit dump [b]) (if embed then done else emit dump' [b]) := by
    split_ifs
    · exact alike_done
    · exact alike_byte h hdump hb
  have hempty : children.isEmpty = children'.isEmpty := by
    cases hchildren <;> rfl
  unfold dumpContainer
  dsimp only
  rw [hempty]
  refine (hbracket hopening).andThen ?_
  cases children'.isEmpty with
  | true => exact hbracket hclosing
  | false =>
    have hcomma := (alike_byte h hdump (b := 44) (by decide)).andThen
      (alike_indent h hdump (depth + 1) true)
    exact (alike_indent h hdump _ _).andThen
      ((alike_children hcomma (alike_indent h hdump _ _) hchildren).andThen (hbracket hclosing))

theorem alike_member {value : Ref → Dump σ} {value' : Ref → Dump τ} (key : Bytes)
    (hvalue : ∀ v, Alike R B (value v) (value' v)) (v : Option Ref) :
    Alike R B (dumpMember dump flags value key v) (dumpMember dump' flags value' key v) := by
  have hseparator : Piece Plain (separator flags) := by
    unfold separator
    split_ifs
    · exact piece_plain (List.cons_ne_nil _ _) rfl
    · exact piece_plain (List.cons_ne_nil _ _) rfl
  cases v with
  | none => exact alike_none
  | some v =>
    exact (alike_string h hdump key).ignoring_emit hdump (h.piece hseparator) (hvalue v)

/-- `do_dump` does the same over both callbacks, also where it fails. -/
theorem alike_doDump {printf : ℕ → Double → Bytes} (hprintf : PrintsPlain printf) (s : Store)
    (fuel : ℕ) (embed : Bool) (depth : ℕ) (parents : List ℕ) (json : Ref) :
    Alike R B (doDump printf s dump flags fuel embed depth parents json)
      (doDump printf s dump' flags fuel embed depth parents json) := by
  induction fuel generalizing embed depth parents json with
  | zero => exact alike_none
  | succ fuel ih =>
    have hword {word : Bytes} (hword : Piece Plain word) :
        Alike R B (emit dump word) (emit dump' word) := alike_emit hdump (h.piece hword)
    cases json with
    | true => exact hword (piece_plain (List.cons_ne_nil _ _) rfl)
    | false => exact hword (piece_plain (List.cons_ne_nil _ _) rfl)
    | null => exact hword (piece_plain (List.cons_ne_nil _ _) rfl)
    | node n =>
      intro out out' hout
      rw [doDump, doDump]
      cases hc : s.cells n with
      | none => exact .inr .none
      | some c =>
        simp only [Option.bind_some]
        cases c.payload with
        | integer v =>
          refine alike_emitText hdump (fun chunk hchunk => ?_) out out' hout
          unfold dumpInteger at hchunk
          split_ifs at hchunk
          cases hchunk
          exact h.piece ⟨decimal_ne_nil v, plain_decimal v⟩
        | real v =>
          refine alike_emitText hdump (fun chunk hchunk => ?_) out out' hout
          exact h.piece (jsonpDtostr_piece (hprintf _ v) hchunk)
        | string v => exact alike_string h hdump v out out' hout
        | array table =>
          dsimp only
          split_ifs
          · exact alike_fail out out' hout
          · refine alike_container h hdump embed depth (by decide) (by decide) ?_ out out' hout
            rw [List.forall₂_map_left_iff, List.forall₂_map_right_iff, List.forall₂_same]
            exact fun v _ => ih false (depth + 1) (n :: parents) v
        | object es =>
          dsimp only
          split_ifs
          · exact alike_fail out out' hout
          · refine alike_container h hdump embed depth (by decide) (by decide) ?_ out out' hout
            rw [List.forall₂_map_left_iff, List.forall₂_map_right_iff, List.forall₂_same]
            exact fun m _ => alike_member h hdump m.1 (ih false (depth + 1) (n :: parents)) m.2

theorem alike_callback {printf : ℕ → Double → Bytes} (hprintf : PrintsPlain printf) (s : Store)
    (json : Ref) : Alike R B (jsonDumpCallback printf s dump flags json)
      (jsonDumpCallback printf s dump' flags json) := by
  intro out out' hout
  unfold jsonDumpCallback
  cases jsonIsContainer s json with
  | none => exact .inr .none
  | some container =>
    rw [Option.bind_some, Option.bind_some]
    split_ifs
    · exact alike_fail out out' hout
    · exact alike_doDump h hdump hprintf s _ _ _ _ json out out' hout

end Containers

section Texts
variable {printf : ℕ → Double → Bytes} {s : Store} {json : Ref}

/-- The buffer of `json_dumps` beside itself, with a property of its bytes. -/
theorem agree_buffer (Q : UInt8 → Prop) :
    Agree Q (fun out out' => out = out' ∧ ∀ b ∈ out, Q b) (fun _ => False) dumpToStrbuffer
      dumpToStrbuffer where
  takes := by
    rintro out _ chunk ⟨rfl, hout⟩ hchunk
    refine .inr ⟨rfl, rfl, fun b hb => ?_⟩
    exact (List.mem_append.mp hb).elim (hout b) (hchunk.2 b)
  broken := False.elim

theorem jsonDumpCallback_bytes (h : Printable flags Q) (hprintf : PrintsPlain printf) {out : Bytes}
    {ok : Bool} (hdump : jsonDumpCallback printf s dumpToStrbuffer flags json [] = some (out, ok)) :
    ∀ b ∈ out, Q b := by
  have hboth := alike_callback h (agree_buffer Q) hprintf s json [] [] ⟨rfl, by simp⟩
  rw [hdump] at hboth
  rcases hboth with ⟨broken, -, hbroken⟩ | hboth
  · exact hbroken.elim
  · cases hboth with
    | some hr => exact hr.2.2

/-- `json_dumps` returns all of its buffer. -/
theorem jsonDumps_eq (hprintf : PrintsPlain printf) : jsonDumps printf s flags json =
    (jsonDumpCallback printf s dumpToStrbuffer flags json []).map fun r =>
      if r.2 then some r.1 else none := by
  unfold jsonDumps
  refine Option.map_congr fun r hr => ?_
  have hbytes := jsonDumpCallback_bytes (printable_ne_zero flags) hprintf hr
  have hstring : r.1.takeWhile (· ≠ 0) = r.1 :=
    List.takeWhile_eq_self_iff.mpr fun b hb => decide_eq_true (hbytes b hb)
  rw [hstring]

/-- What is assumed of the files: a write that succeeds appends the whole piece, and after one that
fails no other one succeeds. -/
structure FileHost.Final (F : FileHost) : Prop where
  appends : ∀ contents chunk, chunk ≠ [] → (F.fwrite contents chunk).2 = true →
    (F.fwrite contents chunk).1 = contents ++ chunk
  stays : ∀ contents chunk more, chunk ≠ [] → (F.fwrite contents chunk).2 = false → more ≠ [] →
    (F.fwrite (F.fwrite contents chunk).1 more).2 = false

/-- No write fails. -/
def FileHost.TakesAll (F : FileHost) : Prop :=
  ∀ contents chunk, chunk ≠ [] → F.fwrite contents chunk = (contents ++ chunk, true)

/-- A write has failed. -/
def FileHost.Broken (F : FileHost) (contents : Bytes) : Prop :=
  ∃ before chunk, chunk ≠ [] ∧ (F.fwrite before chunk).2 = false ∧
    (F.fwrite before chunk).1 = contents

theorem agree_file {F : FileHost} (hF : F.Final) (Q : UInt8 → Prop) :
    Agree Q Eq F.Broken dumpToStrbuffer (dumpToFile F) where
  takes := by
    rintro out _ chunk rfl hchunk
    rw [dumpToFile, if_neg hchunk.1]
    cases hok : (F.fwrite out chunk).2 with
    | false => exact .inl ⟨rfl, out, chunk, hchunk.1, hok, rfl⟩
    | true => exact .inr ⟨rfl, (hF.appends out chunk hchunk.1 hok).symm⟩
  broken := by
    rintro _ chunk ⟨before, last, hlast, hfail, rfl⟩ hchunk
    have hagain := hF.stays before last chunk hlast hfail hchunk.1
    rw [dumpToFile, if_neg hchunk.1]
    exact ⟨hagain, _, chunk, hchunk.1, hagain, rfl⟩

/-- A file gets what the buffer gets, unless a write fails. -/
theorem jsonDumpCallback_file (hprintf : PrintsPlain printf) {F : FileHost} (hF : F.Final)
    (flags : DumpFlags) (s : Store) (json : Ref) :
    (∃ broken, jsonDumpCallback printf s (dumpToFile F) flags json [] = some (broken, false) ∧
        F.Broken broken) ∨
      jsonDumpCallback printf s (dumpToFile F) flags json [] =
        jsonDumpCallback printf s dumpToStrbuffer flags json [] := by
  have hboth := alike_callback (printable_ne_zero flags) (agree_file hF _) hprintf s json [] [] rfl
  refine hboth.imp_right fun hboth => ?_
  generalize jsonDumpCallback printf s dumpToStrbuffer flags json [] = x,
    jsonDumpCallback printf s (dumpToFile F) flags json [] = y at hboth
  cases hboth with
  | none => rfl
  | some hr => rw [Prod.ext hr.2 hr.1]

theorem jsonDumps_buffer (hprintf : PrintsPlain printf) {text : Bytes}
    (h : jsonDumps printf s flags json = some (some text)) :
    jsonDumpCallback printf s dumpToStrbuffer flags json [] = some (text, true) := by
  rw [jsonDumps_eq hprintf] at h
  obtain ⟨⟨out, ok⟩, hdump, heq⟩ := Option.map_eq_some_iff.mp h
  split_ifs at heq with hok
  cases heq
  rw [hdump, show ok = true from hok]

theorem FileHost.TakesAll.final {F : FileHost} (hF : F.TakesAll) : F.Final where
  appends contents chunk hchunk _ := by rw [hF contents chunk hchunk]
  stays contents chunk more hchunk hfail _ := by
    rw [hF contents chunk hchunk] at hfail
    cases hfail

theorem jsonDumpFile_takesAll (hprintf : PrintsPlain printf) {F : FileHost} (hF : F.TakesAll)
    {path : Bytes} (hopen : F.fopen path = true) {text : Bytes}
    (htext : jsonDumps printf s flags json = some (some text)) (files : Bytes → Option Bytes) :
    jsonDumpFile printf s flags F files path json =
      some (Function.update files path (some text), F.fclose path) := by
  rcases jsonDumpCallback_file hprintf hF.final flags s json with
    ⟨-, -, before, chunk, hchunk, hfail, -⟩ | hsame
  · rw [hF before chunk hchunk] at hfail
    cases hfail
  · rw [jsonDumpFile, if_pos hopen, hsame, jsonDumps_buffer hprintf htext, Option.map_some,
      Bool.and_true]

/-- `json_dump_file` returns success only if the file holds the text that `json_dumps` returns, on
every host where a failed write is final. If no write fails, it succeeds with every text, up to
`fclose`. The text is a C string, and it is ASCII if the flags say so. -/
theorem file_holds_string (hprintf : PrintsPlain printf) (s : Store) (flags : DumpFlags)
    {F : FileHost} (hF : F.Final) (files : Bytes → Option Bytes) (path : Bytes) (json : Ref) :
    (∀ files', jsonDumpFile printf s flags F files path json = some (files', true) →
      ∃ text, jsonDumps printf s flags json = some (some text) ∧
        files' = Function.update files path (some text)) ∧
    (F.TakesAll → F.fopen path = true → ∀ text, jsonDumps printf s flags json = some (some text) →
      jsonDumpFile printf s flags F files path json =
        some (Function.update files path (some text), F.fclose path)) ∧
    ∀ text, jsonDumps printf s flags json = some (some text) →
      0 ∉ text ∧ (flags.ensureAscii = true → ∀ b ∈ text, b.toNat < 0x80) := by
  refine ⟨?_, ?_, ?_⟩
  · intro files' hfile
    unfold jsonDumpFile at hfile
    split_ifs at hfile
    · obtain ⟨⟨contents, ok⟩, hwrite, heq⟩ := Option.map_eq_some_iff.mp hfile
      rw [Prod.mk.injEq, Bool.and_eq_true] at heq
      obtain ⟨rfl, -, rfl⟩ := heq
      have hboth := jsonDumpCallback_file hprintf hF flags s json
      rw [hwrite] at hboth
      rcases hboth with ⟨broken, hfail, -⟩ | hsame
      · cases hfail
      · refine ⟨contents, ?_, rfl⟩
        rw [jsonDumps_eq hprintf, ← hsame]
        rfl
    · cases hfile
  · intro htakes hopen text htext
    exact jsonDumpFile_takesAll hprintf htakes hopen htext files
  · intro text htext
    have hbuffer := jsonDumps_buffer hprintf htext
    refine ⟨fun hzero => ?_, fun hascii => ?_⟩
    · exact jsonDumpCallback_bytes (printable_ne_zero flags) hprintf hbuffer 0 hzero rfl
    · exact jsonDumpCallback_bytes (printable_ascii hascii) hprintf hbuffer

/-- A disk with room for so many bytes. -/
def fullDisk (size : ℕ) : FileHost where
  fopen _ := true
  fwrite contents chunk :=
    if contents.length + chunk.length ≤ size then (contents ++ chunk, true)
    else (contents ++ chunk.take (size - contents.length), false)
  fclose _ := true

theorem fullDisk_final (size : ℕ) : (fullDisk size).Final where
  appends contents chunk _ hok := by
    unfold fullDisk at hok ⊢
    dsimp only at hok ⊢
    split_ifs at hok ⊢
    rfl
  stays contents chunk more _ hfail hmore := by
    have hpos := List.length_pos_iff.mpr hmore
    unfold fullDisk at hfail ⊢
    dsimp only at hfail ⊢
    split_ifs at hfail with hroom
    rw [if_neg hroom, if_neg]
    rw [List.length_append, List.length_take]
    omega

/-- An object with the key `éa`. -/
def keyedStore : Store := ⟨fun n => if n = 0 then some ⟨1, .object [⟨1, [195, 169, 97], .true⟩]⟩
  else none, 2⟩

/-- The object is written with `JSON_ENSURE_ASCII`. -/
theorem keyedStore_file : ∃ files' text,
    jsonDumpFile (fun _ _ => [48]) keyedStore (.ofNat 64) (fullDisk 20) (fun _ => none) [120]
      (.node 0) = some (files', true) ∧
    jsonDumps (fun _ _ => [48]) keyedStore (.ofNat 64) (.node 0) = some (some text) ∧
    files' = Function.update (fun _ => none) [120] (some text) ∧ 0 ∉ text ∧
    ∀ b ∈ text, b.toNat < 0x80 := by
  have hprintf : PrintsPlain fun _ _ => [48] := fun _ _ =>
    piece_plain (List.cons_ne_nil _ _) rfl
  have hok : (jsonDumpFile (fun _ _ => [48]) keyedStore (.ofNat 64) (fullDisk 20) (fun _ => none)
      [120] (.node 0)).map (·.2) = some true := by
    decide +kernel
  obtain ⟨⟨files', ok⟩, hfile, rfl⟩ := Option.map_eq_some_iff.mp hok
  obtain ⟨hstring, -, hbytes⟩ := file_holds_string hprintf keyedStore (.ofNat 64)
    (fullDisk_final 20) (fun _ => none) [120] (.node 0)
  obtain ⟨text, htext, hfiles⟩ := hstring files' hfile
  obtain ⟨hzero, hascii⟩ := hbytes text htext
  exact ⟨files', text, hfile, htext, hfiles, hzero, hascii (by decide)⟩

/-- A disk on which one write stops after its first byte. -/
def flakyDisk : FileHost := ⟨fun _ => true, fun contents chunk =>
  if contents = [123, 34] then (contents ++ chunk.take 1, false) else (contents ++ chunk, true),
  fun _ => true⟩

example : (jsonDumpFile (fun _ _ => [48]) keyedStore {} flakyDisk (fun _ => none) [120]
    (.node 0)).map (fun r => (r.1 [120], r.2)) =
      some (some [123, 34, 195, 58, 32, 116, 114, 117, 101, 125], true) := by
  decide +kernel

end Texts

end Dump

end RipExt.Json
