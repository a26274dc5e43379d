import RipExt.Json.Encode
import RipExt.Json.RoundTrip

/-! What the encoder writes to a callback that takes every piece of the text: strings character by
character, and the texts of the children of a container with what stands between them. -/
namespace RipExt.Json

section Characters

/-- A character of Unicode outside the surrogates. -/
def Scalar (c : ℕ) : Prop := c ≤ 0x10FFFF ∧ (c < 0xD800 ∨ 0xDFFF < c)

theorem utf8Continue_one {value result : ℕ} {b : UInt8}
    (h : utf8Continue value [b] = some result) :
    128 ≤ b.toNat ∧ b.toNat < 192 ∧ result = value * 64 + b.toNat % 64 := by
  simp only [utf8Continue] at h
  split_ifs at h with hbad
  cases h
  omega

theorem utf8Continue_cons {value result : ℕ} {b : UInt8} {bs : Bytes}
    (h : utf8Continue value (b :: bs) = some result) :
    128 ≤ b.toNat ∧ b.toNat < 192 ∧ utf8Continue (value * 64 + b.toNat % 64) bs = some result := by
  simp only [utf8Continue] at h
  split_ifs at h with hbad
  exact ⟨by omega, by omega, h⟩

/-- What `utf8_check_full` has checked. -/
theorem utf8CheckFull_value {b : UInt8} {bs : Bytes} (size : ℕ)
    (hsize : size = 2 ∨ size = 3 ∨ size = 4) (h : utf8CheckFull (b :: bs) size = true) : ∃ c, Dump.utf8Value (b :: bs) size = some c ∧
      utf8Continue (b.toNat % if size = 2 then 32 else if size = 3 then 16 else 8) bs = some c ∧
      Scalar c ∧ ¬(size = 2 ∧ c < 0x80 ∨ size = 3 ∧ c < 0x800 ∨ size = 4 ∧ c < 0x10000) := by
  have hvalue : Dump.utf8Value (b :: bs) size =
      utf8Continue (b.toNat % if size = 2 then 32 else if size = 3 then 16 else 8) bs := by
    rw [Dump.utf8Value, if_pos h]
  rw [hvalue]
  unfold utf8CheckFull at h
  dsimp only at h
  have hstart : (if size = 2 then some (b.toNat % 32) else if size = 3 then some (b.toNat % 16)
      else if size = 4 then some (b.toNat % 8) else none) =
      some (b.toNat % if size = 2 then 32 else if size = 3 then 16 else 8) := by
    rcases hsize with rfl | rfl | rfl <;> rfl
  rw [hstart, Option.bind_some] at h
  split at h
  · cases h
  next c hc =>
    split_ifs at h with hbig hsurrogate
    refine ⟨c, hc, hc, ⟨by omega, by omega⟩, ?_⟩
    simp only [Bool.not_eq_true', Bool.or_eq_false_iff, Bool.and_eq_false_iff,
      decide_eq_false_iff_not] at h
    omega

theorem utf8CheckFirst_bounds {b : UInt8} {count : ℕ} (h : utf8CheckFirst b = count + 2) :
    count = 0 ∧ 0xC2 ≤ b.toNat ∧ b.toNat ≤ 0xDF ∨ count = 1 ∧ 0xE0 ≤ b.toNat ∧ b.toNat ≤ 0xEF ∨
      count = 2 ∧ 0xF0 ≤ b.toNat ∧ b.toNat ≤ 0xF4 := by
  unfold utf8CheckFirst at h
  dsimp only at h
  split_ifs at h <;> omega

theorem ofNat_eq {n : ℕ} {b : UInt8} (h : n = b.toNat) : UInt8.ofNat n = b := by
  rw [h, UInt8.ofNat_toNat]

/-- Every sequence is what `utf8_encode` writes for its character, and `utf8_iterate` finds it. -/
theorem Sequence.scalar {u : Bytes} (hu : Sequence u) :
    ∃ c, Scalar c ∧ u = utf8Encode c ∧ ∀ v, Dump.utf8Iterate (u ++ v) = some (c, u.length) := by
  cases hu with
  | ascii b hb =>
    refine ⟨b.toNat, ⟨by omega, by omega⟩, ?_, fun v => ?_⟩
    · rw [utf8Encode, if_pos hb, UInt8.ofNat_toNat]
    · rw [List.singleton_append]
      simp only [Dump.utf8Iterate, utf8CheckFirst_eq_one_iff.mpr hb]
      rfl
  | full b bs count hfirst hlength hfull =>
    have hbounds := utf8CheckFirst_bounds hfirst
    obtain ⟨c, hvalue, hcontinue, hscalar, hshort⟩ :=
      utf8CheckFull_value (count + 2) (by omega) hfull
    have hiterate (v : Bytes) :
        Dump.utf8Iterate (b :: bs ++ v) = some (c, (b :: bs).length) := by
      have htake : (b :: (bs ++ v)).take (count + 2) = b :: bs := by
        rw [List.take_succ_cons, ← hlength, List.take_left]
      have hlong : ¬(b :: (bs ++ v)).length < count + 2 := by
        rw [List.length_cons, List.length_append]
        omega
      rw [List.cons_append]
      simp only [Dump.utf8Iterate, hfirst]
      rw [if_neg hlong, htake, hvalue, Option.map_some, List.length_cons, hlength]
    refine ⟨c, hscalar, ?_, hiterate⟩
    rcases hbounds with ⟨rfl, hlow, hhigh⟩ | ⟨rfl, hlow, hhigh⟩ | ⟨rfl, hlow, hhigh⟩
    · obtain ⟨b₁, rfl⟩ := List.length_eq_one_iff.mp hlength
      obtain ⟨h₁, h₁', hc⟩ := utf8Continue_one hcontinue
      simp only [Nat.reduceAdd, if_true] at hc
      rw [utf8Encode, if_neg (by omega), if_pos (by omega), ofNat_eq (b := b) (by omega),
        ofNat_eq (b := b₁) (by omega)]
    · obtain ⟨b₁, b₂, rfl⟩ := List.length_eq_two.mp hlength
      obtain ⟨h₁, h₁', hcontinue⟩ := utf8Continue_cons hcontinue
      obtain ⟨h₂, h₂', hc⟩ := utf8Continue_one hcontinue
      simp only [Nat.reduceAdd, Nat.reduceEqDiff, if_false, if_true] at hc
      rw [utf8Encode, if_neg (by omega), if_neg (by omega), if_pos (by omega),
        ofNat_eq (b := b) (by omega), ofNat_eq (b := b₁) (by omega), ofNat_eq (b := b₂) (by omega)]
    · obtain ⟨b₁, b₂, b₃, rfl⟩ := List.length_eq_three.mp hlength
      obtain ⟨h₁, h₁', hcontinue⟩ := utf8Continue_cons hcontinue
      obtain ⟨h₂, h₂', hcontinue⟩ := utf8Continue_cons hcontinue
      obtain ⟨h₃, h₃', hc⟩ := utf8Continue_one hcontinue
      simp only [Nat.reduceAdd, Nat.reduceEqDiff, if_false] at hc
      rw [utf8Encode, if_neg (by omega), if_neg (by omega), if_neg (by omega),
        ofNat_eq (b := b) (by omega), ofNat_eq (b := b₁) (by omega), ofNat_eq (b := b₂) (by omega),
        ofNat_eq (b := b₃) (by omega)]

/-- A text in UTF-8 is a row of characters. -/
theorem Utf8.scalars {v : Bytes} (hv : Utf8 v) :
    ∃ cs : List ℕ, (∀ c ∈ cs, Scalar c) ∧ v = cs.flatMap utf8Encode := by
  induction hv with
  | nil => exact ⟨[], by simp, rfl⟩
  | cons hu hv ih =>
    obtain ⟨c, hc, rfl, -⟩ := hu.scalar
    obtain ⟨cs, hcs, rfl⟩ := ih
    exact ⟨c :: cs, by simpa using ⟨hc, hcs⟩, by rw [List.flatMap_cons]⟩

theorem ofNat_injective {n m : ℕ} (hn : n < 256) (hm : m < 256)
    (h : UInt8.ofNat n = UInt8.ofNat m) : n = m := by
  have hvalue := congrArg UInt8.toNat h
  rwa [toNat_ofNat_of_lt hn, toNat_ofNat_of_lt hm] at hvalue

theorem utf8Encode_injective {c d : ℕ} (hc : Scalar c) (hd : Scalar d)
    (h : utf8Encode c = utf8Encode d) : c = d := by
  have hmax := hc.1
  have hmax' := hd.1
  unfold utf8Encode at h
  split_ifs at h <;> simp only [List.cons.injEq, and_true, reduceCtorEq, and_false] at h
  · exact ofNat_injective (by omega) (by omega) h
  · have h₁ := ofNat_injective (by omega) (by omega) h.1
    have h₂ := ofNat_injective (by omega) (by omega) h.2
    omega
  · have h₁ := ofNat_injective (by omega) (by omega) h.1
    have h₂ := ofNat_injective (by omega) (by omega) h.2.1
    have h₃ := ofNat_injective (by omega) (by omega) h.2.2
    omega
  · have h₁ := ofNat_injective (by omega) (by omega) h.1
    have h₂ := ofNat_injective (by omega) (by omega) h.2.1
    have h₃ := ofNat_injective (by omega) (by omega) h.2.2.1
    have h₄ := ofNat_injective (by omega) (by omega) h.2.2.2
    omega

theorem utf8Iterate_encode {c : ℕ} (hc : Scalar c) (v : Bytes) :
    Dump.utf8Iterate (utf8Encode c ++ v) = some (c, (utf8Encode c).length) := by
  obtain ⟨d, hd, heq, hiterate⟩ := (utf8Encode_sequence hc.1 hc.2).scalar
  obtain rfl := utf8Encode_injective hc hd heq
  exact hiterate v

/-- A byte of a character is the character itself, or it is not ASCII. -/
theorem utf8Encode_bytes {c : ℕ} (hc : Scalar c) :
    ∀ b ∈ utf8Encode c, b.toNat = c ∨ 0x80 ≤ b.toNat := by
  have hmax := hc.1
  have hhigh {n : ℕ} (hn : 0x80 ≤ n ∧ n < 256) :
      (UInt8.ofNat n).toNat = c ∨ 0x80 ≤ (UInt8.ofNat n).toNat := by
    rw [toNat_ofNat_of_lt hn.2]
    exact .inr hn.1
  unfold utf8Encode
  split_ifs
  all_goals
    simp only [List.forall_mem_cons, List.not_mem_nil, false_implies, implies_true, and_true]
  · exact .inl (toNat_ofNat_of_lt (by omega))
  · exact ⟨hhigh (by omega), hhigh (by omega)⟩
  · exact ⟨hhigh (by omega), hhigh (by omega), hhigh (by omega)⟩
  · exact ⟨hhigh (by omega), hhigh (by omega), hhigh (by omega), hhigh (by omega)⟩

theorem utf8Encode_ne_nil (c : ℕ) : utf8Encode c ≠ [] := by
  unfold utf8Encode
  split_ifs <;> simp

end Characters

/-- The callback takes every piece that is not empty; `R` says what it has taken so far. -/
def Takes {σ : Type*} (dump : Sink σ) (R : σ → Bytes → Prop) : Prop :=
  ∀ out before chunk, R out before → chunk ≠ [] →
    ∃ out', dump chunk out = (out', true) ∧ R out' (before ++ chunk)

namespace Dump
variable {σ : Type*} {R : σ → Bytes → Prop} {p q : Dump σ} {a b : Bytes} {dump : Sink σ}
  {flags : DumpFlags}

/-- A part of the encoder that succeeds and writes this text. -/
def Writes (R : σ → Bytes → Prop) (p : Dump σ) (text : Bytes) : Prop :=
  ∀ out before, R out before → ∃ out', p out = some (out', true) ∧ R out' (before ++ text)

section Control

theorem writes_done : Writes R (done : Dump σ) [] := fun out before h =>
  ⟨out, rfl, by rwa [List.append_nil]⟩

theorem writes_emit (hdump : Takes dump R) (ha : a ≠ []) : Writes R (emit dump a) a := by
  intro out before h
  obtain ⟨out', hout, h'⟩ := hdump out before a h ha
  exact ⟨out', congrArg some hout, h'⟩

theorem Writes.andThen (hp : Writes R p a) (hq : Writes R q b) : Writes R (p.andThen q) (a ++ b) := by
  intro out before h
  obtain ⟨out₁, hout₁, h₁⟩ := hp out before h
  obtain ⟨out₂, hout₂, h₂⟩ := hq out₁ (before ++ a) h₁
  refine ⟨out₂, ?_, by rwa [← List.append_assoc]⟩
  show (p out).bind _ = _
  rw [hout₁, Option.bind_some, if_pos rfl, hout₂]

theorem Writes.ignoring (hp : Writes R p a) : Writes R p.ignoring a := by
  intro out before h
  obtain ⟨out₁, hout₁, h₁⟩ := hp out before h
  refine ⟨out₁, ?_, h₁⟩
  show (p out).map _ = _
  rw [hout₁, Option.map_some]

end Control

section Strings

/-- The text of `dump_indent`. -/
def indentText (flags : DumpFlags) (depth : ℕ) (space : Bool) : Bytes :=
  if 0 < flags.indent then 10 :: List.replicate (depth * flags.indent % 2 ^ 32) 32
  else if space && !flags.compact then [32]
  else []

/-- What `dump_string` writes for a character. -/
def written (flags : DumpFlags) (c : ℕ) : Bytes :=
  if escapes flags c then escapeText c else utf8Encode c

theorem writes_spaces (hdump : Takes dump R) (n : ℕ) {fuel : ℕ} (hn : n ≤ fuel) :
    Writes R (dumpSpaces dump fuel n) (List.replicate n 32) := by
  induction fuel generalizing n with
  | zero =>
    obtain rfl := Nat.le_zero.mp hn
    exact writes_done
  | succ fuel ih =>
    cases n with
    | zero => exact writes_done
    | succ n =>
      have hsplit : List.replicate (n + 1) (32 : UInt8) =
          List.replicate (min (n + 1) 32) 32 ++ List.replicate (n + 1 - min (n + 1) 32) 32 := by
        rw [List.replicate_append_replicate]
        congr 1
        omega
      rw [hsplit]
      refine (writes_emit hdump ?_).andThen (ih _ (by omega))
      rw [Ne, List.replicate_eq_nil_iff]
      omega

theorem writes_indent (flags : DumpFlags) (hdump : Takes dump R) (depth : ℕ) (space : Bool) :
    Writes R (dumpIndent dump flags depth space) (indentText flags depth space) := by
  unfold dumpIndent indentText
  split_ifs
  · exact (writes_emit hdump (List.cons_ne_nil _ _)).andThen (writes_spaces hdump _ le_rfl)
  · exact writes_emit hdump (List.cons_ne_nil _ _)
  · exact writes_done

theorem escapeText_ne_nil (c : ℕ) : escapeText c ≠ [] := by
  unfold escapeText unicodeEscape
  split_ifs <;> simp

theorem writes_pending (hdump : Takes dump R) (pending : Bytes) :
    Writes R (dumpPending dump pending) pending := by
  unfold dumpPending
  split_ifs with hnil
  · rw [hnil]
    exact writes_done
  · exact writes_emit hdump hnil

theorem writes_chars (flags : DumpFlags) (hdump : Takes dump R) {cs : List ℕ} (hcs : ∀ c ∈ cs, Scalar c) {fuel : ℕ}
    (hfuel : (cs.flatMap utf8Encode).length ≤ fuel) (pending : Bytes) :
    Writes R (dumpChars dump flags fuel pending (cs.flatMap utf8Encode))
      (pending ++ cs.flatMap (written flags) ++ [34]) := by
  induction cs generalizing fuel pending with
  | nil =>
    rw [List.flatMap_nil, List.flatMap_nil, List.append_nil, dumpChars]
    exact (writes_pending hdump pending).andThen (writes_emit hdump (List.cons_ne_nil _ _))
  | cons c cs ih =>
    rw [List.forall_mem_cons] at hcs
    have hiterate := utf8Iterate_encode hcs.1 (cs.flatMap utf8Encode)
    have htake : (utf8Encode c ++ cs.flatMap utf8Encode).take (utf8Encode c).length =
        utf8Encode c := List.take_left
    have hdrop : (utf8Encode c ++ cs.flatMap utf8Encode).drop (utf8Encode c).length =
        cs.flatMap utf8Encode := List.drop_left
    have hpos := List.length_pos_iff.mpr (utf8Encode_ne_nil c)
    rw [List.flatMap_cons, List.length_append] at hfuel
    obtain ⟨fuel, rfl⟩ := Nat.exists_eq_add_one_of_ne_zero (by omega : fuel ≠ 0)
    have hfuel' : (cs.flatMap utf8Encode).length ≤ fuel := by omega
    rw [List.flatMap_cons, List.flatMap_cons, written]
    obtain ⟨b, bs, hb⟩ := List.exists_cons_of_ne_nil
      (List.append_ne_nil_of_left_ne_nil (utf8Encode_ne_nil c) (cs.flatMap utf8Encode))
    rw [hb] at hiterate htake hdrop ⊢
    unfold dumpChars
    rw [hiterate]
    dsimp only
    rw [htake, hdrop]
    split_ifs
    · have hrest := ih hcs.2 hfuel' []
      rw [List.nil_append] at hrest
      have hall := (writes_pending hdump pending).andThen
        ((writes_emit hdump (escapeText_ne_nil c)).andThen hrest)
      simpa only [List.append_assoc] using hall
    · have hrest := ih hcs.2 hfuel' (pending ++ utf8Encode c)
      simpa only [List.append_assoc] using hrest

/-- The characters of a text. -/
def charactersFrom : ℕ → Bytes → List ℕ
  | _, [] => []
  | 0, _ :: _ => []
  | fuel + 1, b :: bs =>
    match utf8Iterate (b :: bs) with
    | none => []
    | some (c, count) => c :: charactersFrom fuel ((b :: bs).drop count)

def characters (v : Bytes) : List ℕ := charactersFrom v.length v

theorem charactersFrom_flatMap {cs : List ℕ} (hcs : ∀ c ∈ cs, Scalar c) {fuel : ℕ}
    (hfuel : (cs.flatMap utf8Encode).length ≤ fuel) :
    charactersFrom fuel (cs.flatMap utf8Encode) = cs := by
  induction cs generalizing fuel with
  | nil => cases fuel <;> rfl
  | cons c cs ih =>
    rw [List.forall_mem_cons] at hcs
    have hiterate := utf8Iterate_encode hcs.1 (cs.flatMap utf8Encode)
    have hdrop : (utf8Encode c ++ cs.flatMap utf8Encode).drop (utf8Encode c).length =
        cs.flatMap utf8Encode := List.drop_left
    have hpos := List.length_pos_iff.mpr (utf8Encode_ne_nil c)
    rw [List.flatMap_cons, List.length_append] at hfuel
    obtain ⟨fuel, rfl⟩ := Nat.exists_eq_add_one_of_ne_zero (by omega : fuel ≠ 0)
    obtain ⟨b, bs, hb⟩ := List.exists_cons_of_ne_nil
      (List.append_ne_nil_of_left_ne_nil (utf8Encode_ne_nil c) (cs.flatMap utf8Encode))
    rw [List.flatMap_cons]
    rw [hb] at hiterate hdrop ⊢
    unfold charactersFrom
    rw [hiterate]
    dsimp only
    rw [hdrop, ih hcs.2 (by omega)]

theorem characters_scalars {v : Bytes} (hv : Utf8 v) :
    (∀ c ∈ characters v, Scalar c) ∧ (characters v).flatMap utf8Encode = v := by
  obtain ⟨cs, hcs, rfl⟩ := hv.scalars
  rw [characters, charactersFrom_flatMap hcs le_rfl]
  exact ⟨hcs, rfl⟩

/-- The text of a string. -/
def stringText (flags : DumpFlags) (v : Bytes) : Bytes :=
  34 :: ((characters v).flatMap (written flags) ++ [34])

theorem writes_string (hdump : Takes dump R) {v : Bytes} (hv : Utf8 v) :
    Writes R (dumpString dump flags v) (stringText flags v) := by
  obtain ⟨hcs, hv⟩ := characters_scalars hv
  have hchars := writes_chars flags hdump hcs le_rfl []
  rw [hv, List.nil_append] at hchars
  exact (writes_emit hdump (List.cons_ne_nil _ _)).andThen hchars

end Strings

section Containers

/-- The texts of the children of a container. -/
def childrenText (comma last : Bytes) : List Bytes → Bytes
  | [] => []
  | [child] => child ++ last
  | child :: next :: rest => child ++ (comma ++ childrenText comma last (next :: rest))

/-- The text of a container. -/
def containerText (flags : DumpFlags) (embed : Bool) (depth : ℕ) (opening closing : UInt8)
    (children : List Bytes) : Bytes :=
  let bracket (b : UInt8) : Bytes := if embed then [] else [b]
  bracket opening ++
    if children.isEmpty then bracket closing
    else indentText flags (depth + 1) false ++
      (childrenText ([44] ++ indentText flags (depth + 1) true) (indentText flags depth false)
        children ++ bracket closing)

theorem writes_children {comma last : Dump σ} {c l : Bytes} (hcomma : Writes R comma c)
    (hlast : Writes R last l) {children : List (Dump σ)} {texts : List Bytes}
    (h : List.Forall₂ (Writes R) children texts) :
    Writes R (dumpChildren comma last children) (childrenText c l texts) := by
  induction h with
  | nil => exact writes_done
  | @cons child text children texts hchild htail ih =>
    cases htail with
    | nil => exact hchild.andThen hlast
    | cons hnext htail => exact hchild.andThen (hcomma.andThen ih)

theorem writes_container (hdump : Takes dump R) (embed : Bool) (depth : ℕ) (opening closing : UInt8)
    {children : List (Dump σ)} {texts : List Bytes} (h : List.Forall₂ (Writes R) children texts) :
    Writes R (dumpContainer dump flags embed depth opening closing children)
      (containerText flags embed depth opening closing texts) := by
  have hbracket (b : UInt8) : Writes R (if embed then done else emit dump [b])
      (if embed then [] else [b]) := by
    split_ifs
    · exact writes_done
    · exact writes_emit hdump (List.cons_ne_nil _ _)
  have hempty : children.isEmpty = texts.isEmpty := by
    cases h <;> rfl
  unfold dumpContainer containerText
  dsimp only
  rw [hempty]
  refine (hbracket opening).andThen ?_
  cases texts.isEmpty with
  | true => exact hbracket closing
  | false =>
    have hcomma := (writes_emit hdump (List.cons_ne_nil 44 [])).andThen
      (writes_indent flags hdump (depth + 1) true)
    exact (writes_indent flags hdump _ _).andThen
      ((writes_children hcomma (writes_indent flags hdump _ _) h).andThen (hbracket closing))

theorem writes_member (hdump : Takes dump R) {value : Ref → Dump σ} {key text : Bytes} {v : Ref}
    (hkey : Utf8 key) (h : Writes R (value v) text) :
    Writes R (dumpMember dump flags value key (some v))
      (stringText flags key ++ (separator flags ++ text)) := by
  have hseparator : separator flags ≠ [] := by
    unfold separator
    split_ifs <;> simp
  exact (writes_string hdump hkey).ignoring.andThen ((writes_emit hdump hseparator).andThen h)

end Containers

end Dump

section Unflagged
variable {c : ℕ} {dumpFlags : DumpFlags}

theorem flatMap_escaped_plain {u : Bytes} (h : ∀ b ∈ u, b ≠ 92 ∧ b ≠ 34 ∧ 32 ≤ b.toNat) :
    u.flatMap escaped = u := by
  induction u with
  | nil => rfl
  | cons b u ih =>
    rw [List.forall_mem_cons] at h
    obtain ⟨⟨hslash, hquote, hlow⟩, hu⟩ := h
    have hne {x : UInt8} (hx : x.toNat < 32) : b ≠ x := by
      rintro rfl
      omega
    have hb : escaped b = [b] := by
      rw [escaped, escapeByte, if_neg hslash, if_neg hquote, if_neg (hne (by decide)),
        if_neg (hne (by decide)), if_neg (hne (by decide)), if_neg (hne (by decide)),
        if_neg (hne (by decide)), if_neg (by omega), Option.getD_none]
    rw [List.flatMap_cons, hb, ih hu, List.singleton_append]

/-- A character that is written as it is has no byte that would be escaped. -/
theorem flatMap_escaped_encode (hc : Scalar c) (h : Dump.escapes dumpFlags c = false) :
    (utf8Encode c).flatMap escaped = utf8Encode c := by
  simp only [Dump.escapes, Bool.or_eq_false_iff, decide_eq_false_iff_not] at h
  obtain ⟨⟨⟨⟨hslash, hquote⟩, hcontrol⟩, -⟩, -⟩ := h
  refine flatMap_escaped_plain fun b hb => ?_
  rcases utf8Encode_bytes hc b hb with rfl | hhigh
  · refine ⟨?_, ?_, by omega⟩
    · rintro rfl
      exact hslash rfl
    · rintro rfl
      exact hquote rfl
  · refine ⟨?_, ?_, by omega⟩
    · rintro rfl
      exact absurd hhigh (by decide)
    · rintro rfl
      exact absurd hhigh (by decide)

/-- Without flags, exactly the characters that the encoder of `Dump.lean` escapes are escaped. -/
theorem written_plain (hc : Scalar c) : Dump.written {} c = (utf8Encode c).flatMap escaped := by
  unfold Dump.written
  cases hescape : Dump.escapes {} c with
  | false => rw [if_neg Bool.false_ne_true, flatMap_escaped_encode hc hescape]
  | true =>
    have hbound : c < 32 ∨ c = 34 ∨ c = 92 := by
      simp only [Dump.escapes, Bool.or_eq_true, decide_eq_true_eq, Bool.false_and,
        Bool.false_eq_true, or_false] at hescape
      omega
    rw [if_pos rfl]
    rcases hbound with hlow | rfl | rfl
    · interval_cases c <;> decide
    · decide
    · decide

theorem stringText_plain {v : Bytes} (hv : Utf8 v) : Dump.stringText {} v = (dumpString v).1 := by
  obtain ⟨hcs, heq⟩ := Dump.characters_scalars hv
  have hwritten : (Dump.characters v).flatMap (Dump.written {}) =
      ((Dump.characters v).flatMap utf8Encode).flatMap escaped := by
    rw [List.flatMap_assoc]
    exact List.flatMap_congr fun c hc => written_plain (hcs c hc)
  rw [dumpString_utf8 hv, Dump.stringText, hwritten, heq]

/-- A run from this text on ends so: without a result, with an error, or with more text. -/
def Dump.Ended (out : Bytes) : Option (Option Bytes) → Option (Bytes × Bool) → Prop
  | none, r => r = none
  | some none, r => ∃ out', r = some (out', false)
  | some (some text), r => r = some (out ++ text, true)

/-- A part of the encoder has this outcome. -/
def Dump.Tells (p : Dump Bytes) (result : Option (Option Bytes)) : Prop :=
  ∀ out, Dump.Ended out result (p out)

namespace Dump
variable {p q : Dump Bytes} {text : Bytes} {result : Option (Option Bytes)}

theorem tells_of_writes (h : Writes Eq p text) : Tells p (some (some text)) := by
  intro out
  obtain ⟨out', hout, rfl⟩ := h out out rfl
  exact hout

/-- The outcome of two parts. -/
def joined (first second : Option (Option Bytes)) : Option (Option Bytes) :=
  first.bind fun r =>
    match r with
    | none => some none
    | some text => second.map (Option.map (text ++ ·))

theorem Tells.andThen {result' : Option (Option Bytes)} (hp : Tells p result)
    (hq : Tells q result') : Tells (p.andThen q) (joined result result') := by
  intro out
  have hfirst := hp out
  have hrun : p.andThen q out = (p out).bind fun r => if r.2 then q r.1 else some r := rfl
  rw [hrun]
  rcases result with - | - | text
  · have hnone : p out = none := hfirst
    rw [hnone]
    rfl
  · obtain ⟨out', hout⟩ := hfirst
    rw [hout]
    exact ⟨out', rfl⟩
  · have htext : p out = some (out ++ text, true) := hfirst
    have hnext := hq (out ++ text)
    rw [htext, Option.bind_some, if_pos rfl]
    rcases result' with - | - | more
    · exact hnext
    · exact hnext
    · have hmore : q (out ++ text) = some (out ++ text ++ more, true) := hnext
      rw [hmore, List.append_assoc]
      rfl

theorem joined_nil (result : Option (Option Bytes)) : joined result (some (some [])) = result := by
  rcases result with - | - | text
  · rfl
  · rfl
  · simp [joined]

theorem nil_joined (result : Option (Option Bytes)) : joined (some (some [])) result = result := by
  rcases result with - | - | text <;> rfl

theorem joinDumps_cons_cons (result next : Option (Option Bytes)) (rest : List (Option (Option Bytes))) :
    joinDumps (result :: next :: rest) =
      joined result (joined (some (some [44, 32])) (joinDumps (next :: rest))) := by
  rcases result with - | - | text
  · rfl
  · rfl
  · rw [joinDumps]
    · rcases joinDumps (next :: rest) with - | - | more <;> rfl
    · simp

/-- The children one after the other; the first one that fails decides. -/
theorem tells_children {comma last : Dump Bytes} (hcomma : Writes Eq comma [44, 32])
    (hlast : Writes Eq last []) {children : List (Dump Bytes)}
    {results : List (Option (Option Bytes))} (h : List.Forall₂ Tells children results) :
    Tells (dumpChildren comma last children) (joinDumps results) := by
  induction h with
  | nil => exact tells_of_writes writes_done
  | @cons child result children results hchild htail ih =>
    cases htail with
    | nil =>
      have hone := hchild.andThen (tells_of_writes hlast)
      rwa [joined_nil] at hone
    | cons hnext htail =>
      rw [joinDumps_cons_cons]
      exact hchild.andThen ((tells_of_writes hcomma).andThen ih)

theorem takes_strbuffer : Takes dumpToStrbuffer Eq := by
  rintro out _ chunk rfl -
  exact ⟨out ++ chunk, rfl, rfl⟩

theorem tells_container (depth : ℕ) (opening closing : UInt8) {children : List (Dump Bytes)}
    {results : List (Option (Option Bytes))} (h : List.Forall₂ Tells children results) :
    Tells (dumpContainer dumpToStrbuffer {} false depth opening closing children)
      ((joinDumps results).map (Option.map fun text => opening :: text ++ [closing])) := by
  have hbracket (b : UInt8) : Tells (emit dumpToStrbuffer [b]) (some (some [b])) :=
    tells_of_writes (writes_emit takes_strbuffer (List.cons_ne_nil _ _))
  have hcomma : Writes Eq ((emit dumpToStrbuffer [44]).andThen
      (dumpIndent dumpToStrbuffer {} (depth + 1) true)) [44, 32] :=
    (writes_emit takes_strbuffer (List.cons_ne_nil _ _)).andThen
      (writes_indent {} takes_strbuffer (depth + 1) true)
  have hindent (n : ℕ) : Writes Eq (dumpIndent dumpToStrbuffer {} n false) [] :=
    writes_indent {} takes_strbuffer n false
  have hresult : (joinDumps results).map (Option.map fun text => opening :: text ++ [closing]) =
      joined (some (some [opening])) (joined (joinDumps results) (some (some [closing]))) := by
    rcases joinDumps results with - | - | text <;> rfl
  rw [hresult]
  unfold dumpContainer
  dsimp only
  refine (hbracket opening).andThen ?_
  cases h with
  | nil => exact hbracket closing
  | cons hchild htail =>
    have hall := (tells_of_writes (hindent (depth + 1))).andThen
      ((tells_children hcomma (hindent depth) (.cons hchild htail)).andThen (hbracket closing))
    rw [nil_joined] at hall
    exact hall

theorem tells_emitText {text : Option Bytes} (h : ∀ chunk, text = some chunk → chunk ≠ []) :
    Tells (emitText dumpToStrbuffer text) (some text) := by
  cases text with
  | none => exact fun out => ⟨out, rfl⟩
  | some chunk => exact tells_of_writes (writes_emit takes_strbuffer (h chunk rfl))

variable {s : Store}

/-- Without flags, the encoder with all flags is the one of `Dump.lean`, also on a document that
contains itself. -/
theorem doDump_plain {printf : ℕ → Double → Bytes} (hs : Stored s)
    (hprintf : ∀ x text, jsonpDtostr (printf 17) x = some text → text ≠ []) (fuel depth : ℕ)
    (parents : List ℕ) (json : Ref) :
    Tells (doDump printf s dumpToStrbuffer {} fuel false depth parents json)
      (Json.doDump (printf 17) s fuel parents json) := by
  induction fuel generalizing depth parents json with
  | zero => exact fun _ => rfl
  | succ fuel ih =>
    have hword {word : Bytes} (hword : word ≠ []) :
        Tells (emit dumpToStrbuffer word) (some (some word)) :=
      tells_of_writes (writes_emit takes_strbuffer hword)
    cases json with
    | true => exact hword (List.cons_ne_nil _ _)
    | false => exact hword (List.cons_ne_nil _ _)
    | null => exact hword (List.cons_ne_nil _ _)
    | node n =>
      intro out
      rw [doDump, Json.doDump]
      cases hc : s.cells n with
      | none => exact rfl
      | some c =>
        have hvalid := hs n c hc
        simp only [Option.bind_some]
        cases hp : c.payload with
        | integer v =>
          refine tells_emitText (fun chunk hchunk => ?_) out
          unfold dumpInteger at hchunk
          split_ifs at hchunk
          cases hchunk
          unfold decimal
          split_ifs
          · exact List.cons_ne_nil _ _
          · exact decimalNat_ne_nil _
        | real x => exact tells_emitText (hprintf x) out
        | string v =>
          rw [hp] at hvalid
          have hutf8 := utf8CheckString_iff.mp hvalid
          have hwrites : Tells (dumpString dumpToStrbuffer {} v) _ :=
            tells_of_writes (writes_string takes_strbuffer hutf8)
          have hok : (Json.dumpString v).2 = true := by rw [dumpString_utf8 hutf8]
          rw [stringText_plain hutf8] at hwrites
          dsimp only
          rw [if_pos hok]
          exact hwrites out
        | array table =>
          dsimp only
          split_ifs
          · exact ⟨out, rfl⟩
          · refine tells_container depth 91 93 ?_ out
            rw [List.forall₂_map_left_iff, List.forall₂_map_right_iff, List.forall₂_same]
            exact fun v _ => ih (depth + 1) (n :: parents) v
        | object es =>
          rw [hp] at hvalid
          dsimp only
          split_ifs
          · exact ⟨out, rfl⟩
          · refine tells_container depth 123 125 ?_ out
            rw [orderedMembers, if_neg Bool.false_ne_true, List.map_map,
              List.forall₂_map_left_iff, List.forall₂_map_right_iff, List.forall₂_same]
            intro e he
            have hutf8 := utf8CheckString_iff.mp (hvalid.1 e he).1
            have hkey : Writes Eq (dumpString dumpToStrbuffer {} e.key).ignoring _ :=
              (writes_string takes_strbuffer hutf8).ignoring
            rw [stringText_plain hutf8] at hkey
            have hmember := (tells_of_writes hkey).andThen
              ((hword (List.cons_ne_nil 58 [32])).andThen (ih (depth + 1) (n :: parents) e.value))
            have hresult (r : Option (Option Bytes)) : joined (some (some (Json.dumpString e.key).1))
                (joined (some (some [58, 32])) r) =
                  r.map (Option.map fun text => (Json.dumpString e.key).1 ++ 58 :: 32 :: text) := by
              rcases r with - | - | text <;> rfl
            rw [hresult] at hmember
            exact hmember

theorem jsonDumps_plain {printf : ℕ → Double → Bytes} (hs : Stored s)
    (hprintf : ∀ x text, jsonpDtostr (printf 17) x = some text → text ≠ []) (json : Ref) :
    jsonDumps printf s {} json = Json.jsonDumps (printf 17) s json := by
  unfold jsonDumps Json.jsonDumps jsonDumpCallback
  cases jsonIsContainer s json with
  | none => rfl
  | some container =>
    cases container with
    | false => rfl
    | true =>
      have hrun := doDump_plain hs hprintf (s.next + 1) 0 [] json []
      rw [Option.bind_some, Option.bind_some, if_neg (by decide), if_pos rfl]
      generalize Json.doDump (printf 17) s (s.next + 1) [] json = result at hrun ⊢
      rcases result with - | - | text
      · have hnone : doDump printf s dumpToStrbuffer {} (s.next + 1) false 0 [] json [] = none := hrun
        rw [hnone]
        rfl
      · obtain ⟨out', hout⟩ := hrun
        rw [hout]
        rfl
      · have htext : doDump printf s dumpToStrbuffer {} (s.next + 1) false 0 [] json [] =
            some ([] ++ text, true) := hrun
        rw [htext]
        rfl

end Dump

end Unflagged

end RipExt.Json
