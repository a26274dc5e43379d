import RipExt.Json.LexerRefines
import RipExt.Json.Accept
import RipExt.Json.Handles

/-! The parser of `load.c` over its lexer builds the trees of `Scan.lean`, and what it reports when
it fails tells how far it has come. -/
namespace RipExt.Json

section Parsing
variable {text rest : Bytes} {strtod : Bytes → Option Double} {flags : LoadFlags} {bound : ℕ}

/-- The parser has done what the scanner does: it has the same tree, it goes on in the same place,
and if it fails the report tells where. -/
inductive Parsed (text : Bytes) {α : Type} : α × Option Bytes → α × Bool × Lex → Prop
  | done {tree : α} {rest p : Bytes} {l : Lex} (here : l.Stands text p rest) :
      Parsed text (tree, some rest) (tree, true, l)
  | failed {tree : α} {l : Lex} (blamed : Blamed text l.error) :
      Parsed text (tree, none) (tree, false, l)

/-- A parser of values that does what the scanner does. -/
def Refines (text : Bytes) (value : Token × Bytes → Text × Option Bytes)
    (value' : Token × Lex → Text × Bool × Lex) : Prop :=
  ∀ cur r, Scanned text cur r → Parsed text (value cur) (value' r)

variable {value : Token × Bytes → Text × Option Bytes} {value' : Token × Lex → Text × Bool × Lex}

/-- No text that is left is longer than the whole one. -/
theorem Lex.Stands.scanNext {p : Bytes} {l : Lex} (h : l.Stands text p rest)
    (hbound : text.length < bound) (strtod : Bytes → Option Double) (flags : LoadFlags) :
    Scanned text (lexScan strtod flags rest) (l.scan strtod flags bound) := by
  refine h.scan ?_
  have hle := h.drops.length_le
  rw [List.length_append] at hle
  omega

theorem Scanned.stands_of {cur : Token × Bytes} {r : Token × Lex} {t : Token}
    (h : Scanned text cur r) (ht : cur.1 = t) (hvalid : t ≠ .invalid) :
    ∃ p, r.2.Stands text p cur.2 := h.stands (ht ▸ hvalid)

theorem Parsed.map {α β : Type} {pure : α × Option Bytes} {r : α × Bool × Lex}
    (h : Parsed text pure r) (f : α → β) :
    Parsed text (f pure.1, pure.2) (f r.1, r.2) := by
  cases h with
  | done here => exact .done here
  | failed blamed => exact .failed blamed

/-- The loop of `parse_array`. -/
theorem parseItems_parsed (hbound : text.length < bound) (hv : Sound value)
    (hvalue : Refines text value value')
    (rounds : ℕ) {cur : Token × Bytes} {r : Token × Lex} (h : Scanned text cur r)
    (hrounds : cur.2.length < rounds) :
    Parsed text (scanItems strtod flags value rounds cur)
      (Lex.parseItems strtod flags bound value' rounds r) := by
  induction rounds generalizing cur r with
  | zero => omega
  | succ rounds ih =>
    rw [scanItems, Lex.parseItems, h.token]
    by_cases heof : cur.1 = .eof
    · rw [if_pos heof, if_pos heof]
      exact .failed (h.tells _)
    rw [if_neg heof, if_neg heof]
    have hparsed := hvalue cur r h
    generalize hpure : value cur = pure at hparsed
    generalize value' r = result at hparsed
    cases hparsed with
    | failed blamed => exact .failed blamed
    | @done item rest p l here =>
      have hnext := here.scanNext hbound strtod flags
      dsimp only
      rw [hnext.token]
      by_cases hcomma : (lexScan strtod flags rest).1 = .char 44
      · rw [if_pos hcomma, if_pos hcomma]
        obtain ⟨p', hstands⟩ := hnext.stands_of hcomma (by simp)
        have hshorter : (lexScan strtod flags (lexScan strtod flags rest).2).2.length < rounds := by
          have hrest := (hv.suffix hpure).length_le
          have hless : (lexScan strtod flags rest).2.length < rest.length :=
            lexScan_char_length (Prod.ext hcomma rfl)
          have hlex := (lexScan_suffix strtod flags (lexScan strtod flags rest).2).length_le
          omega
        have hmore := ih (hstands.scanNext hbound _ _) hshorter
        exact hmore.map (Items.item item)
      · rw [if_neg hcomma, if_neg hcomma]
        by_cases hclose : (lexScan strtod flags rest).1 = .char 93
        · rw [if_pos hclose, if_pos hclose]
          obtain ⟨p', hstands⟩ := hnext.stands_of hclose (by simp)
          exact .done hstands
        · rw [if_neg hclose, if_neg hclose]
          exact .failed (hnext.tells _)

/-- The loop of `parse_object`. -/
theorem parseMembers_parsed (hbound : text.length < bound) (hv : Sound value)
    (hvalue : Refines text value value') (rounds : ℕ) (keys : List Bytes) {cur : Token × Bytes}
    {r : Token × Lex} (h : Scanned text cur r) (hrounds : cur.2.length < rounds) :
    Parsed text (scanMembers strtod flags value rounds keys cur)
      (Lex.parseMembers strtod flags bound value' rounds keys r) := by
  induction rounds generalizing keys cur r with
  | zero => omega
  | succ rounds ih =>
    obtain ⟨tok, rest⟩ := cur
    simp only [scanMembers, Lex.parseMembers, List.contains_iff_mem, h.token]
    cases tok with
    | string key =>
      dsimp only
      by_cases hzero : 0 ∈ key
      · rw [if_pos (.inl hzero), if_pos hzero]
        exact .failed (h.tells _)
      rw [if_neg hzero]
      by_cases hduplicate : flags.rejectDuplicates ∧ key ∈ keys
      · rw [if_pos (.inr hduplicate), if_pos hduplicate]
        exact .failed (h.tells _)
      rw [if_neg (not_or.mpr ⟨hzero, hduplicate⟩), if_neg hduplicate]
      obtain ⟨p, hstands⟩ := h.stands_of rfl (by simp)
      have hcolon := hstands.scanNext hbound strtod flags
      rw [hcolon.token]
      by_cases hchar : (lexScan strtod flags rest).1 = .char 58
      swap
      · rw [if_pos hchar, if_pos hchar]
        exact .failed (hcolon.tells _)
      rw [if_neg (not_not.mpr hchar), if_neg (not_not.mpr hchar)]
      obtain ⟨p', hstands'⟩ := hcolon.stands_of hchar (by simp)
      have hparsed := hvalue _ _ (hstands'.scanNext hbound strtod flags)
      generalize hpure : value (lexScan strtod flags (lexScan strtod flags rest).2) = pure
        at hparsed
      generalize value' _ = result at hparsed ⊢
      cases hparsed with
      | failed blamed => exact .failed blamed
      | @done member rest' p l here =>
        have hnext := here.scanNext hbound strtod flags
        dsimp only
        rw [hnext.token]
        by_cases hcomma : (lexScan strtod flags rest').1 = .char 44
        · rw [if_pos hcomma, if_pos hcomma]
          obtain ⟨p', hstands⟩ := hnext.stands_of hcomma (by simp)
          have hshorter :
              (lexScan strtod flags (lexScan strtod flags rest').2).2.length < rounds := by
            have hcolon := (lexScan_suffix strtod flags rest).length_le
            have hstart := (lexScan_suffix strtod flags (lexScan strtod flags rest).2).length_le
            have hrest : rest'.length ≤
                (lexScan strtod flags (lexScan strtod flags rest).2).2.length :=
              List.IsSuffix.length_le (hv.suffix hpure)
            have hless : (lexScan strtod flags rest').2.length < rest'.length :=
              lexScan_char_length (Prod.ext hcomma rfl)
            have hlex := (lexScan_suffix strtod flags (lexScan strtod flags rest').2).length_le
            dsimp only at hrounds
            omega
          have hmore := ih (key :: keys) (hstands.scanNext hbound _ _) hshorter
          exact hmore.map (Members.member key member)
        · rw [if_neg hcomma, if_neg hcomma]
          by_cases hclose : (lexScan strtod flags rest').1 = .char 125
          · rw [if_pos hclose, if_pos hclose]
            obtain ⟨p', hstands⟩ := hnext.stands_of hclose (by simp)
            exact .done hstands
          · rw [if_neg hclose, if_neg hclose]
            exact .failed (hnext.tells _)
    | _ => exact .failed (h.tells _)

theorem lexScanNumber_shorter {intAsReal : Bool} {b : UInt8} {tail : Bytes} {number : Number}
    (h : lexScanNumber strtod intAsReal (b :: tail) = some (number, rest)) :
    rest.length ≤ tail.length := by
  rw [lexScanNumber_eq] at h
  dsimp only at h
  split_ifs at h with hdigits
  have hsuffix := (afterDigits_suffix h).length_le
  by_cases hminus : b = 45
  · have hsign : minus (b :: tail) = [45] := by simp [minus, hminus]
    have hdrop := (List.dropWhile_suffix isDigit (l := tail)).length_le
    rw [hsign] at hsuffix
    exact hsuffix.trans hdrop
  · have hsign : minus (b :: tail) = [] := by simp [minus, hminus]
    have hdrop := (List.dropWhile_suffix isDigit (l := tail)).length_le
    rw [hsign, List.length_nil, List.drop_zero] at hsuffix hdigits
    rw [not_or, List.isEmpty_iff] at hdigits
    have hb : isDigit b = true := by
      by_contra hnot
      exact hdigits.1 (by simp [hnot])
    rw [List.dropWhile_cons, if_pos hb] at hsuffix
    exact hsuffix.trans hdrop

/-- A token takes at least one byte. -/
theorem lexScan_length (strtod : Bytes → Option Double) (flags : LoadFlags) (hrest : rest ≠ []) :
    (lexScan strtod flags rest).2.length < rest.length := by
  have hle := (List.dropWhile_suffix isBlank (l := rest)).length_le
  have hpos := List.length_pos_iff.mpr hrest
  unfold lexScan
  cases hblank : rest.dropWhile isBlank with
  | nil => exact hpos
  | cons b tail =>
    rw [hblank, List.length_cons] at hle
    dsimp only
    split_ifs
    · exact hle
    · split
      · next value rest' hstring =>
        have hsuffix := (lexScanString_suffix hstring).length_le
        dsimp only
        omega
      · exact hpos
    · split
      · next number rest' hscan =>
        have hunget := (unget_suffix rest').length_le
        have hnumber := lexScanNumber_shorter hscan
        dsimp only
        omega
      · exact hpos
    · have hunget := (unget_suffix (tail.dropWhile isAlpha)).length_le
      have hdrop := (List.dropWhile_suffix isAlpha (l := tail)).length_le
      dsimp only
      omega
    · exact hpos

/-- A loop of the scanner has as many rounds as it needs. -/
theorem scanItems_bound (hv : Sound value) (hrest : rest.length < bound) :
    scanItems strtod flags value rest.length (lexScan strtod flags rest) =
      scanItems strtod flags value bound (lexScan strtod flags rest) := by
  by_cases hnil : rest = []
  · obtain ⟨bound, rfl⟩ := Nat.exists_eq_succ_of_ne_zero (by omega : bound ≠ 0)
    subst hnil
    rw [List.length_nil, scanItems, scanItems]
    exact (if_pos rfl).symm
  · have hlex := lexScan_length strtod flags hnil
    exact scanItems_fuel hv hlex (hlex.trans hrest)

theorem scanMembers_bound (hv : Sound value) (hrest : rest.length < bound) :
    scanMembers strtod flags value rest.length [] (lexScan strtod flags rest) =
      scanMembers strtod flags value bound [] (lexScan strtod flags rest) := by
  by_cases hnil : rest = []
  · obtain ⟨bound, rfl⟩ := Nat.exists_eq_succ_of_ne_zero (by omega : bound ≠ 0)
    subst hnil
    rfl
  · have hlex := lexScan_length strtod flags hnil
    exact scanMembers_fuel hv hlex (hlex.trans hrest)

/-- `parse_value`. -/
theorem parseValue_parsed (strtod : Bytes → Option Double) (flags : LoadFlags)
    (hbound : text.length < bound) (depth : ℕ) :
    Refines text (scanValue strtod flags depth) (Lex.parseValue strtod flags bound depth) := by
  induction depth with
  | zero => exact fun cur r h => .failed (h.tells _)
  | succ depth ih =>
    intro cur r h
    obtain ⟨tok, rest⟩ := cur
    have hsound := scanValue_sound strtod flags depth
    simp only [scanValue, Lex.parseValue, h.token]
    cases tok with
    | string value =>
      obtain ⟨p, hstands⟩ := h.stands_of rfl (by simp)
      dsimp only
      by_cases hzero : 0 ∈ value ∧ flags.allowNul = false
      · rw [if_pos hzero, if_pos hzero]
        exact .failed (h.tells _)
      · rw [if_neg hzero, if_neg hzero]
        exact .done hstands
    | char c =>
      obtain ⟨p, hstands⟩ := h.stands_of rfl (by simp)
      have hfirst := hstands.scanNext hbound strtod flags
      have hlength : rest.length ≤ text.length := by
        have hle := hstands.drops.length_le
        rw [List.length_append] at hle
        dsimp only at hle
        omega
      dsimp only
      rw [hfirst.token]
      have hshort : (lexScan strtod flags rest).2.length < bound :=
        ((lexScan_suffix strtod flags rest).length_le.trans hlength).trans_lt hbound
      by_cases hbrace : c = 123
      · rw [if_pos hbrace, if_pos hbrace]
        by_cases hclose : (lexScan strtod flags rest).1 = .char 125
        · rw [if_pos hclose, if_pos hclose]
          obtain ⟨p', hstands'⟩ := hfirst.stands_of hclose (by simp)
          exact .done hstands'
        · rw [if_neg hclose, if_neg hclose, scanMembers_bound hsound (hlength.trans_lt hbound)]
          exact (parseMembers_parsed hbound hsound ih bound [] hfirst hshort).map Text.object
      rw [if_neg hbrace, if_neg hbrace]
      by_cases hbracket : c = 91
      · rw [if_pos hbracket, if_pos hbracket]
        by_cases hclose : (lexScan strtod flags rest).1 = .char 93
        · rw [if_pos hclose, if_pos hclose]
          obtain ⟨p', hstands'⟩ := hfirst.stands_of hclose (by simp)
          exact .done hstands'
        · rw [if_neg hclose, if_neg hclose, scanItems_bound hsound (hlength.trans_lt hbound)]
          exact (parseItems_parsed hbound hsound ih bound hfirst hshort).map Text.array
      · rw [if_neg hbracket, if_neg hbracket]
        exact .failed (h.tells _)
    | eof | invalid => exact .failed (h.tells _)
    | integer _ | real _ | «true» | «false» | null =>
      obtain ⟨p, hstands⟩ := h.stands_of rfl (by simp)
      exact .done hstands

end Parsing

section Loading
variable (strtod : Bytes → Option Double) (flags : LoadFlags)

theorem placeAfter_nil : placeAfter [] = ⟨1, 0, 0⟩ := rfl

theorem Lex.init_stands (source : Bytes) : (Lex.init source).Stands source [] source := by
  refine ⟨.ok rfl (.inl rfl) rfl, placeAfter_nil.symm, Drops.refl source, fun _ => rfl, nofun⟩

/-- How `parse_json` ends: with a report of its place, or with the place in an empty report. -/
inductive Loaded (flags : LoadFlags) (source : Bytes) : Text × Bool → Text × Bool × Lex → Prop
  | failed {tree : Text} {l : Lex} (blamed : Blamed source l.error) :
      Loaded flags source (tree, false) (tree, false, l)
  | done {tree : Text} {l : Lex} (complete : tree.complete = true)
      (whole : flags.disableEofCheck = false → ∃ p, Drops source p ∧
        l.error = { position := p.length }) :
      Loaded flags source (tree, true) (tree, true, l)

/-- The parser against the scanner, on any source. -/
theorem load_loaded (report : Bytes → JsonError) (source : Bytes) :
    Loaded flags source
      ((jsonLoadb strtod flags report source).text, (jsonLoadb strtod flags report source).ended)
      (load strtod flags source) := by
  have hbound : source.length < source.length + 1 := Nat.lt_succ_self _
  have hfirst := (Lex.init_stands source).scanNext hbound strtod flags
  have hparsed := parseValue_parsed strtod flags hbound jsonParserMaxDepth _ _ hfirst
  have hcomplete := scanValue_complete strtod flags jsonParserMaxDepth (lexScan strtod flags source)
  unfold load Lex.parseJson jsonLoadb
  dsimp only
  rw [hfirst.token]
  by_cases hcontainer : flags.decodeAny = false ∧ (lexScan strtod flags source).1 ≠ .char 91 ∧
      (lexScan strtod flags source).1 ≠ .char 123
  · rw [if_pos hcontainer, if_pos hcontainer]
    exact .failed (hfirst.tells _)
  rw [if_neg hcontainer, if_neg hcontainer]
  generalize scanValue strtod flags jsonParserMaxDepth (lexScan strtod flags source) = pure
    at hparsed hcomplete
  generalize Lex.parseValue strtod flags (source.length + 1) jsonParserMaxDepth _ = result
    at hparsed ⊢
  cases hparsed with
  | failed blamed => exact .failed blamed
  | @done tree rest p l here =>
    have hlast := here.scanNext hbound strtod flags
    dsimp only
    cases heof : flags.disableEofCheck with
    | true => exact .done hcomplete fun hcheck => by rw [heof] at hcheck; cases hcheck
    | false =>
      rw [if_neg (by simp), hlast.token, Bool.false_or]
      by_cases hend : (lexScan strtod flags rest).1 = .eof
      · rw [if_neg (not_not.mpr hend), hend]
        obtain ⟨p', hstands⟩ := hlast.stands_of hend (by simp)
        have hnil : (lexScan strtod flags rest).2 = [] := by
          rw [lexScan, lexScan_eof_iff.mp hend]
        rw [hnil] at hstands
        refine .done hcomplete fun _ => ⟨p', by simpa using hstands.drops, ?_⟩
        have hclean := hstands.clean fun herror => by
          obtain ⟨b, tail, hcons, -⟩ := (hstands.undecodable herror).high
          cases hcons
        have hposition := congrArg Place.position hstands.place
        rw [hclean]
        exact congrArg (fun n => ({ position := n } : Report)) hposition
      · rw [if_pos hend]
        have hfalse : decide ((lexScan strtod flags rest).1 = .eof) = false := decide_eq_false hend
        rw [hfalse]
        exact .failed (hlast.tells _)

theorem load_ends (source : Bytes) :
    ∃ document, Loaded flags source document (load strtod flags source) :=
  ⟨_, load_loaded strtod flags (fun _ => ⟨0, 0, []⟩) source⟩

theorem jsonLoadb_error (report : Bytes → JsonError) (source : Bytes) :
    (jsonLoadb strtod flags report source).error = report source := by
  unfold jsonLoadb
  dsimp only
  split_ifs
  · rfl
  · split <;> rfl

/-- The decoder that reads its source one byte at a time, takes a byte back and reports errors gives
the natives the same document as the scanner. -/
theorem load_refines_scanner (source : Bytes) :
    loadDocument strtod flags source =
      jsonLoadb strtod flags (fun source => (loadError strtod flags source).jsonError) source := by
  have hloaded := load_loaded strtod flags
    (fun source => (loadError strtod flags source).jsonError) source
  have herror := jsonLoadb_error strtod flags
    (fun source => (loadError strtod flags source).jsonError) source
  unfold loadDocument
  generalize jsonLoadb strtod flags _ source = document at hloaded herror ⊢
  obtain ⟨tree, ended, error⟩ := document
  dsimp only at hloaded herror
  subst herror
  unfold loadError
  generalize load strtod flags source = result at hloaded ⊢
  cases hloaded with
  | failed => rfl
  | done => rfl

variable {strtod flags}

theorem load_accepted_iff {source : Bytes} :
    (loadDocument strtod flags source).Accepted ↔ (load strtod flags source).2.1 = true := by
  have hloaded := load_loaded strtod flags (fun _ => ⟨0, 0, []⟩) source
  unfold Document.Accepted loadDocument
  generalize ((jsonLoadb strtod flags (fun _ => (⟨0, 0, []⟩ : JsonError)) source).text,
    (jsonLoadb strtod flags (fun _ => (⟨0, 0, []⟩ : JsonError)) source).ended) = document at hloaded
  generalize load strtod flags source = result at hloaded
  cases hloaded with
  | failed => simp
  | done complete => simp [complete]

/-- A decoder that fails has reported where. -/
theorem load_blamed {source : Bytes} (h : (load strtod flags source).2.1 = false) :
    Blamed source (loadError strtod flags source) := by
  obtain ⟨document, hloaded⟩ := load_ends strtod flags source
  unfold loadError
  generalize load strtod flags source = result at hloaded h
  cases hloaded with
  | failed blamed => exact blamed
  | done => cases h

/-- A decoder that has read everything reports no error, and the length of the text. -/
theorem loadError_of_accepted {source : Bytes} (h : (load strtod flags source).2.1 = true)
    (hcheck : flags.disableEofCheck = false) (hzero : 0 ∉ source) :
    loadError strtod flags source = { position := source.length } := by
  obtain ⟨document, hloaded⟩ := load_ends strtod flags source
  unfold loadError
  generalize load strtod flags source = result at hloaded h
  cases hloaded with
  | failed => cases h
  | done complete whole =>
    obtain ⟨p, hdrops, herror⟩ := whole hcheck
    rw [← hdrops.eq hzero]
    exact herror

end Loading

section Throwing
variable {E : Host} {s : State} {text : Bytes} {strtod : Bytes → Option Double} {flags : LoadFlags}

/-- What is thrown for a C string: the line and the column after some first part `p` of it, and the
message that `error_set` makes of a complaint, of the token `near` at the end of that part and of the
state of the stream. The message quotes the token only if it is short; there is no token only at the
end of the text or before bytes that are no character. -/
def TellsPlace (text : Bytes) (error : JsonError) : Prop :=
  ∃ c p rest near state, text = p ++ rest ∧ near <:+ p ∧
    error = ⟨lineAfter p, columnAfter p, snprintf 159 (Complaint.describe c near state)⟩ ∧
    (state = .error → Undecodable rest) ∧ (near = [] → state ≠ .error → rest = [])

theorem Blamed.tellsPlace {r : Report} (h : Blamed text r) (hzero : 0 ∉ text) :
    TellsPlace text r.jsonError := by
  obtain ⟨c, p, rest, near, state, hdrops, hsuffix, rfl, hundecodable, hend⟩ := h
  exact ⟨c, p, rest, near, state, (hdrops.eq hzero).symm, hsuffix, rfl, hundecodable, hend⟩

/-- A native has thrown a syntax error that tells the place, if and only if the decoder fails. -/
def Reported (strtod : Bytes → Option Double) (flags : LoadFlags) (text : Bytes) (r : Result) :
    Prop :=
  ∃ s' o, r = some (s', o) ∧
    ((load strtod flags text).2.1 = true ∧ (∀ error, o ≠ .error (.syntaxError error)) ∨
      (load strtod flags text).2.1 = false ∧
        ∃ error, o = .error (.syntaxError error) ∧ TellsPlace text error)

/-- `FromString` on any C string. -/
theorem fromString_tells_place (hreach : (system E).Reachable s) (hzero : 0 ∉ text)
    (strtod : Bytes → Option Double) (flags : LoadFlags) (refused : Option ℕ) :
    Reported strtod flags text (fromString E s (loadDocument strtod flags text) refused) := by
  have hb := reachable_balanced hreach
  obtain ⟨v, heap, hloads, hm⟩ := jsonLoads_moves (loadDocument strtod flags text) hb
  have haccepted := (jsonLoads_isSome_iff hb hloads).trans load_accepted_iff
  unfold fromString fromText
  rw [hloads, Option.bind_some]
  cases v with
  | none =>
    have hfail : (load strtod flags text).2.1 = false := by
      rw [← Bool.not_eq_true, ← haccepted]
      simp
    exact ⟨_, _, rfl, .inr ⟨hfail, _, rfl, (load_blamed hfail).tellsPlace hzero⟩⟩
  | some json =>
    have hload : (load strtod flags text).2.1 = true := haccepted.mp rfl
    cases refused with
    | none => exact ⟨_, _, rfl, .inl ⟨hload, nofun⟩⟩
    | some err =>
      obtain ⟨heap', hdecref, -⟩ := jsonDecref_moves (L := fun _ _ _ => True) (hm.balanced hb)
        (le_refl s.roots)
      refine ⟨{ s with heap := heap' }, .error (.noObjectHandle err), ?_, .inl ⟨hload, nofun⟩⟩
      simp [createHandle, hdecref, State.fail]

/-- The array `[1,]`. -/
theorem trailingComma_tells_place :
    (load (fun _ => none) {} [91, 49, 44, 93]).2.1 = false ∧
      Reported (fun _ => none) {} [91, 49, 44, 93]
        (fromString plainHost .empty (loadDocument (fun _ => none) {} [91, 49, 44, 93]) none) :=
  ⟨by decide, fromString_tells_place ⟨[], rfl⟩ (by decide) _ _ _⟩

example : loadError (fun _ => none) {} [91, 49, 44, 93] =
    ⟨1, 4, 4, .invalidSyntax, chars "unexpected token near ']'"⟩ := by decide

end Throwing

end RipExt.Json
