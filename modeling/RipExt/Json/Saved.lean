import RipExt.Json.Failures
import RipExt.Json.Reread

/-! Documents that a plugin writes and reads again, as a string or in a file: with flags that suit
the document the value comes back, up to the rounding of its real numbers. -/
namespace RipExt.Json

section Trees
variable {f : Double → Double} {s : Store} {flags : DumpFlags} {depth : ℕ} {json : Ref}

theorem items_depth_le {ts : List Text} (h : ∀ t ∈ ts, t.depth ≤ depth) :
    (Items.ofList ts).depth ≤ depth := by
  induction ts with
  | nil => exact Nat.zero_le _
  | cons t ts ih =>
    rw [List.forall_mem_cons] at h
    exact max_le h.1 (ih h.2)

theorem members_depth_le {ms : List (Bytes × Text)} (h : ∀ m ∈ ms, m.2.depth ≤ depth) :
    (Members.ofList ms).depth ≤ depth := by
  induction ms with
  | nil => exact Nat.zero_le _
  | cons m ms ih =>
    rw [List.forall_mem_cons] at h
    exact max_le h.1 (ih h.2)

theorem items_distinct {ts : List Text} (h : ∀ t ∈ ts, t.Distinct) :
    (Items.ofList ts).Distinct := by
  induction ts with
  | nil => trivial
  | cons t ts ih =>
    rw [List.forall_mem_cons] at h
    exact ⟨h.1, ih h.2⟩

theorem members_keys (ms : List (Bytes × Text)) : (Members.ofList ms).keys = ms.map (·.1) := by
  induction ms with
  | nil => rfl
  | cons m ms ih => rw [Members.ofList, Members.keys, ih, List.map_cons]

theorem members_distinct {ms : List (Bytes × Text)} (hkeys : (ms.map (·.1)).Nodup)
    (h : ∀ m ∈ ms, m.2.Distinct) : (Members.ofList ms).Distinct := by
  induction ms with
  | nil => trivial
  | cons m ms ih =>
    rw [List.map_cons, List.nodup_cons] at hkeys
    rw [List.forall_mem_cons] at h
    refine ⟨?_, h.1, ih hkeys.2 h.2⟩
    rw [members_keys]
    exact hkeys.1

theorem Dump.writeOrder_keys (flags : DumpFlags) {es : List Entry} (h : (es.map (·.key)).Nodup) :
    ((Dump.writeOrder flags es).map (·.key)).Nodup := by
  unfold Dump.writeOrder
  split_ifs
  · exact ((List.perm_insertionSort _ es).map _).nodup_iff.mpr h
  · exact h

/-- The tree of a document is no deeper than it is nested, and no object in it has a key twice. -/
theorem ordered_tree (f : Double → Double) (flags : DumpFlags) (hs : Stored s)
    (hnested : nestedWithin s depth json = true) :
    ((tree f s depth json).ordered flags).depth ≤ depth ∧
      ((tree f s depth json).ordered flags).Distinct := by
  refine nested_induction hs (Q := fun depth json =>
    ((tree f s depth json).ordered flags).depth ≤ depth ∧
      ((tree f s depth json).ordered flags).Distinct) ?_ ?_ ?_ ?_ ?_ ?_ ?_ ?_ hnested
  · intro d
    rw [tree, Text.ordered_of_sorted rfl]
    exact ⟨Nat.le_add_left 1 d, trivial⟩
  · intro d
    rw [tree, Text.ordered_of_sorted rfl]
    exact ⟨Nat.le_add_left 1 d, trivial⟩
  · intro d
    rw [tree, Text.ordered_of_sorted rfl]
    exact ⟨Nat.le_add_left 1 d, trivial⟩
  · intro d n v hread hv
    rw [tree_integer hread, Text.ordered_of_sorted rfl]
    exact ⟨Nat.le_add_left 1 d, trivial⟩
  · intro d n v hread
    rw [tree_real hread, Text.ordered_of_sorted rfl]
    exact ⟨Nat.le_add_left 1 d, trivial⟩
  · intro d n v hread hv
    rw [tree_string hread, Text.ordered_of_sorted rfl]
    exact ⟨Nat.le_add_left 1 d, trivial⟩
  · intro d n table hread ih
    rw [tree_array hread, ordered_array, List.map_map]
    have hall : ∀ t ∈ table.map (Text.ordered flags ∘ tree f s d), t.depth ≤ d ∧ t.Distinct := by
      intro t ht
      obtain ⟨v, hv, rfl⟩ := List.mem_map.mp ht
      exact ih v hv
    exact ⟨Nat.succ_le_succ (items_depth_le fun t ht => (hall t ht).1),
      items_distinct fun t ht => (hall t ht).2⟩
  · intro d n es hread hkeys hnodup ih
    rw [tree_object hread, ordered_object]
    have hall : ∀ m ∈ (Dump.writeOrder flags es).map fun e =>
        (e.key, (tree f s d e.value).ordered flags), m.2.depth ≤ d ∧ m.2.Distinct := by
      intro m hm
      obtain ⟨e, he, rfl⟩ := List.mem_map.mp hm
      exact ih e (Dump.mem_writeOrder.mp he)
    refine ⟨Nat.succ_le_succ (members_depth_le fun m hm => (hall m hm).1),
      members_distinct ?_ fun m hm => (hall m hm).2⟩
    rw [List.map_map]
    exact Dump.writeOrder_keys flags hnodup

theorem denotesItems_ofList {table : List Ref} {g : Ref → Text} (h : ∀ v ∈ table, Denotes s (g v) v) :
    DenotesItems s (.ofList (table.map g)) table := by
  induction table with
  | nil => rfl
  | cons v table ih =>
    rw [List.forall_mem_cons] at h
    exact ⟨v, table, rfl, h.1, ih h.2⟩

theorem denotesMembers_ofList {es : List Entry} {g : Entry → Text}
    (h : ∀ e ∈ es, Denotes s (g e) e.value) :
    DenotesMembers s (.ofList (es.map fun e => (e.key, g e))) es := by
  induction es with
  | nil => rfl
  | cons e es ih =>
    rw [List.forall_mem_cons] at h
    exact ⟨e, es, rfl, rfl, h.1, ih h.2⟩

/-- The tree of a document has its value. -/
theorem tree_denotes (hs : Stored s)
    (hf : ∀ json x, Store.read s json = some (some (.real x)) → x.Same (f x))
    (hnested : nestedWithin s depth json = true) : Denotes s (tree f s depth json) json := by
  refine nested_induction hs (Q := fun depth json => Denotes s (tree f s depth json) json)
    (fun _ => rfl) (fun _ => rfl) (fun _ => rfl) ?_ ?_ ?_ ?_ ?_ hnested
  · intro d n v hread hv
    rw [tree_integer hread]
    exact hread
  · intro d n v hread
    rw [tree_real hread]
    exact ⟨v, hread, hf _ v hread⟩
  · intro d n v hread hv
    rw [tree_string hread]
    exact hread
  · intro d n table hread ih
    rw [tree_array hread]
    exact ⟨table, hread, denotesItems_ofList ih⟩
  · intro d n es hread hkeys hnodup ih
    rw [tree_object hread]
    exact ⟨es, hread, denotesMembers_ofList ih⟩

end Trees

section Reading
variable {printf : ℕ → Double → Bytes} {strtod : Bytes → Option Double} {s : Store}
  {flags : LoadFlags} {dumpFlags : DumpFlags}

/-- The C library as the encoder calls it with these flags. -/
def Dump.floatText (printf : ℕ → Double → Bytes) (strtod : Bytes → Option Double)
    (flags : DumpFlags) : FloatText :=
  ⟨printf (if flags.precision = 0 then 17 else flags.precision), strtod⟩

/-- A number as it is read from its text, which need not have all of its digits. -/
def Dump.rounded (printf : ℕ → Double → Bytes) (strtod : Bytes → Option Double) (flags : DumpFlags)
    (x : Double) : Double := ((Dump.dtostr printf flags x).bind strtod).getD x

/-- What is assumed of the C library to read the numbers in the store. -/
def RealsReadable (C : FloatText) (s : Store) : Prop :=
  ∀ json x, Store.read s json = some (some (.real x)) → C.Readable x

theorem RealsReadBack.readable {C : FloatText} (h : RealsReadBack C s) : RealsReadable C s :=
  fun json x hread => (h json x hread).readable

theorem readsAs_rounded (flags : LoadFlags) {x : Double}
    (hx : (Dump.floatText printf strtod dumpFlags).Readable x) :
    ∃ text, Dump.dtostr printf dumpFlags x = some text ∧ text ≠ [] ∧
      ReadsAs strtod flags text (.real (Dump.rounded printf strtod dumpFlags x)) := by
  obtain ⟨text, y, htext, hy, hreads, hne⟩ := readsAs_real flags hx
  have htext' : Dump.dtostr printf dumpFlags x = some text := htext
  have hy' : strtod text = some y := hy
  refine ⟨text, htext', hne, ?_⟩
  rw [Dump.rounded, htext', Option.bind_some, hy', Option.getD_some]
  exact hreads

theorem rounded_same {x : Double} (hx : (Dump.floatText printf strtod dumpFlags).ReadsBack x) :
    x.Same (Dump.rounded printf strtod dumpFlags x) := by
  obtain ⟨m, hm, hprintf, hstrtod⟩ := hx
  obtain ⟨y, hy, hsame⟩ := hstrtod m.trimmed hm.trimmed_wellFormed rfl m.trimmed_magnitude
  have htext : Dump.dtostr printf dumpFlags x = some m.trimmed.text := jsonpDtostr_numeral hm hprintf
  have hy' : strtod m.trimmed.text = some y := hy
  rw [Dump.rounded, htext, Option.bind_some, hy', Option.getD_some]
  exact hsame

/-- The decoder reads the tree of a document in the text that the encoder prints. -/
theorem readsAs_tree (hs : Stored s)
    (hreals : RealsReadable (Dump.floatText printf strtod dumpFlags) s)
    (hint : flags.decodeIntAsReal = false)
    (hzero : ∀ json v, Store.read s json = some (some (.string v)) → 0 ∈ v → flags.allowNul = true)
    {depth : ℕ} {json : Ref} (hnested : nestedWithin s depth json = true) :
    ∀ level, ReadsAs strtod flags
      (((tree id s depth json).ordered dumpFlags).print printf dumpFlags false level)
      ((tree (Dump.rounded printf strtod dumpFlags) s depth json).ordered dumpFlags) := by
  refine nested_induction hs (Q := fun depth json => ∀ level, ReadsAs strtod flags
    (((tree id s depth json).ordered dumpFlags).print printf dumpFlags false level)
    ((tree (Dump.rounded printf strtod dumpFlags) s depth json).ordered dumpFlags))
    ?_ ?_ ?_ ?_ ?_ ?_ ?_ ?_ hnested
  · intro d level
    rw [tree, tree, Text.ordered_of_sorted rfl]
    exact readsAs_true
  · intro d level
    rw [tree, tree, Text.ordered_of_sorted rfl]
    exact readsAs_false
  · intro d level
    rw [tree, tree, Text.ordered_of_sorted rfl]
    exact readsAs_null
  · intro d n v hread hv level
    rw [tree_integer hread, tree_integer hread, Text.ordered_of_sorted rfl]
    exact readsAs_integer hint hv
  · intro d n v hread level
    obtain ⟨text, htext, -, hreads⟩ := readsAs_rounded flags (hreals _ v hread)
    rw [tree_real hread, tree_real hread, Text.ordered_of_sorted rfl, Text.ordered_of_sorted rfl,
      Text.print, id_eq, htext]
    exact hreads
  · intro d n v hread hv level
    rw [tree_string hread, tree_string hread, Text.ordered_of_sorted rfl]
    exact readsAs_string hv (hzero _ v hread)
  · intro d n table hread ih level
    rw [tree_array hread, tree_array hread, ordered_array, ordered_array, Text.print,
      items_texts_ofList, List.map_map, List.map_map, List.map_map]
    refine readsAs_array dumpFlags level ?_
    rw [List.forall₂_map_left_iff, List.forall₂_map_right_iff, List.forall₂_same]
    exact fun v hv => ih v hv (level + 1)
  · intro d n es hread hkeys hnodup ih level
    rw [tree_object hread, tree_object hread, ordered_object, ordered_object, Text.print,
      members_texts_ofList, List.map_map]
    refine readsAs_object level ?_ ?_ ?_
    · rw [List.forall₂_map_left_iff, List.forall₂_map_right_iff, List.forall₂_same]
      exact fun e he => ⟨_, rfl, ih e (Dump.mem_writeOrder.mp he) (level + 1)⟩
    · intro m hm
      obtain ⟨e, he, rfl⟩ := List.mem_map.mp hm
      exact hkeys e (Dump.mem_writeOrder.mp he)
    · rw [List.map_map]
      exact Dump.writeOrder_keys dumpFlags hnodup

end Reading

section Texts
variable {printf : ℕ → Double → Bytes} {strtod : Bytes → Option Double} {s : Store}
  {flags : LoadFlags} {dumpFlags : DumpFlags} {depth : ℕ} {json : Ref}

theorem RealsReadable.print (h : RealsReadable (Dump.floatText printf strtod dumpFlags) s) :
    RealsPrint printf dumpFlags s := by
  intro json x hread
  obtain ⟨text, htext, hne, -⟩ := readsAs_rounded {} (h json x hread)
  exact ⟨text, htext, hne⟩

/-- The text that `json_dumps` returns is that of the tree. -/
theorem jsonDumps_print (hs : Stored s) (hbound : Bounded s) (hprintf : PrintsPlain printf)
    (hreals : RealsPrint printf dumpFlags s) (hnested : nestedWithin s depth json = true)
    (hany : jsonIsContainer s json = some true ∨
      dumpFlags.encodeAny = true ∧ (jsonIsContainer s json).isSome) :
    Dump.jsonDumps printf s dumpFlags json = some (some
      (((tree id s depth json).ordered dumpFlags).print printf dumpFlags dumpFlags.embed 0)) := by
  obtain ⟨out, hdump, hout⟩ := doDump_prints hs hbound hreals Dump.takes_strbuffer depth 0
    dumpFlags.embed hnested ⟨List.nodup_nil, by simp⟩
    (by simp : s.next + 1 + ([] : List ℕ).length = s.next + 1) (by simp) [] [] rfl
  rw [List.nil_append] at hout
  subst hout
  have hcallback : Dump.jsonDumpCallback printf s Dump.dumpToStrbuffer dumpFlags json [] =
      some (((tree id s depth json).ordered dumpFlags).print printf dumpFlags dumpFlags.embed 0,
        true) := by
    unfold Dump.jsonDumpCallback
    rcases hany with hcontainer | ⟨hencode, hsome⟩
    · rw [hcontainer, Option.bind_some, if_neg (by simp)]
      exact hdump
    · obtain ⟨container, hcontainer⟩ := Option.isSome_iff_exists.mp hsome
      rw [hcontainer, Option.bind_some, if_neg (by simp [hencode])]
      exact hdump
  rw [Dump.jsonDumps_eq hprintf, hcallback, Option.map_some, if_pos rfl]

/-- The tree of an object or an array is one. -/
theorem tree_container (f : Double → Double) (dumpFlags : DumpFlags)
    (hnested : nestedWithin s depth json = true)
    (hcontainer : jsonIsContainer s json = some true) :
    (∃ is, (tree f s depth json).ordered dumpFlags = .array is) ∨
      ∃ ms, (tree f s depth json).ordered dumpFlags = .object ms := by
  obtain ⟨d, rfl⟩ := nestedWithin_pos hnested
  cases json with
  | node n =>
    obtain ⟨p, hread, hcontainer⟩ := Option.bind_eq_some_iff.mp hcontainer
    split at hcontainer
    · rw [tree_object hread, ordered_object]
      exact .inr ⟨_, rfl⟩
    · rw [tree_array hread, ordered_array]
      exact .inl ⟨_, rfl⟩
    · cases hcontainer
  | _ => cases hcontainer

/-- The document that the decoder makes of a text it reads. -/
theorem ReadsAs.document {text : Bytes} {t : Text} (h : ReadsAs strtod flags text t)
    (hdepth : t.depth ≤ jsonParserMaxDepth)
    (ht : flags.decodeAny = true ∨ (∃ is, t = .array is) ∨ ∃ ms, t = .object ms)
    (report : Bytes → JsonError) :
    (jsonLoadb strtod flags report text).text = t ∧
      (jsonLoadb strtod flags report text).Accepted := by
  have hscan := h jsonParserMaxDepth [] hdepth (by simp [Stops])
  rw [List.append_nil] at hscan
  have hcomplete := scanValue_complete strtod flags jsonParserMaxDepth (lexScan strtod flags text)
  rw [hscan] at hcomplete
  have hfirst : ¬(flags.decodeAny = false ∧ (lexScan strtod flags text).1 ≠ .char 91 ∧
      (lexScan strtod flags text).1 ≠ .char 123) := by
    rintro ⟨hany, harray, hobject⟩
    rcases ht with hdecode | ht
    · rw [hdecode] at hany
      cases hany
    · exact (scanValue_container hscan ht).elim harray hobject
  have hdocument : jsonLoadb strtod flags report text = ⟨t, true, report text⟩ := by
    unfold jsonLoadb
    dsimp only
    rw [if_neg hfirst, hscan]
    simp [lexScan]
  rw [hdocument]
  exact ⟨rfl, hcomplete, rfl⟩

end Texts

section Natives
variable {E : Host} {printf : ℕ → Double → Bytes} {strtod : Bytes → Option Double} {s : State}
  {calls : List Call} {json : Ref}

/-- The encoder of the library behind `ToString` and `ToFile`. -/
def Dump.encoder (printf : ℕ → Double → Bytes) (F : Dump.FileHost) : Encoder where
  jsonDumps flags s json := (Dump.jsonDumps printf s (.ofNat flags) json).getD none
  jsonDumpFile flags s json path :=
    ((Dump.jsonDumpFile printf s (.ofNat flags) F (fun _ => none) path json).map (·.2)).getD false

theorem run_bounded (hrun : (system E).run .empty calls = some s) : Bounded s.heap :=
  (reachable_balanced ⟨calls, hrun⟩).bound

theorem fromText_opens {d : Document} (hd : d.Accepted) (hdistinct : d.text.Distinct)
    (hbound : Bounded s.heap) (error : ℕ → NativeError) :
    ∃ s' hndl' json', fromText E s d error none = some (s', .handle hndl') ∧
      readHandle hndl' s'.handles = some json' ∧ Denotes s'.heap d.text json' ∧
      ∀ n < s.heap.next, s'.heap.cells n = s.heap.cells n := by
  obtain ⟨json', heap, hparse, hgrows, hdenotes⟩ :=
    parseValue_denotes (H := E.toHashing) d.text hd.1 hdistinct hbound
  refine ⟨(State.openHandle { s with heap } json').1, s.nextHandle, json', ?_, ?_,
    hdenotes.mono read_of_since, fun n hn => hgrows.cells n hn id⟩
  · simp only [fromText, jsonLoads, hparse, hd.2]
    rfl
  · simp [State.openHandle, readHandle, takeHandle]

/-- The flags suit the document: it is written as a whole, integers stay integers, zero bytes in
strings are allowed if there are any, a scalar is allowed at both ends, and the decoder goes as deep
as the document does. All other flags are free. -/
structure Rereads (dumpFlags : DumpFlags) (flags : LoadFlags) (s : Store) (json : Ref) : Prop where
  whole : dumpFlags.embed = false
  integers : flags.decodeIntAsReal = false
  zeros : ∀ json v, Store.read s json = some (some (.string v)) → 0 ∈ v → flags.allowNul = true
  values : jsonIsContainer s json = some true ∨
    dumpFlags.encodeAny = true ∧ flags.decodeAny = true
  nested : nestedWithin s jsonParserMaxDepth json = true

theorem Rereads.text {dumpFlags : DumpFlags} {flags : LoadFlags} {heap : Store} (hs : Stored heap)
    (hbound : Bounded heap) (hprintf : PrintsPlain printf)
    (hreals : RealsReadable (Dump.floatText printf strtod dumpFlags) heap)
    (h : Rereads dumpFlags flags heap json) : ∃ text,
      Dump.jsonDumps printf heap dumpFlags json = some (some text) ∧
      ReadsAs strtod flags text ((tree (Dump.rounded printf strtod dumpFlags) heap jsonParserMaxDepth
        json).ordered dumpFlags) := by
  have hread : (jsonIsContainer heap json).isSome := by
    obtain ⟨d, hd⟩ := nestedWithin_pos h.nested
    have hnested := h.nested
    rw [hd, nestedWithin] at hnested
    unfold jsonIsContainer
    cases hr : Store.read heap json with
    | none =>
      rw [hr] at hnested
      cases hnested
    | some p =>
      cases p with
      | none => rfl
      | some p => cases p <;> rfl
  have hdump := jsonDumps_print hs hbound hprintf hreals.print h.nested
    (h.values.imp_right fun hany => ⟨hany.1, hread⟩)
  rw [h.whole] at hdump
  exact ⟨_, hdump, readsAs_tree hs hreals h.integers h.zeros h.nested 0⟩

/-- After every run of calls, a document that is written and read again with flags that suit it
comes back, if the file takes every write and the C library reads the real numbers that it prints:
`ToFile` leaves in the file the text that `ToString` gives, `FromFile` and `FromString` read that
text, and the new handle has the value of the document, with the real numbers as they are rounded and
the members as they are sorted. What was in the store stays as it is. -/
theorem written_document_comes_back (E : Host) (hprintf : PrintsPlain printf)
    (hcalls : (system E).Along (fun _ c => c.Received strtod) .empty calls)
    (hrun : (system E).run .empty calls = some s) {hndl : ℕ}
    (hj : readHandle hndl s.handles = some json) (flags : ℕ) (loadFlags : LoadFlags)
    (hflags : Rereads (.ofNat flags) loadFlags s.heap json)
    (hreals : RealsReadable (Dump.floatText printf strtod (.ofNat flags)) s.heap)
    {F : Dump.FileHost} (hF : F.TakesAll) (path : Bytes) (hopen : F.fopen path = true)
    (hclose : F.fclose path = true) (maxlength : ℕ) (report : Bytes → JsonError) :
    ∃ text s' hndl' json',
      toFile E (Dump.encoder printf F) s hndl path flags = some (s, .bool true) ∧
      (∀ files, Dump.jsonDumpFile printf s.heap (.ofNat flags) F files path json =
        some (Function.update files path (some text), true)) ∧
      toString E (Dump.encoder printf F) s hndl maxlength flags =
        some (s, .text (E.stringToLocalUTF8 maxlength text)) ∧
      fromFile E s (jsonLoadb strtod loadFlags report text) none = some (s', .handle hndl') ∧
      fromString E s (jsonLoadb strtod loadFlags report text) none = some (s', .handle hndl') ∧
      readHandle hndl' s'.handles = some json' ∧
      Denotes s'.heap ((tree (Dump.rounded printf strtod (.ofNat flags)) s.heap jsonParserMaxDepth
        json).ordered (.ofNat flags)) json' ∧
      (RealsReadBack (Dump.floatText printf strtod (.ofNat flags)) s.heap →
        Denotes s.heap (tree (Dump.rounded printf strtod (.ofNat flags)) s.heap jsonParserMaxDepth
          json) json) ∧
      ∀ n < s.heap.next, s'.heap.cells n = s.heap.cells n := by
  have hs := (run_valid hcalls hrun).heap
  have hbound := run_bounded hrun
  obtain ⟨text, hdump, hreads⟩ := hflags.text hs hbound hprintf hreals
  have hfile (files : Bytes → Option Bytes) :
      Dump.jsonDumpFile printf s.heap (.ofNat flags) F files path json =
        some (Function.update files path (some text), true) := by
    rw [Dump.jsonDumpFile_takesAll hprintf hF hopen hdump, hclose]
  obtain ⟨hdepth, hdistinct⟩ := ordered_tree (Dump.rounded printf strtod (.ofNat flags))
    (.ofNat flags) hs hflags.nested
  have hdecodes := hflags.values.symm.imp And.right
    (tree_container (Dump.rounded printf strtod (.ofNat flags)) (.ofNat flags) hflags.nested)
  obtain ⟨htext, haccepted⟩ := hreads.document hdepth hdecodes report
  obtain ⟨s', hndl', json', hopens, hhandle, hdenotes, hkept⟩ := fromText_opens (E := E) haccepted
    (by rw [htext]; exact hdistinct) hbound .noObjectHandle
  rw [htext] at hdenotes
  refine ⟨text, s', hndl', json', ?_, hfile, ?_, hopens, hopens, hhandle, hdenotes, ?_, hkept⟩
  · simp only [toFile, getJSONFromHandle, hj, Dump.encoder, hfile, Option.map_some, Option.getD_some]
  · simp only [toString, getJSONFromHandle, hj, Dump.encoder, hdump, Option.getD_some]
  · intro hback
    exact tree_denotes hs (fun json x hread => rounded_same (hback json x hread)) hflags.nested

end Natives

/-- The number `1.5` in every precision. -/
def halfPrintf (_ : ℕ) (_ : Double) : Bytes := [49, 46, 53]

def halfStrtod (_ : Bytes) : Option Double := some ⟨false, 3, -1⟩

theorem half_readable (flags : DumpFlags) (x : Double) :
    (Dump.floatText halfPrintf halfStrtod flags).Readable x := by
  have hdigits (b : UInt8) (hb : b ∈ [49] ∨ b ∈ [53]) : isDigit b = true := by
    rcases hb with hb | hb <;> rw [List.mem_singleton.mp hb] <;> rfl
  exact ⟨⟨false, [49], [53], none⟩, ⟨⟨⟨by simp, fun b hb => hdigits b (.inl hb)⟩, by simp,
    fun b hb => hdigits b (.inr hb), by simp⟩, by simp, by decide⟩, rfl, _, rfl⟩

theorem half_prints : PrintsPlain halfPrintf := fun _ _ =>
  piece_plain (List.cons_ne_nil _ _) rfl

/-- Files that take everything. -/
def plainFiles : Dump.FileHost := ⟨fun _ => true, fun contents chunk => (contents ++ chunk, true),
  fun _ => true⟩

theorem plainFiles_takesAll : plainFiles.TakesAll := fun _ _ _ => rfl

/-- A test of all nodes of a store. -/
def Store.all (s : Store) (test : Payload → Bool) : Bool :=
  (List.range s.next).all fun n => ((s.cells n).map RefCount.Cell.payload).all test

theorem Store.all_read {s : Store} {test : Payload → Bool} (h : s.all test = true)
    (hbound : Bounded s) {json : Ref} {p : Payload} (hread : Store.read s json = some (some p)) :
    test p = true := by
  cases json with
  | node n =>
    obtain ⟨c, hc, hpayload⟩ := Option.map_eq_some_iff.mp hread
    have hn := List.all_eq_true.mp h n (List.mem_range.mpr (hbound.lt_next hc))
    rw [hc, Option.map_some, Option.some.inj hpayload] at hn
    exact hn
  | _ => cases hread

/-- A string without a zero byte, or something else. -/
def Payload.isText : Payload → Bool
  | .string v => 0 ∉ v
  | _ => true

/-- An object with the number `1.5` and a string that is not ASCII. -/
def numberRun : List Call :=
  [.createObject none, .setObject 1 [98] (.float 1069547520),
    .setObject 1 [97] (.string [195, 169])]

/-- The object is written with `JSON_INDENT(2) | JSON_ENSURE_ASCII | JSON_SORT_KEYS`. -/
theorem numberRun_comes_back : ∃ s text s' hndl' json',
    (system plainHost).run .empty numberRun = some s ∧
    toFile plainHost (Dump.encoder halfPrintf plainFiles) s 1 (ascii "data.json") 194 =
      some (s, .bool true) ∧
    fromFile plainHost s (jsonLoadb halfStrtod {} (fun _ => ⟨0, 0, []⟩) text) none =
      some (s', .handle hndl') ∧
    readHandle hndl' s'.handles = some json' ∧
    Denotes s'.heap ((tree (Dump.rounded halfPrintf halfStrtod (.ofNat 194)) s.heap
      jsonParserMaxDepth (.node 0)).ordered (.ofNat 194)) json' := by
  have hview : ((system plainHost).run .empty numberRun).map (fun s => (s.heap.all Payload.isText,
      readHandle 1 s.handles, jsonIsContainer s.heap (.node 0), nestedWithin s.heap 2 (.node 0))) =
      some (true, some (.node 0), some true, true) := by
    decide +kernel
  obtain ⟨s, hs, hstate⟩ := Option.map_eq_some_iff.mp hview
  simp only [Prod.mk.injEq] at hstate
  obtain ⟨hall, hhandle, hcontainer, hnested⟩ := hstate
  have hzeros : ∀ json v, Store.read s.heap json = some (some (.string v)) → 0 ∈ v →
      ({} : LoadFlags).allowNul = true := by
    intro json v hread hzero
    have htext := Store.all_read hall (run_bounded hs) hread
    exact absurd hzero (of_decide_eq_true htext)
  have hcalls : (system plainHost).Along (fun _ c => c.Received halfStrtod) .empty numberRun :=
    ⟨trivial, fun _ _ => ⟨(by decide : (0 : UInt8) ∉ [98]), fun _ _ =>
      ⟨(by decide : (0 : UInt8) ∉ [97]), fun _ _ => trivial⟩⟩⟩
  have hflags : Rereads (.ofNat 194) {} s.heap (.node 0) :=
    ⟨by decide, rfl, hzeros, .inl hcontainer, nestedWithin_mono (by decide) hnested⟩
  obtain ⟨text, s', hndl', json', hfile, -, -, hfrom, -, hread, hdenotes, -⟩ :=
    written_document_comes_back plainHost half_prints hcalls hs hhandle 194 {} hflags
      (fun _ x _ => half_readable _ x) plainFiles_takesAll (ascii "data.json") rfl rfl 64
      fun _ => ⟨0, 0, []⟩
  exact ⟨s, text, s', hndl', json', hs, hfile, hfrom, hread, hdenotes⟩

end RipExt.Json
