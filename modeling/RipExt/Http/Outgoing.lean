import RipExt.Http.HeaderLines
import RipExt.Http.Request

/-! The header lines that a request is sent with: what `BuildHeaders` gives curl after any
sequence of `SetHeader` calls, for every operation of `HTTPRequest` and `HTTPClient`. -/
namespace RipExt.Http

section Sending

/-- What sends a request; the five methods of `HTTPRequest` share `Perform`, those of
`HTTPClient` share `Request`. -/
inductive Operation where
  | perform | downloadFile | uploadFile | postForm
  | clientRequest | clientDownloadFile | clientUploadFile
  deriving DecidableEq, Repr

def Operation.isClient : Operation → Bool
  | .perform | .downloadFile | .uploadFile | .postForm => false
  | .clientRequest | .clientDownloadFile | .clientUploadFile => true

/-- The headers that the extension brings itself. -/
def Operation.own : Operation → List (Bytes × Bytes)
  | .perform | .clientRequest => [(accept, applicationJson), (contentType, applicationJson)]
  | .downloadFile | .uploadFile | .clientDownloadFile | .clientUploadFile =>
    [(accept, anyType), (contentType, octetStream)]
  | .postForm => [(accept, applicationJson), (contentType, formUrlencoded)]

/-- `HTTPRequest.SetHeader` as a plugin calls it; a call that throws leaves the request. -/
def setHeaders (calls : List (Bytes × Bytes)) (r : HTTPRequest) : HTTPRequest :=
  calls.foldl (fun r c => ((setRequestHeader c.1 (some c.2) r).toOption).getD r) r

/-- `HTTPClient.SetHeader` as a plugin calls it: `SetClientHeader` checks nothing. -/
def setClientHeaders (calls : List (Bytes × Bytes)) (c : HTTPClient) : HTTPClient :=
  calls.foldl (fun c call => c.setHeader call.1 call.2) c

/-- The calls that set a header. -/
def Operation.accepted (op : Operation) (calls : List (Bytes × Bytes)) : List (Bytes × Bytes) :=
  if op.isClient then calls else calls.filter fun c => c.1 ≠ []

/-- The list that is given to curl. -/
def Operation.sent (op : Operation) (I : Iteration) (url : Bytes) (calls : List (Bytes × Bytes)) :
    List Bytes :=
  let request := setHeaders calls (.new url)
  let client := setClientHeaders calls (.new url)
  match op with
  | .perform => request.buildHeaders I
  | .downloadFile => request.setFileHeaders.buildHeaders I
  | .uploadFile => request.setFileHeaders.buildHeaders I
  | .postForm => request.setFormHeaders.buildHeaders I
  | .clientRequest => client.buildHeaders I applicationJson applicationJson
  | .clientDownloadFile => client.buildHeaders I anyType octetStream
  | .clientUploadFile => client.buildHeaders I anyType octetStream

/-- The field name of a header line. -/
def fieldName (line : Bytes) : Bytes := line.takeWhile (· ≠ 58)

/-- The line has the name, in some spelling, and the value. -/
def Carries (line name value : Bytes) : Prop :=
  lowercase (fieldName line) = lowercase name ∧ line = fieldName line ++ 58 :: 32 :: value

/-- The value of the last call that sets a name, in any spelling. -/
def lastSet (sets : List (Bytes × Bytes)) (name : Bytes) : Option Bytes :=
  ((sets.filter fun e => lowercase e.1 = lowercase name).getLast?).map (·.2)

/-- The header that the extension does not leave to the plugin. -/
def Operation.Fixed (op : Operation) (name : Bytes) : Prop :=
  op = .postForm ∧ lowercase name = lowercase contentType

/-- No name is sent twice, every name the plugin set is sent with the plugin's last value, and
the extension's own headers are sent only if the plugin did not set them. -/
def LastWordWins (op : Operation) (I : Iteration) (url : Bytes) (calls : List (Bytes × Bytes)) :
    Prop :=
  let lines := op.sent I url calls
  let sets := op.accepted calls
  (lines.map fun line => lowercase (fieldName line)).Nodup ∧
    (∀ e ∈ sets, ¬op.Fixed e.1 →
      ∃ line ∈ lines, ∃ value, lastSet sets e.1 = some value ∧ Carries line e.1 value) ∧
    ∀ line ∈ lines,
      (∃ e ∈ sets, ∃ value, lastSet sets e.1 = some value ∧ Carries line e.1 value) ∨
      ∃ d ∈ op.own, Carries line d.1 d.2 ∧
        ∀ e ∈ sets, lowercase e.1 = lowercase d.1 → op.Fixed e.1

/-- The headers that can be sent as the plugin means them: no name has a colon, a line fits its
buffer, a name has one spelling, and one of the extension's own names is set only where that
decides what is sent. -/
structure Operation.Settable (op : Operation) (sets : List (Bytes × Bytes)) : Prop where
  fits : ∀ e ∈ sets, ¬op.Fixed e.1 → 58 ∉ e.1 ∧
    ∀ value ∈ lastSet sets e.1, e.1.length + 2 + value.length ≤ 8191
  spelling : ∀ e ∈ sets, ∀ e' ∈ sets, lowercase e.1 = lowercase e'.1 → e.1 = e'.1
  own : ∀ e ∈ sets, ∀ d ∈ op.own, lowercase e.1 = lowercase d.1 →
    op.isClient = false ∧ e.1 = d.1 ∧
      (op = .perform ∨ op.Fixed e.1 ∨ lastSet sets e.1 = some d.2)

end Sending

section LastWrite
variable {name value : Bytes} {entries entries' : List (Bytes × Bytes)} {headers : HTTPHeaderMap}

def HTTPHeaderMap.setAll (headers : HTTPHeaderMap) (entries : List (Bytes × Bytes)) :
    HTTPHeaderMap :=
  entries.foldl (fun h e => HTTPHeaderMap.replace h e.1 e.2) headers

/-- The value that is written last under a name. -/
def lastValue (entries : List (Bytes × Bytes)) (name : Bytes) : Option Bytes :=
  ((entries.filter fun e => e.1 = name).getLast?).map (·.2)

theorem setAll_append :
    headers.setAll (entries ++ entries') = (headers.setAll entries).setAll entries' :=
  List.foldl_append

theorem lastValue_append : lastValue (entries ++ entries') name =
    (lastValue entries' name).or (lastValue entries name) := by
  unfold lastValue
  rw [List.filter_append, List.getLast?_append, Option.map_or]

theorem lastValue_eq_none : lastValue entries name = none ↔ ∀ e ∈ entries, e.1 ≠ name := by
  unfold lastValue
  rw [Option.map_eq_none_iff, List.getLast?_eq_none_iff, List.filter_eq_nil_iff]
  simp

theorem lastValue_map (f : Bytes → Bytes) (entries : List (Bytes × Bytes)) (name : Bytes) :
    lastValue (entries.map fun e => (e.1, f e.2)) name = (lastValue entries name).map f := by
  unfold lastValue
  rw [List.filter_map, List.getLast?_map, Option.map_map, Option.map_map]
  rfl

theorem mem_of_lastValue (h : lastValue entries name = some value) : (name, value) ∈ entries := by
  obtain ⟨e, he, rfl⟩ := Option.map_eq_some_iff.mp h
  obtain ⟨hmem, hname⟩ := List.mem_filter.mp (List.mem_of_getLast? he)
  obtain rfl : e.1 = name := by simpa using hname
  exact hmem

theorem exists_lastValue {e : Bytes × Bytes} (he : e ∈ entries) :
    ∃ value, lastValue entries e.1 = some value := by
  apply Option.ne_none_iff_exists'.mp
  intro hnone
  exact lastValue_eq_none.mp hnone e he rfl

/-- The entries of a map are the last writes. -/
theorem mem_setAll : (name, value) ∈ HTTPHeaderMap.setAll [] entries ↔
    lastValue entries name = some value := by
  induction entries using List.reverseRecOn with
  | nil => simp [HTTPHeaderMap.setAll, lastValue]
  | append_singleton entries e ih =>
    rw [setAll_append, lastValue_append]
    show (name, value) ∈ HTTPHeaderMap.replace _ e.1 e.2 ↔ _
    rw [HTTPHeaderMap.replace, List.mem_cons, List.mem_filter, ih]
    by_cases hname : e.1 = name
    · subst hname
      simp [lastValue, Prod.ext_iff, eq_comm]
    · simp [lastValue, hname, Ne.symm hname, Prod.ext_iff]

theorem setAll_keys_nodup : ((HTTPHeaderMap.setAll [] entries).map Prod.fst).Nodup := by
  induction entries using List.reverseRecOn with
  | nil => simp [HTTPHeaderMap.setAll]
  | append_singleton entries e ih =>
    rw [setAll_append]
    show ((HTTPHeaderMap.replace _ e.1 e.2).map Prod.fst).Nodup
    rw [HTTPHeaderMap.replace, List.map_cons, List.nodup_cons]
    constructor
    · intro hmem
      obtain ⟨e', he', hname⟩ := List.mem_map.mp hmem
      simpa [hname] using (List.mem_filter.mp he').2
    · exact ih.sublist (List.filter_sublist.map _)

end LastWrite

section Entries
variable {op : Operation} {I : Iteration} {url : Bytes} {calls sets : List (Bytes × Bytes)}
  {e x : Bytes × Bytes}

/-- The value that a call leaves in the map. -/
def Operation.stored (op : Operation) (value : Bytes) : Bytes :=
  if op.isClient then value else formatString value

/-- The lines in front of those of the map. -/
def Operation.extra (op : Operation) : List (Bytes × Bytes) := if op.isClient then op.own else []

/-- What the operation writes into the map at the end. -/
def Operation.final : Operation → List (Bytes × Bytes)
  | .downloadFile => Operation.downloadFile.own
  | .uploadFile => Operation.uploadFile.own
  | .postForm => Operation.postForm.own
  | _ => []

/-- What is written into the map, by the constructor, the plugin and the operation. -/
def Operation.writes (op : Operation) (sets : List (Bytes × Bytes)) : List (Bytes × Bytes) :=
  (if op.isClient then [] else Operation.perform.own) ++
    sets.map (fun e => (e.1, op.stored e.2)) ++ op.final

def Operation.entries (op : Operation) (I : Iteration) (sets : List (Bytes × Bytes)) :
    List (Bytes × Bytes) :=
  op.extra ++ I.iter (HTTPHeaderMap.setAll [] (op.writes sets))

theorem setHeaders_headers (calls : List (Bytes × Bytes)) (r : HTTPRequest) :
    (setHeaders calls r).headers = r.headers.setAll
      ((calls.filter fun c => c.1 ≠ []).map fun c => (c.1, formatString c.2)) := by
  induction calls generalizing r with
  | nil => rfl
  | cons c calls ih =>
    have hstep : setHeaders (c :: calls) r =
        setHeaders calls (((setRequestHeader c.1 (some c.2) r).toOption).getD r) := rfl
    rw [hstep, ih]
    by_cases hname : c.1 = []
    · simp [setRequestHeader, formatted, hname, Except.toOption]
    · simp [setRequestHeader, formatted, hname, Except.toOption, HTTPHeaderMap.setAll,
        HTTPRequest.setHeader]

theorem setClientHeaders_headers (calls : List (Bytes × Bytes)) (c : HTTPClient) :
    (setClientHeaders calls c).headers = c.headers.setAll calls := by
  induction calls generalizing c with
  | nil => rfl
  | cons call calls ih => exact ih (c.setHeader call.1 call.2)

theorem sent_eq_of_request (hop : op.isClient = false) (h : op.sent I url calls =
      (I.iter ((setHeaders calls (.new url)).headers.setAll op.final)).map headerLine) :
    op.sent I url calls = (op.entries I (op.accepted calls)).map headerLine := by
  have hnew : (HTTPRequest.new url).headers = HTTPHeaderMap.setAll [] Operation.perform.own := rfl
  have hstored : op.stored = formatString := by
    funext value
    simp [Operation.stored, hop]
  rw [h, setHeaders_headers, hnew, ← setAll_append, ← setAll_append]
  simp [Operation.entries, Operation.extra, Operation.writes, Operation.accepted, hop, hstored]

theorem sent_eq_of_client (hop : op.isClient = true) (h : op.sent I url calls =
      (op.own ++ I.iter (setClientHeaders calls (.new url)).headers).map headerLine)
    (hfinal : op.final = []) :
    op.sent I url calls = (op.entries I (op.accepted calls)).map headerLine := by
  have hstored : op.stored = id := by
    funext value
    simp [Operation.stored, hop]
  rw [h, setClientHeaders_headers]
  simp [Operation.entries, Operation.extra, Operation.writes, Operation.accepted, hop, hstored,
    hfinal, HTTPClient.new]

theorem sent_eq (op : Operation) (I : Iteration) (url : Bytes) (calls : List (Bytes × Bytes)) :
    op.sent I url calls = (op.entries I (op.accepted calls)).map headerLine := by
  cases op with
  | perform | downloadFile | uploadFile | postForm => exact sent_eq_of_request rfl rfl
  | clientRequest | clientDownloadFile | clientUploadFile => exact sent_eq_of_client rfl rfl rfl

end Entries

section Lines
variable {op : Operation} {I : Iteration} {calls sets : List (Bytes × Bytes)}
  {line name value : Bytes} {d e x : Bytes × Bytes}

theorem tolower_eq_colon (b : UInt8) : tolower b = 58 ↔ b = 58 := by
  unfold tolower
  split_ifs with h
  · have hlo : 65 ≤ b.toNat := UInt8.le_iff_toNat_le.mp h.1
    have hhi : b.toNat ≤ 90 := UInt8.le_iff_toNat_le.mp h.2
    rw [← UInt8.toNat_inj, ← UInt8.toNat_inj, UInt8.toNat_add]
    show (b.toNat + 32) % 256 = 58 ↔ b.toNat = 58
    omega
  · rfl

theorem colon_mem_lowercase : 58 ∈ lowercase name ↔ 58 ∈ name := by
  simp [lowercase, tolower_eq_colon]

theorem fieldName_of_not_mem {rest : Bytes} (h : 58 ∉ name) :
    fieldName (name ++ 58 :: rest) = name := by
  have hpre : ∀ b ∈ name, decide (b ≠ 58) = true := by
    intro b hb
    exact decide_eq_true fun heq => h (heq ▸ hb)
  rw [fieldName, List.takeWhile_append_of_pos hpre]
  simp

theorem headerLine_length_le (x : Bytes × Bytes) : (headerLine x).length ≤ 8191 := by
  rw [headerLine, Json.snprintf, List.length_take]
  exact min_le_left _ _

theorem headerLine_of_fits (h : x.1.length + 2 + x.2.length ≤ 8191) :
    headerLine x = x.1 ++ 58 :: 32 :: x.2 := by
  rw [headerLine, Json.snprintf, List.take_of_length_le]
  simp only [List.length_append, List.length_cons]
  omega

theorem fieldName_headerLine (hcolon : 58 ∉ x.1) (hlen : x.1.length + 2 ≤ 8191) :
    fieldName (headerLine x) = x.1 := by
  obtain ⟨n, hn⟩ : ∃ n, 8191 - x.1.length = n + 1 := ⟨8190 - x.1.length, by omega⟩
  have hline : headerLine x = x.1 ++ 58 :: (32 :: x.2).take n := by
    rw [headerLine, Json.snprintf, List.take_append, List.take_of_length_le (by omega)]
    show x.1 ++ List.take (8191 - x.1.length) _ = _
    rw [hn, List.take_succ_cons]
  rw [hline, fieldName_of_not_mem hcolon]

theorem headerLine_carries (hcolon : 58 ∉ x.1) (h : x.1.length + 2 + x.2.length ≤ 8191) :
    Carries (headerLine x) x.1 x.2 := by
  have hname : fieldName (headerLine x) = x.1 := fieldName_headerLine hcolon (by omega)
  exact ⟨congrArg lowercase hname, by rw [hname, headerLine_of_fits h]⟩

theorem Carries.fits (h : Carries line name value) :
    58 ∉ name ∧ name.length + 2 + value.length = line.length := by
  have hcolon : 58 ∉ fieldName line := by
    intro hmem
    simpa using List.mem_takeWhile_imp hmem
  refine ⟨fun hmem => hcolon ?_, ?_⟩
  · rw [← colon_mem_lowercase, h.1]
    exact colon_mem_lowercase.mpr hmem
  · have hlen := congrArg List.length h.2
    rw [List.length_append, ← lowercase_length (fieldName line), h.1, lowercase_length] at hlen
    rw [hlen]
    simp only [List.length_cons]
    omega

/-- A name, in any spelling, that one of the extension's own headers has. -/
theorem own_name_fits (hd : d ∈ op.own) (h : lowercase name = lowercase d.1) :
    58 ∉ name ∧ name.length ≤ 12 := by
  have hown : 58 ∉ lowercase d.1 ∧ (lowercase d.1).length ≤ 12 := by
    cases op <;> simp only [Operation.own, List.mem_cons, List.not_mem_nil, or_false] at hd <;>
      rcases hd with rfl | rfl <;> decide
  rw [← h, lowercase_length, colon_mem_lowercase] at hown
  exact hown

theorem own_carries (hd : d ∈ op.own) : Carries (headerLine d) d.1 d.2 := by
  obtain ⟨hcolon, hlen⟩ := own_name_fits hd rfl
  have hvalue : d.2.length ≤ 100 := by
    cases op <;> simp only [Operation.own, List.mem_cons, List.not_mem_nil, or_false] at hd <;>
      rcases hd with rfl | rfl <;> decide
  exact headerLine_carries hcolon (by omega)

end Lines

section Names
variable {op : Operation} {I : Iteration} {calls sets : List (Bytes × Bytes)} {name value : Bytes}
  {d e x : Bytes × Bytes}

theorem own_names (op : Operation) : op.own.map Prod.fst = [accept, contentType] := by
  cases op <;> rfl

theorem own_lower_nodup (op : Operation) : (op.own.map fun d => lowercase d.1).Nodup := by
  cases op <;> decide

theorem own_inj {d' : Bytes × Bytes} (hd : d ∈ op.own) (hd' : d' ∈ op.own)
    (h : lowercase d.1 = lowercase d'.1) : d = d' :=
  List.inj_on_of_nodup_map (own_lower_nodup op) hd hd' h

theorem exists_own_of_perform (op : Operation) (hd : d ∈ Operation.perform.own) :
    ∃ d' ∈ op.own, d'.1 = d.1 := by
  have hmem : d.1 ∈ op.own.map Prod.fst := by
    rw [own_names op, ← own_names .perform]
    exact List.mem_map_of_mem hd
  exact List.mem_map.mp hmem

theorem final_eq (op : Operation) : op.final = [] ∨ op.final = op.own ∧ op ≠ .perform := by
  cases op <;> simp [Operation.final]

theorem final_eq_own (hop : op.isClient = false) (hperform : op ≠ .perform) :
    op.final = op.own := by
  cases op <;> first | rfl | exact absurd rfl hperform | cases hop

theorem lastValue_own (hd : d ∈ op.own) : lastValue op.own d.1 = some d.2 := by
  obtain ⟨value, hvalue⟩ := exists_lastValue hd
  have heq : (d.1, value) = d := own_inj (mem_of_lastValue hvalue) hd rfl
  rw [hvalue, ← heq]

theorem mem_entries : x ∈ op.entries I sets ↔
    x ∈ op.extra ∨ lastValue (op.writes sets) x.1 = some x.2 := by
  rw [Operation.entries, List.mem_append, (I.perm _).mem_iff, ← mem_setAll]

/-- Every entry has one of the extension's own names or one that the plugin set. -/
theorem entry_name (hx : x ∈ op.entries I sets) :
    (∃ d ∈ op.own, d.1 = x.1) ∨ ∃ e ∈ sets, e.1 = x.1 := by
  rcases mem_entries.mp hx with hextra | hwrite
  · unfold Operation.extra at hextra
    split_ifs at hextra
    · exact .inl ⟨x, hextra, rfl⟩
    · cases hextra
  · have hmem := mem_of_lastValue hwrite
    rw [Operation.writes, List.mem_append, List.mem_append] at hmem
    rcases hmem with (hinitial | hset) | hfinal
    · split_ifs at hinitial
      · cases hinitial
      · exact .inl (exists_own_of_perform op hinitial)
    · obtain ⟨e, he, hxe⟩ := List.mem_map.mp hset
      exact .inr ⟨e, he, (Prod.ext_iff.mp hxe).1⟩
    · rcases final_eq op with hnil | ⟨hown, -⟩
      · rw [hnil] at hfinal
        cases hfinal
      · rw [hown] at hfinal
        exact .inl ⟨_, hfinal, rfl⟩

theorem exists_entry_of_write (I : Iteration) (hx : x ∈ op.writes sets) :
    ∃ value, (x.1, value) ∈ I.iter (HTTPHeaderMap.setAll [] (op.writes sets)) := by
  obtain ⟨value, hvalue⟩ := exists_lastValue hx
  exact ⟨value, (I.perm _).mem_iff.mpr (mem_setAll.mpr hvalue)⟩

theorem exists_entry_of_set (op : Operation) (I : Iteration) (he : e ∈ sets) :
    ∃ value, (e.1, value) ∈ I.iter (HTTPHeaderMap.setAll [] (op.writes sets)) := by
  have hmem : (e.1, op.stored e.2) ∈ op.writes sets :=
    List.mem_append_left _ (List.mem_append_right _
      (List.mem_map_of_mem (f := fun e : Bytes × Bytes => (e.1, op.stored e.2)) he))
  obtain ⟨value, hvalue⟩ := exists_entry_of_write I hmem
  exact ⟨value, hvalue⟩

theorem lower_inj_of_entries (hnodup : ((op.entries I sets).map fun x => lowercase x.1).Nodup)
    {y : Bytes × Bytes} (hx : x ∈ op.entries I sets) (hy : y ∈ op.entries I sets)
    (h : lowercase x.1 = lowercase y.1) : x = y :=
  List.inj_on_of_nodup_map hnodup hx hy h

/-- The map of a client holds only what the plugin set. -/
theorem client_entry_name (hclient : op.isClient = true)
    (hx : x ∈ I.iter (HTTPHeaderMap.setAll [] (op.writes sets))) : ∃ e ∈ sets, e.1 = x.1 := by
  have hwrite : lastValue (op.writes sets) x.1 = some x.2 :=
    mem_setAll.mp ((I.perm _).mem_iff.mp hx)
  have hfinal : op.final = [] := by
    rcases final_eq op with hnil | ⟨hown, -⟩
    · exact hnil
    · cases op <;> first | rfl | cases hclient
  have hmem := mem_of_lastValue hwrite
  rw [Operation.writes, hclient, hfinal, if_pos rfl, List.nil_append, List.append_nil] at hmem
  obtain ⟨e, he, hxe⟩ := List.mem_map.mp hmem
  exact ⟨e, he, (Prod.ext_iff.mp hxe).1⟩

/-- The name of a line is that of its entry if every name the plugin set fits. -/
theorem fieldName_entry
    (hfits : ∀ e ∈ sets, ¬op.Fixed e.1 → 58 ∉ e.1 ∧ e.1.length + 2 ≤ 8191)
    (hx : x ∈ op.entries I sets) : fieldName (headerLine x) = x.1 := by
  have hname : 58 ∉ x.1 ∧ x.1.length + 2 ≤ 8191 := by
    rcases entry_name hx with ⟨d, hd, heq⟩ | ⟨e, he, heq⟩
    · obtain ⟨hcolon, hlen⟩ := own_name_fits hd (congrArg lowercase heq.symm)
      exact ⟨hcolon, by omega⟩
    · by_cases hfixed : op.Fixed e.1
      · have hcontent : (contentType, formUrlencoded) ∈ Operation.postForm.own := by decide
        obtain ⟨hcolon, hlen⟩ := own_name_fits hcontent hfixed.2
        rw [heq] at hcolon hlen
        exact ⟨hcolon, by omega⟩
      · rw [← heq]
        exact hfits e he hfixed
  exact fieldName_headerLine hname.1 hname.2

theorem map_fieldName_entries
    (hfits : ∀ e ∈ sets, ¬op.Fixed e.1 → 58 ∉ e.1 ∧ e.1.length + 2 ≤ 8191) :
    ((op.entries I sets).map headerLine).map (fun line => lowercase (fieldName line)) =
      (op.entries I sets).map fun x => lowercase x.1 := by
  rw [List.map_map]
  apply List.map_congr_left
  intro x hx
  exact congrArg lowercase (fieldName_entry hfits hx)

theorem lastSet_isSome (he : e ∈ sets) : ∃ value, lastSet sets e.1 = some value := by
  apply Option.ne_none_iff_exists'.mp
  intro hnone
  rw [lastSet, Option.map_eq_none_iff, List.getLast?_eq_none_iff, List.filter_eq_nil_iff] at hnone
  exact hnone e he (by simp)

theorem lastSet_eq_lastValue (he : e ∈ sets)
    (hspelling : ∀ e ∈ sets, ∀ e' ∈ sets, lowercase e.1 = lowercase e'.1 → e.1 = e'.1) :
    lastSet sets e.1 = lastValue sets e.1 := by
  have hfilter : sets.filter (fun e' => lowercase e'.1 = lowercase e.1) =
      sets.filter fun e' => e'.1 = e.1 := by
    apply List.filter_congr
    intro e' he'
    rw [decide_eq_decide]
    exact ⟨hspelling e' he' e he, congrArg lowercase⟩
  rw [lastSet, hfilter, lastValue]

theorem lastValue_writes : lastValue (op.writes sets) name =
    ((lastValue op.final name).or ((lastValue sets name).map op.stored)).or
      (lastValue (if op.isClient then [] else Operation.perform.own) name) := by
  rw [Operation.writes, lastValue_append, lastValue_append, lastValue_map, Option.or_assoc]

end Names

section Necessity
variable {op : Operation} {I : Iteration} {url : Bytes} {calls : List (Bytes × Bytes)}
  {d e : Bytes × Bytes}

theorem LastWordWins.fits (h : LastWordWins op I url calls) (he : e ∈ op.accepted calls)
    (hfixed : ¬op.Fixed e.1) : 58 ∉ e.1 ∧
      ∀ value ∈ lastSet (op.accepted calls) e.1, e.1.length + 2 + value.length ≤ 8191 := by
  obtain ⟨line, hline, value, hlast, hcarries⟩ := h.2.1 e he hfixed
  obtain ⟨hcolon, hlen⟩ := hcarries.fits
  rw [sent_eq] at hline
  obtain ⟨x, -, rfl⟩ := List.mem_map.mp hline
  refine ⟨hcolon, fun value' hvalue' => ?_⟩
  obtain rfl : value = value' := Option.some.inj (hlast.symm.trans hvalue')
  rw [hlen]
  exact headerLine_length_le x

theorem LastWordWins.name_fits (h : LastWordWins op I url calls) :
    ∀ e ∈ op.accepted calls, ¬op.Fixed e.1 → 58 ∉ e.1 ∧ e.1.length + 2 ≤ 8191 := by
  intro e he hfixed
  obtain ⟨hcolon, hlen⟩ := h.fits he hfixed
  obtain ⟨value, hvalue⟩ := lastSet_isSome he
  have hline := hlen value hvalue
  exact ⟨hcolon, by omega⟩

theorem LastWordWins.entries_nodup (h : LastWordWins op I url calls) :
    ((op.entries I (op.accepted calls)).map fun x => lowercase x.1).Nodup := by
  have hnodup := h.1
  rw [sent_eq, map_fieldName_entries h.name_fits] at hnodup
  exact hnodup

theorem LastWordWins.not_client (h : LastWordWins op I url calls) (he : e ∈ op.accepted calls)
    (hd : d ∈ op.own) (hname : lowercase e.1 = lowercase d.1) : op.isClient = false := by
  cases hclient : op.isClient with
  | false => rfl
  | true =>
    exfalso
    have hnodup := h.entries_nodup
    obtain ⟨value, hvalue⟩ := exists_entry_of_set op I he
    rw [Operation.entries, Operation.extra, hclient, if_pos rfl, List.map_append,
      List.nodup_append] at hnodup
    exact hnodup.2.2 _ (List.mem_map_of_mem (f := fun x : Bytes × Bytes => lowercase x.1) hd) _
      (List.mem_map_of_mem (f := fun x : Bytes × Bytes => lowercase x.1) hvalue) hname.symm

theorem LastWordWins.spelling (h : LastWordWins op I url calls) {e' : Bytes × Bytes}
    (he : e ∈ op.accepted calls) (he' : e' ∈ op.accepted calls)
    (hname : lowercase e.1 = lowercase e'.1) : e.1 = e'.1 := by
  obtain ⟨value, hvalue⟩ := exists_entry_of_set op I he
  obtain ⟨value', hvalue'⟩ := exists_entry_of_set op I he'
  have heq := lower_inj_of_entries h.entries_nodup (List.mem_append_right _ hvalue)
    (List.mem_append_right _ hvalue') hname
  exact (Prod.ext_iff.mp heq).1

theorem LastWordWins.own_name (h : LastWordWins op I url calls) (he : e ∈ op.accepted calls)
    (hd : d ∈ op.own) (hname : lowercase e.1 = lowercase d.1) : e.1 = d.1 := by
  have hclient := h.not_client he hd hname
  have hinitial : ∃ d' ∈ Operation.perform.own, d'.1 = d.1 := by
    have hmem : d.1 ∈ Operation.perform.own.map Prod.fst := by
      rw [own_names .perform, ← own_names op]
      exact List.mem_map_of_mem hd
    exact List.mem_map.mp hmem
  obtain ⟨d', hd', heq⟩ := hinitial
  have hwrite : d' ∈ op.writes (op.accepted calls) := by
    rw [Operation.writes, hclient]
    exact List.mem_append_left _ (List.mem_append_left _ hd')
  obtain ⟨value, hvalue⟩ := exists_entry_of_set op I he
  obtain ⟨value', hvalue'⟩ := exists_entry_of_write I hwrite
  have hentry := lower_inj_of_entries h.entries_nodup (List.mem_append_right _ hvalue)
    (List.mem_append_right _ hvalue') (hname.trans (congrArg lowercase heq.symm))
  exact (Prod.ext_iff.mp hentry).1.trans heq

/-- What the operation writes at the end is what the plugin set last. -/
theorem LastWordWins.own_value (h : LastWordWins op I url calls) (he : e ∈ op.accepted calls)
    (hd : d ∈ op.own) (hname : lowercase e.1 = lowercase d.1) (hperform : op ≠ .perform)
    (hfixed : ¬op.Fixed e.1) : lastSet (op.accepted calls) e.1 = some d.2 := by
  obtain ⟨line, hline, value, hlast, hcarries⟩ := h.2.1 e he hfixed
  rw [sent_eq] at hline
  obtain ⟨y, hy, rfl⟩ := List.mem_map.mp hline
  have hclient := h.not_client he hd hname
  have hfinal : lastValue op.final d.1 = some d.2 := by
    rw [final_eq_own hclient hperform, lastValue_own hd]
  have hwrites : lastValue (op.writes (op.accepted calls)) d.1 = some d.2 := by
    rw [lastValue_writes, hfinal, Option.some_or, Option.some_or]
  have hentry : d ∈ op.entries I (op.accepted calls) := mem_entries.mpr (.inr hwrites)
  have hyname : fieldName (headerLine y) = y.1 := fieldName_entry h.name_fits hy
  have hyd : y = d := by
    apply lower_inj_of_entries h.entries_nodup hy hentry
    rw [← hyname, hcarries.1, hname]
  have hsame : d.1 ++ 58 :: 32 :: d.2 = d.1 ++ 58 :: 32 :: value := by
    have hown := (own_carries hd).2
    have hplugin := hcarries.2
    rw [hyd] at hyname hplugin
    rw [hyname] at hown hplugin
    exact hown.symm.trans hplugin
  have hvalue : d.2 = value := by simpa using hsame
  rw [hlast, hvalue]

theorem LastWordWins.settable (h : LastWordWins op I url calls) :
    op.Settable (op.accepted calls) where
  fits _ he hfixed := h.fits he hfixed
  spelling _ he _ he' hname := h.spelling he he' hname
  own e he d hd hname := by
    refine ⟨h.not_client he hd hname, h.own_name he hd hname, ?_⟩
    by_cases hperform : op = .perform
    · exact .inl hperform
    · by_cases hfixed : op.Fixed e.1
      · exact .inr (.inl hfixed)
      · exact .inr (.inr (h.own_value he hd hname hperform hfixed))

end Necessity

section Sufficiency
variable {op : Operation} {I : Iteration} {url : Bytes} {calls sets : List (Bytes × Bytes)}
  {d e x : Bytes × Bytes}

theorem Operation.Settable.name_fits (h : op.Settable sets) :
    ∀ e ∈ sets, ¬op.Fixed e.1 → 58 ∉ e.1 ∧ e.1.length + 2 ≤ 8191 := by
  intro e he hfixed
  obtain ⟨hcolon, hlen⟩ := h.fits e he hfixed
  obtain ⟨value, hvalue⟩ := lastSet_isSome he
  have hline := hlen value hvalue
  exact ⟨hcolon, by omega⟩

/-- Names that differ in their case only are the same name. -/
theorem Operation.Settable.name_inj (h : op.Settable sets) {y : Bytes × Bytes}
    (hx : x ∈ op.entries I sets) (hy : y ∈ op.entries I sets)
    (hname : lowercase x.1 = lowercase y.1) : x.1 = y.1 := by
  rcases entry_name hx with ⟨d, hd, hdx⟩ | ⟨e, he, hex⟩
  · rcases entry_name hy with ⟨d', hd', hdy⟩ | ⟨e', he', hey⟩
    · rw [← hdx, ← hdy] at hname ⊢
      exact congrArg Prod.fst (own_inj hd hd' hname)
    · rw [← hdx, ← hey] at hname ⊢
      exact (h.own e' he' d hd hname.symm).2.1.symm
  · rcases entry_name hy with ⟨d', hd', hdy⟩ | ⟨e', he', hey⟩
    · rw [← hex, ← hdy] at hname ⊢
      exact (h.own e he d' hd' hname).2.1
    · rw [← hex, ← hey] at hname ⊢
      exact h.spelling e he e' he' hname

theorem Operation.Settable.entries_nodup (h : op.Settable sets) (I : Iteration) :
    ((op.entries I sets).map fun x => lowercase x.1).Nodup := by
  have hkeys : ((I.iter (HTTPHeaderMap.setAll [] (op.writes sets))).map Prod.fst).Nodup :=
    ((I.perm _).map Prod.fst).nodup_iff.mpr setAll_keys_nodup
  have hmap : ((I.iter (HTTPHeaderMap.setAll [] (op.writes sets))).map
      fun x => lowercase x.1).Nodup := by
    have hcomp : (fun x : Bytes × Bytes => lowercase x.1) = lowercase ∘ Prod.fst := rfl
    rw [hcomp, ← List.map_map]
    refine hkeys.map_on fun a ha b hb hab => ?_
    obtain ⟨x, hx, rfl⟩ := List.mem_map.mp ha
    obtain ⟨y, hy, rfl⟩ := List.mem_map.mp hb
    exact h.name_inj (List.mem_append_right _ hx) (List.mem_append_right _ hy) hab
  rw [Operation.entries, List.map_append, List.nodup_append]
  refine ⟨?_, hmap, ?_⟩
  · unfold Operation.extra
    split_ifs
    · exact own_lower_nodup op
    · exact List.nodup_nil
  · intro a ha b hb hab
    obtain ⟨d, hd, rfl⟩ := List.mem_map.mp ha
    obtain ⟨x, hx, rfl⟩ := List.mem_map.mp hb
    unfold Operation.extra at hd
    split_ifs at hd with hclient
    · obtain ⟨e, he, hex⟩ := client_entry_name hclient hx
      have hfalse := (h.own e he d hd ((congrArg lowercase hex).trans hab.symm)).1
      exact absurd (hclient.symm.trans hfalse) (by decide)
    · cases hd

theorem stored_of_fits {value : Bytes} (h : value.length ≤ 8191) : op.stored value = value := by
  unfold Operation.stored
  split_ifs
  · rfl
  · exact List.take_of_length_le h

/-- The map ends up with the plugin's last value. -/
theorem Operation.Settable.lastValue_set (h : op.Settable sets) (he : e ∈ sets)
    (hfixed : ¬op.Fixed e.1) {value : Bytes} (hvalue : lastSet sets e.1 = some value) :
    lastValue (op.writes sets) e.1 = some value := by
  have hlen := (h.fits e he hfixed).2 value hvalue
  rw [lastValue_writes]
  cases hfinal : lastValue op.final e.1 with
  | none =>
    rw [← lastSet_eq_lastValue he h.spelling, hvalue, Option.map_some,
      stored_of_fits (by omega)]
    rfl
  | some own =>
    have hmem := mem_of_lastValue hfinal
    rcases final_eq op with hnil | ⟨heq, hperform⟩
    · rw [hnil] at hmem
      cases hmem
    · rw [heq] at hmem
      have hlast := ((h.own e he _ hmem rfl).2.2.resolve_left hperform).resolve_left hfixed
      obtain rfl : value = own := Option.some.inj (hvalue.symm.trans hlast)
      rfl

theorem Operation.Settable.set_carries (h : op.Settable sets) (he : e ∈ sets)
    (hfixed : ¬op.Fixed e.1) {value : Bytes} (hvalue : lastSet sets e.1 = some value) :
    Carries (headerLine (e.1, value)) e.1 value :=
  headerLine_carries (x := (e.1, value)) (h.fits e he hfixed).1
    ((h.fits e he hfixed).2 value hvalue)

/-- What the plugin did not set is the extension's own. -/
theorem Operation.Settable.own_of_not_set (h : op.Settable sets)
    (hfixed : ∀ e ∈ sets, e.1 = x.1 → op.Fixed e.1)
    (hx : lastValue (op.writes sets) x.1 = some x.2) : x ∈ op.own := by
  rw [lastValue_writes] at hx
  cases hfinal : lastValue op.final x.1 with
  | some value =>
    obtain rfl : value = x.2 := by simpa [hfinal] using hx
    have hmem := mem_of_lastValue hfinal
    rcases final_eq op with hnil | ⟨heq, -⟩
    · rw [hnil] at hmem
      cases hmem
    · rw [heq] at hmem
      exact hmem
  | none =>
    have hnotown : op.isClient = false → op ≠ .perform → ∀ d ∈ op.own, d.1 ≠ x.1 := by
      intro hclient hperform
      rw [final_eq_own hclient hperform] at hfinal
      exact lastValue_eq_none.mp hfinal
    cases hset : lastValue sets x.1 with
    | some value =>
      have hmem := mem_of_lastValue hset
      have hform := hfixed _ hmem rfl
      have hcontent : (contentType, formUrlencoded) ∈ op.own := by
        rw [hform.1]
        decide
      obtain ⟨hclient, hname, -⟩ := h.own _ hmem _ hcontent hform.2
      exact absurd hname.symm (hnotown hclient (by rw [hform.1]; decide) _ hcontent)
    | none =>
      rw [hfinal, hset, Option.map_none, Option.none_or, Option.none_or] at hx
      have hmem := mem_of_lastValue hx
      split_ifs at hmem with hclient
      · cases hmem
      · by_cases hperform : op = .perform
        · rw [hperform]
          exact hmem
        · obtain ⟨d, hd, hdx⟩ := exists_own_of_perform op hmem
          exact absurd hdx (hnotown (by simpa using hclient) hperform d hd)

/-- Where an entry of the map comes from. -/
theorem Operation.Settable.entry_cases (h : op.Settable sets)
    (hx : lastValue (op.writes sets) x.1 = some x.2) :
    (∃ e ∈ sets, ¬op.Fixed e.1 ∧ e.1 = x.1) ∨
      (x ∈ op.own ∧ ∀ e ∈ sets, lowercase e.1 = lowercase x.1 → op.Fixed e.1) := by
  by_cases hset : ∃ e ∈ sets, ¬op.Fixed e.1 ∧ e.1 = x.1
  · exact .inl hset
  · have hfixed : ∀ e ∈ sets, e.1 = x.1 → op.Fixed e.1 := by
      intro e he hex
      by_contra hnot
      exact hset ⟨e, he, hnot, hex⟩
    have hown : x ∈ op.own := h.own_of_not_set hfixed hx
    exact .inr ⟨hown, fun e he hname => hfixed e he (h.own e he x hown hname).2.1⟩

theorem Operation.Settable.lastWordWins (h : op.Settable (op.accepted calls)) (I : Iteration)
    (url : Bytes) : LastWordWins op I url calls := by
  unfold LastWordWins
  rw [sent_eq]
  refine ⟨?_, ?_, ?_⟩
  · rw [map_fieldName_entries h.name_fits]
    exact h.entries_nodup I
  · intro e he hfixed
    obtain ⟨value, hvalue⟩ := lastSet_isSome he
    have hentry : (e.1, value) ∈ op.entries I (op.accepted calls) :=
      mem_entries.mpr (.inr (h.lastValue_set he hfixed hvalue))
    exact ⟨_, List.mem_map_of_mem hentry, value, hvalue, h.set_carries he hfixed hvalue⟩
  · intro line hline
    obtain ⟨x, hx, rfl⟩ := List.mem_map.mp hline
    rcases mem_entries.mp hx with hextra | hwrite
    · unfold Operation.extra at hextra
      split_ifs at hextra with hclient
      · refine .inr ⟨x, hextra, own_carries hextra, fun e he hname => ?_⟩
        have hfalse := (h.own e he x hextra hname).1
        exact absurd (hclient.symm.trans hfalse) (by decide)
      · cases hextra
    · rcases h.entry_cases hwrite with ⟨e, he, hfixed, hex⟩ | ⟨hown, hfixed⟩
      · obtain ⟨value, hvalue⟩ := lastSet_isSome he
        have hlast := h.lastValue_set he hfixed hvalue
        have hx2 : x = (e.1, value) := by
          rw [hex] at hlast
          rw [hex, ← Option.some.inj (hwrite.symm.trans hlast)]
        rw [hx2]
        exact .inl ⟨e, he, value, hvalue, h.set_carries he hfixed hvalue⟩
      · exact .inr ⟨x, hown, own_carries hown, hfixed⟩

end Sufficiency

/-- For every operation and every sequence of calls: the plugin's last word is sent, once, exactly
if the headers are settable. -/
theorem lastWordWins_iff_settable (op : Operation) (I : Iteration) (url : Bytes)
    (calls : List (Bytes × Bytes)) :
    LastWordWins op I url calls ↔ op.Settable (op.accepted calls) :=
  ⟨LastWordWins.settable, fun h => h.lastWordWins I url⟩

/-- A plugin asks for plain text and gets JSON: `DownloadFile` writes its own `Accept` over the
plugin's, a client sends both, and so does a request if the name is spelled in lower case. -/
theorem accept_overruled :
    ¬LastWordWins .downloadFile mapOrder (ascii "http://h/f") [(accept, ascii "text/plain")] ∧
    ¬LastWordWins .clientRequest mapOrder (ascii "http://h") [(accept, ascii "text/plain")] ∧
    ¬LastWordWins .perform mapOrder (ascii "http://h/f") [(ascii "accept", ascii "text/plain")] := by
  refine ⟨fun h => ?_, fun h => ?_, fun h => ?_⟩
  · obtain ⟨line, hline, value, hlast, hcarries⟩ := h.2.1 (accept, ascii "text/plain")
      (by decide) (by intro hfixed; cases hfixed.1)
    obtain rfl : ascii "text/plain" = value := Option.some.inj (by rw [← hlast]; decide)
    have hall : (Operation.downloadFile.sent mapOrder (ascii "http://h/f")
        [(accept, ascii "text/plain")]).all
        (fun line => line ≠ fieldName line ++ 58 :: 32 :: ascii "text/plain") := by decide
    exact of_decide_eq_true (List.all_eq_true.mp hall line hline) hcarries.2
  · exact absurd h.1 (by decide)
  · exact absurd h.1 (by decide)

section Whole
variable {op : Operation} {I : Iteration} {url : Bytes} {calls : List (Bytes × Bytes)}
  {name name' value value' : Bytes} {e : Bytes × Bytes}

/-- A header line of which nothing is cut off. -/
def wholeLine (e : Bytes × Bytes) : Bytes := e.1 ++ 58 :: 32 :: e.2

/-- The map whose entries `BuildHeaders` goes through. -/
def Operation.headers (op : Operation) (url : Bytes) (calls : List (Bytes × Bytes)) :
    HTTPHeaderMap :=
  let request := setHeaders calls (.new url)
  let client := setClientHeaders calls (.new url)
  match op with
  | .perform => request.headers
  | .downloadFile => request.setFileHeaders.headers
  | .uploadFile => request.setFileHeaders.headers
  | .postForm => request.setFormHeaders.headers
  | .clientRequest => client.headers
  | .clientDownloadFile => client.headers
  | .clientUploadFile => client.headers

/-- The lines of the map, without the two that a client puts in front of them. -/
def Operation.mapLines (op : Operation) (I : Iteration) (url : Bytes)
    (calls : List (Bytes × Bytes)) : List Bytes :=
  (op.sent I url calls).drop (if op.isClient then 2 else 0)

/-- Every entry is sent as its whole line. So entries whose names have no colon get different
lines, and no byte of a value is dropped. -/
structure SentWhole (entries : List (Bytes × Bytes)) (lines : List Bytes) : Prop where
  whole : lines = entries.map wholeLine
  distinct : ∀ (i j : ℕ) (e e' : Bytes × Bytes) (line line' : Bytes),
    entries[i]? = some e → entries[j]? = some e' → lines[i]? = some line → lines[j]? = some line' →
    58 ∉ e.1 → 58 ∉ e'.1 → e ≠ e' → line ≠ line'
  value : ∀ (i : ℕ) (e : Bytes × Bytes) (line : Bytes),
    entries[i]? = some e → lines[i]? = some line → e.2 <:+ line

theorem mapLines_eq : op.mapLines I url calls = (I.iter (op.headers url calls)).map headerLine := by
  cases op <;> rfl

theorem wholeLine_injective (h : 58 ∉ name) (h' : 58 ∉ name')
    (heq : wholeLine (name, value) = wholeLine (name', value')) :
    name = name' ∧ value = value' := by
  have hname : name = name' := by
    have hfield := congrArg fieldName heq
    rwa [wholeLine, wholeLine, fieldName_of_not_mem h, fieldName_of_not_mem h'] at hfield
  subst hname
  exact ⟨rfl, by simpa [wholeLine] using heq⟩

theorem headerLine_eq_wholeLine_iff :
    headerLine e = wholeLine e ↔ e.1.length + 2 + e.2.length ≤ 8191 := by
  refine ⟨fun heq => ?_, headerLine_of_fits⟩
  have hlen := headerLine_length_le e
  rw [heq, wholeLine, List.length_append, List.length_cons, List.length_cons] at hlen
  omega

theorem sentWhole_map (entries : List (Bytes × Bytes)) :
    SentWhole entries (entries.map wholeLine) := by
  refine ⟨rfl, ?_, ?_⟩
  · intro i j e e' line line' he he' hline hline' hcolon hcolon' hne heq
    rw [List.getElem?_map, he] at hline
    rw [List.getElem?_map, he'] at hline'
    cases hline
    cases hline'
    obtain ⟨hname, hvalue⟩ := wholeLine_injective hcolon hcolon' heq
    exact hne (Prod.ext hname hvalue)
  · intro i e line he hline
    rw [List.getElem?_map, he] at hline
    cases hline
    exact (List.suffix_append [58, 32] e.2).trans (List.suffix_append e.1 _)

theorem SentWhole.fits (h : SentWhole (I.iter (op.headers url calls)) (op.mapLines I url calls))
    (he : e ∈ op.headers url calls) : e.1.length + 2 + e.2.length ≤ 8191 := by
  have heq := mapLines_eq.symm.trans h.whole
  exact headerLine_eq_wholeLine_iff.mp (List.map_inj_left.mp heq e ((I.perm _).mem_iff.mpr he))

/-- For every operation and every sequence of calls: the entries of the map are sent whole exactly
if each of them fits the buffer together with its separator and the terminating zero. -/
theorem sentWhole_iff_fits (op : Operation) (I : Iteration) (url : Bytes)
    (calls : List (Bytes × Bytes)) :
    SentWhole (I.iter (op.headers url calls)) (op.mapLines I url calls) ↔
      ∀ e ∈ op.headers url calls, e.1.length + 2 + e.2.length ≤ 8191 := by
  constructor
  · exact fun h e he => h.fits he
  · intro h
    have hlines : op.mapLines I url calls = (I.iter (op.headers url calls)).map wholeLine := by
      rw [mapLines_eq]
      refine List.map_congr_left fun e he => headerLine_eq_wholeLine_iff.mpr (h e ?_)
      exact (I.perm _).mem_iff.mp he
    rw [hlines]
    exact sentWhole_map _

/-- A header that the natives take: the request keeps the formatted value, the client any value. -/
theorem mem_headers_of_set (url name : Bytes) (hname : name ≠ []) (hvalue : value.length ≤ 8191) :
    (name, value) ∈ Operation.perform.headers url [(name, value)] ∧
      (name, value) ∈ Operation.clientRequest.headers url [(name, value)] := by
  have hformat : formatString value = value := List.take_of_length_le hvalue
  constructor
  · show (name, value) ∈ (setHeaders _ _).headers
    rw [setHeaders_headers]
    simp [hname, hformat, HTTPHeaderMap.setAll, HTTPHeaderMap.replace]
  · simp [Operation.headers, setClientHeaders_headers, HTTPHeaderMap.setAll, HTTPHeaderMap.replace]

theorem not_sentWhole_of_long (he : (name, value) ∈ op.headers url calls)
    (hlong : 8191 < name.length + 2 + value.length) :
    ¬SentWhole (I.iter (op.headers url calls)) (op.mapLines I url calls) :=
  fun h => hlong.not_ge (h.fits he)

/-- A value of 8191 bytes, the most that `SetRequestHeader` takes. -/
def longValue : Bytes := List.replicate 8191 97

/-- The end of a long value is cut off, whether a request or a client sends it. -/
theorem longValue_cut_off :
    ¬SentWhole (mapOrder.iter (Operation.perform.headers (ascii "http://h") [([88], longValue)]))
      (Operation.perform.mapLines mapOrder (ascii "http://h") [([88], longValue)]) ∧
    ¬SentWhole
      (mapOrder.iter (Operation.clientRequest.headers (ascii "http://h") [([88], longValue)]))
      (Operation.clientRequest.mapLines mapOrder (ascii "http://h") [([88], longValue)]) := by
  have hvalue : longValue.length = 8191 := List.length_replicate
  generalize longValue = value at hvalue ⊢
  obtain ⟨hrequest, hclient⟩ := mem_headers_of_set (ascii "http://h") [88] (by simp) hvalue.le
  have hlong : 8191 < ([88] : Bytes).length + 2 + value.length := by
    rw [hvalue]
    decide
  exact ⟨not_sentWhole_of_long hrequest hlong, not_sentWhole_of_long hclient hlong⟩

end Whole

end RipExt.Http
