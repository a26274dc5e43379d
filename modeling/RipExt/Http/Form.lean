import RipExt.Http.Body
import RipExt.Http.Query
import RipExt.Http.ResponseBody

/-! The form that `PostForm` sends: what a server reads in the text which `AppendFormParam` has
collected, whatever calls of it fail. -/
namespace RipExt.Http

section Posting

/-- Curl gets its memory three times, and both escaped texts fit the limit of its buffer. -/
def ParamCall.escapes (c : ParamCall) : Bool :=
  c.outcome = ⟨true, true, true⟩ ∧ (escape c.name).length + 1 ≤ 3 * curlMaxInputLength ∧
    (escape c.value).length + 1 ≤ 3 * curlMaxInputLength

/-- The native prints the value into its buffer first. -/
def ParamCall.formatted (c : ParamCall) : ParamCall := { c with value := formatString c.value }

def appendFormParams (calls : List ParamCall) (r : HTTPRequest) : HTTPRequest :=
  calls.foldl (fun r c => r.appendFormParam c.outcome c.name c.value) r

def appendRequestFormParams (calls : List ParamCall) (r : HTTPRequest) :
    Except CollectError HTTPRequest :=
  calls.foldlM (fun r c => appendRequestFormParam c.outcome c.name (some c.value) r) r

/-- The fields that the context of `PostForm` hands to curl. -/
def HTTPRequest.postedFields (V : Env) (forward : ℕ) (value : Int32) (r : HTTPRequest) :
    Option Bytes :=
  match r.postForm V forward value with
  | .form c => c.initCurl.postFields
  | .request _ | .file _ => none

def strlen (text : Bytes) : ℕ := (cString text).length

/-- A form as a server reads it; an empty text has no parameters. -/
def readForm (text : Bytes) : List (Bytes × Bytes) :=
  if text = [] then [] else (text.splitOn 38).map readParam

end Posting

section Joining
variable {c : ParamCall} {calls : List ParamCall} {params : Bytes}

theorem escapes_iff : c.escapes = true ↔
    c.outcome.init = true ∧ curlEasyEscape c.outcome.name c.name = some (escape c.name) ∧
      curlEasyEscape c.outcome.value c.value = some (escape c.value) := by
  obtain ⟨⟨init, allocatedName, allocatedValue⟩, name, value, named⟩ := c
  simp only [ParamCall.escapes, decide_eq_true_eq, EscapeOutcome.mk.injEq, curlEasyEscape_eq_some,
    and_true]
  tauto

theorem appendParam_of_escapes (h : c.escapes = true) (first : Bytes) :
    appendParam first c.outcome c.name c.value params =
      params ++ (if params.length = 0 then first else [38]) ++ c.param := by
  obtain ⟨hinit, hname, hvalue⟩ := escapes_iff.mp h
  rw [appendParam, if_pos hinit, hname, hvalue]
  simp [ParamCall.param]

/-- A call that fails to escape changes nothing. -/
theorem appendParam_of_not_escapes (h : c.escapes = false) (first : Bytes) :
    appendParam first c.outcome c.name c.value params = params := by
  have hfails := mt escapes_iff.mpr (Bool.not_eq_true _ ▸ h)
  unfold appendParam
  by_cases hinit : c.outcome.init = true
  · rw [if_pos hinit]
    cases hname : curlEasyEscape c.outcome.name c.name with
    | none => rfl
    | some escapedName =>
      cases hvalue : curlEasyEscape c.outcome.value c.value with
      | none => rfl
      | some escapedValue =>
        have hnameText := (curlEasyEscape_eq_some.mp hname).2.2
        have hvalueText := (curlEasyEscape_eq_some.mp hvalue).2.2
        rw [← hnameText] at hname
        rw [← hvalueText] at hvalue
        exact absurd ⟨hinit, hname, hvalue⟩ hfails
  · rw [if_neg hinit]

theorem param_ne_nil (c : ParamCall) : c.param ≠ [] := by
  simp [ParamCall.param]

theorem intercalate_params_eq_nil {texts : List Bytes} (h : ∀ t ∈ texts, t ≠ []) :
    [38].intercalate texts = [] ↔ texts = [] := by
  constructor
  · intro hnil
    cases texts with
    | nil => rfl
    | cons t texts =>
      cases texts with
      | nil =>
        refine absurd ?_ (h t (List.mem_singleton_self t))
        simpa [List.intercalate] using hnil
      | cons u texts =>
        rw [Percent.intercalate_cons_cons] at hnil
        simp at hnil
  · rintro rfl
    rfl

/-- The parameters of the calls that escape, in the order of the calls. -/
def formParams (calls : List ParamCall) : List Bytes :=
  (calls.filter ParamCall.escapes).map ParamCall.param

theorem mem_formParams {t : Bytes} (h : t ∈ formParams calls) : ∃ c : ParamCall, c.param = t := by
  obtain ⟨c, -, hc⟩ := List.mem_map.mp h
  exact ⟨c, hc⟩

theorem intercalate_formParams_eq_nil (calls : List ParamCall) :
    [38].intercalate (formParams calls) = [] ↔ formParams calls = [] := by
  apply intercalate_params_eq_nil
  intro t ht
  obtain ⟨c, rfl⟩ := mem_formParams ht
  exact param_ne_nil c

/-- The form data are the parameters with an ampersand between any two of them. -/
theorem appendFormParams_formData (url : Bytes) (calls : List ParamCall) :
    (appendFormParams calls (.new url)).formData = [38].intercalate (formParams calls) := by
  induction calls using List.reverseRecOn with
  | nil => rfl
  | append_singleton calls c ih =>
    have hstep : (appendFormParams (calls ++ [c]) (.new url)).formData =
        appendParam [] c.outcome c.name c.value ([38].intercalate (formParams calls)) := by
      rw [← ih, appendFormParams, List.foldl_append]
      rfl
    rw [hstep]
    by_cases hescapes : c.escapes = true
    · have hparams : formParams (calls ++ [c]) = formParams calls ++ [c.param] := by
        simp [formParams, List.filter_append, hescapes]
      have hlength : ([38].intercalate (formParams calls)).length = 0 ↔ formParams calls = [] := by
        rw [List.length_eq_zero_iff, intercalate_formParams_eq_nil]
      rw [appendParam_of_escapes hescapes, hparams]
      by_cases hnone : formParams calls = []
      · simp [hnone, List.intercalate]
      · rw [if_neg (mt hlength.mp hnone), Percent.intercalate_concat hnone]
        simp
    · have hfails : c.escapes = false := Bool.eq_false_of_not_eq_true hescapes
      have hparams : formParams (calls ++ [c]) = formParams calls := by
        simp [formParams, List.filter_append, hfails]
      rw [appendParam_of_not_escapes hfails, hparams]

end Joining

section Reading
variable {calls : List ParamCall} {d : UInt8}

theorem not_mem_param (c : ParamCall) (hd : d ≠ 61) (hescape : ∀ text, d ∉ escape text) :
    d ∉ c.param := by
  simp [ParamCall.param, hescape, hd]

theorem zero_not_mem_escape (text : Bytes) : 0 ∉ escape text :=
  Percent.not_mem_encode (by decide) (by decide) (by decide) text

theorem zero_not_mem_form (calls : List ParamCall) : 0 ∉ [38].intercalate (formParams calls) := by
  intro hmem
  rcases Percent.mem_intercalate hmem with h | ⟨t, ht, h⟩
  · cases h
  · obtain ⟨c, rfl⟩ := mem_formParams ht
    exact not_mem_param c (by decide) zero_not_mem_escape h

theorem readForm_intercalate (calls : List ParamCall) :
    readForm ([38].intercalate (formParams calls)) =
      (calls.filter ParamCall.escapes).map fun c => (c.name, c.value) := by
  have hampersand : ∀ t ∈ formParams calls, 38 ∉ t := by
    intro t ht
    obtain ⟨c, rfl⟩ := mem_formParams ht
    exact not_mem_param c (by decide) (not_mem_escape (.inl rfl))
  have hread : (formParams calls).map readParam =
      (calls.filter ParamCall.escapes).map fun c => (c.name, c.value) := by
    rw [formParams, List.map_map]
    exact List.map_congr_left fun c _ => readParam_param c
  unfold readForm
  by_cases hnone : formParams calls = []
  · rw [if_pos ((intercalate_formParams_eq_nil calls).mpr hnone), ← hread, hnone]
    rfl
  · rw [if_neg (mt (intercalate_formParams_eq_nil calls).mp hnone),
      List.splitOn_intercalate 38 hampersand hnone, hread]

/-- What the context of `PostForm` hands to curl after some calls of `AppendFormParam`. -/
theorem postedFields_reads (V : Env) (forward : ℕ) (value : Int32) (url : Bytes)
    (calls : List ParamCall) : ∃ text,
    (appendFormParams calls (.new url)).postedFields V forward value = some text ∧
      readForm (cString text) =
        (calls.filter ParamCall.escapes).map (fun c => (c.name, c.value)) ∧
      strlen text = text.length := by
  have hstring := cString_of_not_mem (zero_not_mem_form calls)
  refine ⟨[38].intercalate (formParams calls), ?_, ?_, ?_⟩
  · rw [← appendFormParams_formData url]
    rfl
  · rw [hstring]
    exact readForm_intercalate calls
  · rw [strlen, hstring]

theorem appendRequestFormParams_eq (calls : List ParamCall) (r : HTTPRequest) :
    appendRequestFormParams calls r =
      .ok (appendFormParams (calls.map ParamCall.formatted) r) := by
  induction calls generalizing r with
  | nil => rfl
  | cons c calls ih =>
    have hstep : appendRequestFormParam c.outcome c.name (some c.value) r =
        .ok (r.appendFormParam c.outcome c.name (formatString c.value)) := by
      simp [appendRequestFormParam, formatted, c.named]
    simp only [appendRequestFormParams, List.foldlM_cons, hstep]
    exact ih _

/-- The same through the natives: of every value the first 8191 bytes are read. -/
theorem nativeForm_reads_calls (V : Env) (forward : ℕ) (value : Int32) {url : Bytes}
    (hurl : url ≠ []) (calls : List ParamCall) : ∃ r text,
    (createRequest url).bind (appendRequestFormParams calls) = .ok r ∧
      r.postedFields V forward value = some text ∧
      readForm (cString text) = (calls.filter fun c => c.formatted.escapes).map
        (fun c => (c.name, c.value.take 8191)) ∧
      strlen text = text.length := by
  obtain ⟨text, hposted, hread, hlength⟩ :=
    postedFields_reads V forward value url (calls.map ParamCall.formatted)
  have hcreate : createRequest url = .ok (.new url) := if_neg hurl
  refine ⟨_, text, ?_, hposted, ?_, hlength⟩
  · rw [hcreate]
    exact appendRequestFormParams_eq calls (.new url)
  · rw [hread, List.filter_map, List.map_map]
    rfl

end Reading

/-- Whatever was appended in whatever order: the text that curl gets as a C string reads as the
names and values of the calls that did not fail, curl sees all of it, and a call that fails leaves
the form data of any request as they were. -/
theorem postedForm_reads_calls (V : Env) (forward : ℕ) (value : Int32) (url : Bytes)
    (calls : List ParamCall) :
    (∃ text,
      (appendFormParams calls (.new url)).postedFields V forward value = some text ∧
      readForm (cString text) =
        (calls.filter ParamCall.escapes).map (fun c => (c.name, c.value)) ∧
      strlen text = text.length) ∧
    ∀ (r : HTTPRequest) (c : ParamCall), c.escapes = false →
      r.appendFormParam c.outcome c.name c.value = r := by
  refine ⟨postedFields_reads V forward value url calls, fun r c hfails => ?_⟩
  rw [HTTPRequest.appendFormParam, appendParam_of_not_escapes hfails]

/-- Reserved bytes, a call that finds no memory for its value, and an empty value. -/
def exampleForm : List ParamCall :=
  [⟨⟨true, true, true⟩, ascii "a&b", [195, 169, 61], by decide⟩,
    ⟨⟨true, true, false⟩, ascii "b", ascii "2", by decide⟩,
    ⟨⟨true, true, true⟩, ascii "c", [], by decide⟩]

theorem exampleForm_reads : ∃ text,
    (appendFormParams exampleForm (.new (ascii "http://h"))).postedFields plainEnv 0 0 = some text ∧
      text = ascii "a%26b=%C3%A9%3D&c=" ∧
      readForm (cString text) = [(ascii "a&b", [195, 169, 61]), (ascii "c", [])] ∧
      strlen text = text.length := by
  obtain ⟨text, hposted, hread, hlength⟩ :=
    (postedForm_reads_calls plainEnv 0 0 (ascii "http://h") exampleForm).1
  refine ⟨text, hposted, ?_, hread.trans (by decide), hlength⟩
  exact Option.some.inj (hposted.symm.trans (by decide))

end RipExt.Http
