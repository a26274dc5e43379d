import RipExt.Http.Request

/-! The query parameters of a request: what a server finds in the URL that `BuildURL` makes of
the plugin's URL and of the parameters appended to it. -/
namespace RipExt.Http

section Urls

/-- A URL in the terms of RFC 3986; scheme, authority and path are the base. -/
structure Url where
  base : Bytes
  query : Option Bytes
  fragment : Option Bytes
  deriving DecidableEq, Repr

def splitURL (url : Bytes) : Url :=
  let (rest, fragment) := Percent.cut 35 url
  let (base, query) := Percent.cut 63 rest
  ⟨base, query, fragment⟩

def Url.params (u : Url) : List Bytes :=
  match u.query with
  | none => []
  | some query => query.splitOn 38

def escape (text : Bytes) : Bytes := Percent.encode curlIsunreserved text

/-- One call of `AppendQueryParam` or `AppendFormParam` with a name the native accepts. -/
structure ParamCall where
  outcome : EscapeOutcome
  name : Bytes
  value : Bytes
  named : name ≠ []

/-- The parameter that the plugin means. -/
def ParamCall.param (c : ParamCall) : Bytes := escape c.name ++ 61 :: escape c.value

/-- A parameter as a server reads it. -/
def readParam (param : Bytes) : Bytes × Bytes :=
  let (name, value) := Percent.cut 61 param
  (Percent.decode name, Percent.decode (value.getD []))

def appendParams (calls : List ParamCall) (r : HTTPRequest) : Except CollectError HTTPRequest :=
  calls.foldlM (fun r c => appendRequestQueryParam c.outcome c.name (some c.value) r) r

/-- The request gets the parameters of its URL followed by those of the calls, each of which
decodes to its name and value; base and fragment are those of the URL. -/
def QueryReaches (url : Bytes) (calls : List ParamCall) : Prop :=
  ∃ r, (createRequest url).bind (appendParams calls) = .ok r ∧
    (splitURL r.buildURL).base = (splitURL url).base ∧
    (splitURL r.buildURL).fragment = (splitURL url).fragment ∧
    (splitURL r.buildURL).params = (splitURL url).params ++ calls.map ParamCall.param ∧
    ∀ c ∈ calls, readParam c.param = (c.name, c.value)

/-- Nothing of the call is lost: curl gets its memory, the escaped name fits curl's limit, and
the value fits the native's buffer. -/
def ParamCall.Kept (c : ParamCall) : Prop :=
  c.outcome = ⟨true, true, true⟩ ∧ (escape c.name).length + 1 ≤ 3 * curlMaxInputLength ∧
    c.value.length ≤ 8191

end Urls

section Parameters
variable {c : ParamCall} {calls : List ParamCall}

/-- The text that a call appends, if it appends one. -/
def ParamCall.appended (c : ParamCall) : Option Bytes :=
  if c.outcome.init then
    (curlEasyEscape c.outcome.name c.name).bind fun name =>
      (curlEasyEscape c.outcome.value (formatString c.value)).map fun value => name ++ 61 :: value
  else none

theorem curlIsunreserved_percent : curlIsunreserved 37 = false := by decide

theorem curlEasyEscape_eq_some {allocated : Bool} {text escaped : Bytes} :
    curlEasyEscape allocated text = some escaped ↔
      allocated = true ∧ (escape text).length + 1 ≤ 3 * curlMaxInputLength ∧
        escape text = escaped := by
  have hdef : curlEasyEscape allocated text =
      if allocated ∧ (escape text).length + 1 ≤ 3 * curlMaxInputLength then some (escape text)
      else none := rfl
  rw [hdef]
  split_ifs with h
  · exact ⟨fun heq => ⟨h.1, h.2, Option.some.inj heq⟩, fun heq => congrArg some heq.2.2⟩
  · refine ⟨fun heq => ?_, fun heq => absurd ⟨heq.1, heq.2.1⟩ h⟩
    cases heq

theorem not_mem_escape {d : UInt8} (hd : d = 38 ∨ d = 61 ∨ d = 63 ∨ d = 35) (text : Bytes) :
    d ∉ escape text := by
  rcases hd with rfl | rfl | rfl | rfl <;>
    exact Percent.not_mem_encode (by decide) (by decide) (by decide) text

theorem readParam_param (c : ParamCall) : readParam c.param = (c.name, c.value) := by
  have hdecode (text : Bytes) : Percent.decode (escape text) = text :=
    Percent.decode_encode curlIsunreserved_percent text
  unfold readParam ParamCall.param
  rw [Percent.cut_append (not_mem_escape (by simp) _)]
  simp [hdecode]

/-- A call appends the parameter that is meant exactly if nothing of it is lost. -/
theorem appended_eq_param_iff : c.appended = some c.param ↔ c.Kept := by
  have hshort : (escape (formatString c.value)).length + 1 ≤ 3 * curlMaxInputLength := by
    have hlength := Percent.encode_length_le curlIsunreserved (formatString c.value)
    have hformat : (formatString c.value).length ≤ 8191 := by
      simp [formatString, Json.snprintf]
    simp only [escape, curlMaxInputLength]
    omega
  constructor
  · intro h
    unfold ParamCall.appended at h
    split_ifs at h with hinit
    obtain ⟨name, hname, hrest⟩ := Option.bind_eq_some_iff.mp h
    obtain ⟨value, hvalue, heq⟩ := Option.map_eq_some_iff.mp hrest
    obtain ⟨hallocated, hfits, rfl⟩ := curlEasyEscape_eq_some.mp hname
    obtain ⟨hallocated', -, rfl⟩ := curlEasyEscape_eq_some.mp hvalue
    have hcons := List.append_cancel_left heq
    have hsame := Percent.encode_injective curlIsunreserved_percent (List.cons.inj hcons).2
    refine ⟨?_, hfits, ?_⟩
    · cases hc : c.outcome
      simp_all
    · rw [formatString, Json.snprintf, List.take_eq_self_iff] at hsame
      exact hsame
  · rintro ⟨houtcome, hfits, hvalue⟩
    have hformat : formatString c.value = c.value := by
      rw [formatString, Json.snprintf, List.take_eq_self_iff]
      exact hvalue
    rw [hformat] at hshort
    have hname : curlEasyEscape true c.name = some (escape c.name) :=
      curlEasyEscape_eq_some.mpr ⟨rfl, hfits, rfl⟩
    have hescaped : curlEasyEscape true c.value = some (escape c.value) :=
      curlEasyEscape_eq_some.mpr ⟨rfl, hshort, rfl⟩
    simp [ParamCall.appended, ParamCall.param, houtcome, hformat, hname, hescaped]

/-- The bytes with a meaning in a URL do not occur in what a call appends. -/
theorem not_mem_appended {d : UInt8} {p : Bytes} (hd : d = 38 ∨ d = 63 ∨ d = 35)
    (h : c.appended = some p) : d ∉ p := by
  unfold ParamCall.appended at h
  split_ifs at h
  obtain ⟨name, hname, hrest⟩ := Option.bind_eq_some_iff.mp h
  obtain ⟨value, hvalue, rfl⟩ := Option.map_eq_some_iff.mp hrest
  obtain ⟨-, -, rfl⟩ := curlEasyEscape_eq_some.mp hname
  obtain ⟨-, -, rfl⟩ := curlEasyEscape_eq_some.mp hvalue
  have hne : d ≠ 61 := by
    rcases hd with rfl | rfl | rfl <;> decide
  have hescape (text : Bytes) : d ∉ escape text :=
    not_mem_escape (hd.imp_right .inr) text
  simp [hescape, hne]

/-- The query made of some parameters. -/
def joinParams (params : List Bytes) : Bytes :=
  if params = [] then [] else 63 :: [38].intercalate params

theorem appendParam_joinParams (c : ParamCall) (params : List Bytes) :
    appendParam [63] c.outcome c.name (formatString c.value) (joinParams params) =
      joinParams (params ++ c.appended.toList) := by
  unfold appendParam ParamCall.appended
  by_cases hinit : c.outcome.init = true
  · rw [if_pos hinit, if_pos hinit]
    cases curlEasyEscape c.outcome.name c.name with
    | none => simp
    | some name =>
      cases curlEasyEscape c.outcome.value (formatString c.value) with
      | none => simp
      | some value =>
        by_cases hparams : params = []
        · simp [joinParams, hparams, List.intercalate]
        · simp [joinParams, hparams, Percent.intercalate_concat hparams]
  · rw [if_neg hinit, if_neg hinit, Option.toList_none, List.append_nil]

/-- The request after the calls. -/
theorem appendParams_query (url : Bytes) (calls : List ParamCall) (params : List Bytes)
    (r : HTTPRequest) (hurl : r.url = url) (hquery : r.query = joinParams params) :
    ∃ r', appendParams calls r = .ok r' ∧ r'.url = url ∧
      r'.query = joinParams (params ++ calls.filterMap ParamCall.appended) := by
  induction calls generalizing r params with
  | nil => exact ⟨r, rfl, hurl, by simpa using hquery⟩
  | cons c calls ih =>
    have hstep : appendRequestQueryParam c.outcome c.name (some c.value) r =
        .ok (r.appendQueryParam c.outcome c.name (formatString c.value)) := by
      simp [appendRequestQueryParam, formatted, c.named]
    have hnext : (r.appendQueryParam c.outcome c.name (formatString c.value)).query =
        joinParams (params ++ c.appended.toList) := by
      rw [← appendParam_joinParams, ← hquery]
      rfl
    obtain ⟨r', hr', hurl', hquery'⟩ := ih (params ++ c.appended.toList)
      (r.appendQueryParam c.outcome c.name (formatString c.value)) hurl hnext
    refine ⟨r', ?_, hurl', ?_⟩
    · simp only [appendParams, List.foldlM_cons, hstep]
      exact hr'
    · rw [hquery']
      cases happended : c.appended with
      | none => simp [List.filterMap_cons_none happended]
      | some p => simp [List.filterMap_cons_some happended]

end Parameters

section Splitting
variable {url q : Bytes}

theorem splitURL_plain (hquery : 63 ∉ url) (hfragment : 35 ∉ url) :
    splitURL url = ⟨url, none, none⟩ := by
  simp only [splitURL, Percent.cut_of_not_mem hfragment, Percent.cut_of_not_mem hquery]

theorem splitURL_query (hquery : 63 ∉ url) (hfragment : 35 ∉ url) (hq : 35 ∉ q) :
    splitURL (url ++ 63 :: q) = ⟨url, some q, none⟩ := by
  have hnone : 35 ∉ url ++ 63 :: q := by simp [hfragment, hq]
  simp only [splitURL, Percent.cut_of_not_mem hnone, Percent.cut_append hquery]

theorem splitURL_fragment {fragment : Bytes} (hfragment : 35 ∉ url) :
    (splitURL (url ++ 35 :: fragment)).fragment = some fragment := by
  simp only [splitURL, Percent.cut_append hfragment]

/-- A second question mark does not start a parameter: one of them is lost. -/
theorem params_second_query {base query : Bytes} {texts : List Bytes} (hbase : 63 ∉ base)
    (hfragment : 35 ∉ base ++ 63 :: query) (htexts : ∀ t ∈ texts, 38 ∉ t ∧ 35 ∉ t)
    (hne : texts ≠ []) :
    (splitURL (base ++ 63 :: query ++ joinParams texts)).params.length + 1 =
      (splitURL (base ++ 63 :: query)).params.length + texts.length := by
  have hfragment' : 35 ∉ base ∧ 35 ∉ query := by simpa using hfragment
  have hjoined : 35 ∉ [38].intercalate texts := by
    intro hmem
    rcases Percent.mem_intercalate hmem with h | ⟨t, ht, h⟩
    · cases h
    · exact (htexts t ht).2 h
  have hnew : 35 ∉ query ++ 63 :: [38].intercalate texts := by simp [hfragment'.2, hjoined]
  have hcount := Percent.count_intercalate fun t ht => (htexts t ht).1
  have hlength := List.length_pos_iff.mpr hne
  rw [joinParams, if_neg hne, List.append_assoc, List.cons_append,
    splitURL_query hbase hfragment'.1 hnew, splitURL_query hbase hfragment'.1 hfragment'.2]
  simp only [Url.params, Percent.length_splitOn, List.count_append]
  rw [List.count_cons_of_ne (by decide), hcount]
  omega

/-- Parameters appended to a URL without query and fragment are the parameters. -/
theorem splitURL_joinParams {texts : List Bytes} (hquery : 63 ∉ url) (hfragment : 35 ∉ url)
    (htexts : ∀ t ∈ texts, 38 ∉ t ∧ 35 ∉ t) (hne : texts ≠ []) :
    (splitURL (url ++ joinParams texts)).base = url ∧
      (splitURL (url ++ joinParams texts)).fragment = none ∧
      (splitURL (url ++ joinParams texts)).params = texts := by
  have hjoined : 35 ∉ [38].intercalate texts := by
    intro hmem
    rcases Percent.mem_intercalate hmem with h | ⟨t, ht, h⟩
    · cases h
    · exact (htexts t ht).2 h
  rw [joinParams, if_neg hne, splitURL_query hquery hfragment hjoined]
  exact ⟨rfl, rfl, List.splitOn_intercalate 38 (fun t ht => (htexts t ht).1) hne⟩

end Splitting

/-- If a partial function keeps as many elements as a total one, it agrees with it. -/
theorem filterMap_eq_map_iff {α β : Type*} {f : α → Option β} {g : α → β} {xs : List α} :
    xs.filterMap f = xs.map g ↔ ∀ x ∈ xs, f x = some (g x) := by
  induction xs with
  | nil => simp
  | cons x xs ih =>
    cases hx : f x with
    | none =>
      have hlength := List.length_filterMap_le f xs
      rw [List.filterMap_cons_none hx]
      constructor
      · intro h
        have hsame := congrArg List.length h
        simp only [List.map_cons, List.length_cons, List.length_map] at hsame
        omega
      · intro h
        rw [h x (List.mem_cons_self ..)] at hx
        cases hx
    | some y =>
      rw [List.filterMap_cons_some hx, List.map_cons, List.cons.injEq, ih, List.forall_mem_cons,
        hx, Option.some.injEq]

/-- The parameters reach the server if and only if nothing of them is lost in the calls and,
unless there are none, the URL has neither a query nor a fragment of its own. -/
theorem queryReaches_iff (url : Bytes) (hurl : url ≠ []) (calls : List ParamCall) :
    QueryReaches url calls ↔
      (∀ c ∈ calls, c.Kept) ∧ (calls = [] ∨ (63 ∉ url ∧ 35 ∉ url)) := by
  set texts := calls.filterMap ParamCall.appended with htextsdef
  obtain ⟨r, hr, hrurl, hrquery⟩ := appendParams_query url calls [] (.new url) rfl rfl
  rw [List.nil_append, ← htextsdef] at hrquery
  have hcreate : (createRequest url).bind (appendParams calls) = .ok r := by
    rw [createRequest, if_neg hurl]
    exact hr
  have hbuild : r.buildURL = url ++ joinParams texts := by
    rw [HTTPRequest.buildURL, hrurl, hrquery]
  have htexts : ∀ t ∈ texts, 38 ∉ t ∧ 35 ∉ t := by
    intro t ht
    obtain ⟨c, -, hc⟩ := List.mem_filterMap.mp ht
    exact ⟨not_mem_appended (.inl rfl) hc, not_mem_appended (.inr (.inr rfl)) hc⟩
  have hlength : texts.length ≤ calls.length := List.length_filterMap_le ..
  have hkept : texts = calls.map ParamCall.param ↔ ∀ c ∈ calls, c.Kept := by
    rw [htextsdef, filterMap_eq_map_iff]
    exact forall₂_congr fun c _ => appended_eq_param_iff
  have hreaches : QueryReaches url calls ↔
      (splitURL (url ++ joinParams texts)).base = (splitURL url).base ∧
      (splitURL (url ++ joinParams texts)).fragment = (splitURL url).fragment ∧
      (splitURL (url ++ joinParams texts)).params =
        (splitURL url).params ++ calls.map ParamCall.param := by
    constructor
    · rintro ⟨r', hr', hbase, hfragment, hparams, -⟩
      obtain rfl := Except.ok.inj (hcreate.symm.trans hr')
      rw [hbuild] at hbase hfragment hparams
      exact ⟨hbase, hfragment, hparams⟩
    · rintro ⟨hbase, hfragment, hparams⟩
      rw [← hbuild] at hbase hfragment hparams
      exact ⟨r, hcreate, hbase, hfragment, hparams, fun c _ => readParam_param c⟩
  rw [hreaches]
  by_cases hnone : texts = []
  · have hjoin : url ++ joinParams texts = url := by rw [hnone, joinParams, if_pos rfl,
      List.append_nil]
    rw [hjoin]
    constructor
    · rintro ⟨-, -, hparams⟩
      have hcalls : calls = [] := by simpa using hparams
      simp [hcalls]
    · rintro ⟨hall, -⟩
      rw [← hkept.mpr hall, hnone]
      simp
  · have hcalls : calls ≠ [] := by
      rintro rfl
      exact hnone rfl
    by_cases hfragment : 35 ∈ url
    · refine ⟨fun hsplit => ?_, fun hplain => absurd hfragment (hplain.2.resolve_left hcalls).2⟩
      obtain ⟨a, b, rfl, ha⟩ := List.eq_append_cons_of_mem hfragment
      have hsame := hsplit.2.1
      rw [List.append_assoc, List.cons_append, splitURL_fragment ha, splitURL_fragment ha] at hsame
      have hjoin : joinParams texts = [] := by simpa using hsame
      rw [joinParams, if_neg hnone] at hjoin
      cases hjoin
    · by_cases hquery : 63 ∈ url
      · refine ⟨fun hsplit => ?_, fun hplain => absurd hquery (hplain.2.resolve_left hcalls).1⟩
        obtain ⟨a, b, rfl, ha⟩ := List.eq_append_cons_of_mem hquery
        have hcount := params_second_query ha hfragment htexts hnone
        rw [hsplit.2.2, List.length_append, List.length_map] at hcount
        omega
      · obtain ⟨hbase, hnofragment, hparams⟩ :=
          splitURL_joinParams hquery hfragment htexts hnone
        rw [hbase, hnofragment, hparams, splitURL_plain hquery hfragment]
        have hplain : calls = [] ∨ (63 ∉ url ∧ 35 ∉ url) := .inr ⟨hquery, hfragment⟩
        simp only [true_and, hplain, and_true]
        exact hkept

/-- Two calls of the test plugin. -/
def exampleCalls : List ParamCall :=
  [⟨⟨true, true, true⟩, ascii "foo", ascii "bar", by decide⟩,
    ⟨⟨true, true, true⟩, ascii "a b", ascii "1&2=3", by decide⟩]

theorem exampleCalls_reach : QueryReaches (ascii "http://h/p") exampleCalls := by
  refine (queryReaches_iff _ (by decide) _).mpr ⟨?_, .inr (by decide)⟩
  intro c hc
  simp only [exampleCalls, List.mem_cons, List.not_mem_nil, or_false] at hc
  rcases hc with rfl | rfl
  · exact ⟨rfl, by decide, by decide⟩
  · exact ⟨rfl, by decide, by decide⟩

/-- The URL has a query already: the parameter becomes part of the last one there. -/
theorem second_query_lost : ¬QueryReaches (ascii "http://h/p?a=1")
    [⟨⟨true, true, true⟩, ascii "b", ascii "2", by decide⟩] := by
  rintro ⟨r, hr, -, -, hparams, -⟩
  obtain ⟨r', hr', hurl, hquery⟩ := appendParams_query (ascii "http://h/p?a=1")
    [⟨⟨true, true, true⟩, ascii "b", ascii "2", by decide⟩] [] (.new (ascii "http://h/p?a=1"))
    rfl rfl
  have hcreate : createRequest (ascii "http://h/p?a=1") = .ok (.new (ascii "http://h/p?a=1")) := by
    decide
  rw [hcreate] at hr
  obtain rfl := Except.ok.inj (hr'.symm.trans hr)
  rw [HTTPRequest.buildURL, hurl, hquery] at hparams
  exact absurd hparams (by decide)

end RipExt.Http
