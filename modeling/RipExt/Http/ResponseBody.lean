import RipExt.Http.Headers
import RipExt.Json.Accept
import RipExt.Json.Handles

/-! The body of a response: curl hands it over in pieces, which both `httprequestcontext.cpp` and
`httpformcontext.cpp` collect in a buffer, and `HTTPResponse.Data` decodes that buffer as a C
string. -/
namespace RipExt.Http
open Json (State Document Host JsonError Double jsonLoadb jsonLoads openResponse getResponseData
  readHandle takeHandle)

section Receiving

/-- The buffer of a response, without the zero that ends it. There is none before the first
piece. -/
structure ResponseBody where
  body : Option Bytes := none
  size : ℕ := 0
  deriving DecidableEq, Repr

/-- `WriteResponseBody`, if `realloc` succeeds: the number of bytes it took and the buffer it
leaves. -/
def writeResponseBody (response : ResponseBody) (chunk : Bytes) : ℕ × ResponseBody :=
  (chunk.length,
    { body := some ((response.body.getD []).take response.size ++ chunk)
      size := response.size + chunk.length })

/-- curl's calls of the callback. -/
def receiveChunks (chunks : List Bytes) : ResponseBody :=
  chunks.foldl (fun response chunk => (writeResponseBody response chunk).2) {}

/-- What the decoder reports for a null pointer. -/
def wrongArguments : JsonError := ⟨-1, -1, ascii "wrong arguments"⟩

/-- The bytes of a C string. -/
def cString (text : Bytes) : Bytes := text.takeWhile (· ≠ 0)

/-- What `json_loads` with the flags 0 reads in the buffer. -/
def ResponseBody.document (strtod : Bytes → Option Double) (report : Bytes → JsonError)
    (response : ResponseBody) : Document :=
  match response.body with
  | none => ⟨.invalid, false, wrongArguments⟩
  | some text => jsonLoadb strtod {} report (cString text)

/-- `HTTPResponse.Data` returns a handle if and only if the whole text is accepted; then the handle
names what the decoder makes of the whole text, and otherwise an error is thrown. -/
structure DecodesWhole (E : Host) (s : State) (d : Document) (r : State × Json.Outcome) :
    Prop where
  accepted : (∃ hndl, r.2 = .handle hndl) ↔ d.Accepted
  decoded : ∀ hndl, r.2 = .handle hndl → ∃ json,
    jsonLoads E.toHashing s.heap d = some (some json, r.1.heap) ∧
      readHandle hndl r.1.handles = some json
  thrown : ¬d.Accepted → ∃ error, r.2 = .error error

end Receiving

section Chunks

theorem receiveChunks_append (chunks : List Bytes) (chunk : Bytes) :
    receiveChunks (chunks ++ [chunk]) = (writeResponseBody (receiveChunks chunks) chunk).2 := by
  simp [receiveChunks]

/-- The buffer holds all bytes of the pieces, wherever they were split. -/
theorem receiveChunks_eq (chunks : List Bytes) :
    ((receiveChunks chunks).body.getD []) = chunks.flatten ∧
      (receiveChunks chunks).size = chunks.flatten.length ∧
      ((receiveChunks chunks).body = none ↔ chunks = []) := by
  induction chunks using List.reverseRecOn with
  | nil => exact ⟨rfl, rfl, by simp [receiveChunks]⟩
  | append_singleton chunks chunk ih =>
    obtain ⟨hbody, hsize, -⟩ := ih
    rw [receiveChunks_append]
    refine ⟨?_, ?_, by simp [writeResponseBody]⟩
    · simp [writeResponseBody, hbody, hsize]
    · simp [writeResponseBody, hsize]

theorem receiveChunks_body {chunks : List Bytes} (hne : chunks ≠ []) :
    (receiveChunks chunks).body = some chunks.flatten := by
  obtain ⟨hbody, -, hnone⟩ := receiveChunks_eq chunks
  cases h : (receiveChunks chunks).body with
  | none => exact absurd (hnone.mp h) hne
  | some text =>
    rw [h] at hbody
    rw [← hbody]
    rfl

theorem cString_append_zero {text : Bytes} (h : 0 ∈ text) :
    ∃ more, text = cString text ++ 0 :: more := by
  induction text with
  | nil => cases h
  | cons b text ih =>
    by_cases hb : b = 0
    · exact ⟨text, by simp [cString, hb]⟩
    · obtain ⟨more, hmore⟩ := ih ((List.mem_cons.mp h).resolve_left (Ne.symm hb))
      refine ⟨more, ?_⟩
      rw [cString, List.takeWhile_cons_of_pos (by simpa using hb), List.cons_append]
      exact congrArg _ hmore

theorem cString_of_not_mem {text : Bytes} (h : 0 ∉ text) : cString text = text := by
  refine List.takeWhile_eq_self_iff.mpr fun b hb => ?_
  have hne : b ≠ 0 := by
    rintro rfl
    exact h hb
  simpa using hne

/-- An empty buffer is not accepted, and neither is one that was never allocated. -/
theorem document_eq (strtod : Bytes → Option Double) (report : Bytes → JsonError)
    (chunks : List Bytes) :
    (receiveChunks chunks).document strtod report =
        jsonLoadb strtod {} report (cString chunks.flatten) ∨
      ¬((receiveChunks chunks).document strtod report).Accepted ∧
        ¬(jsonLoadb strtod {} report (cString chunks.flatten)).Accepted := by
  by_cases hne : chunks = []
  · subst hne
    exact .inr ⟨fun h => Bool.false_ne_true h.2, fun h => Bool.false_ne_true h.2⟩
  · left
    rw [ResponseBody.document, receiveChunks_body hne]

theorem document_accepted_iff (strtod : Bytes → Option Double) (report : Bytes → JsonError)
    (chunks : List Bytes) :
    ((receiveChunks chunks).document strtod report).Accepted ↔
      (jsonLoadb strtod {} report (cString chunks.flatten)).Accepted := by
  rcases document_eq strtod report chunks with heq | ⟨h, h'⟩
  · rw [heq]
  · exact iff_of_false h h'

end Chunks

section Data
variable {E : Host} {s : State} {d d' : Document} {hndl : ℕ}

/-- The first `HTTPResponse.Data` decodes the document of the response. -/
theorem getResponseData_first (hs : s.Counted E)
    (hopen : readHandle hndl s.responses = some ⟨d, none⟩) :
    ∃ r, getResponseData E s hndl none = some r ∧ DecodesWhole E s d r := by
  obtain ⟨v, heap, hload, -⟩ := Json.jsonLoads_moves d hs
  have haccepted := Json.jsonLoads_isSome_iff hs hload
  cases v with
  | none =>
    have hrejected : ¬d.Accepted := fun h => by simpa using haccepted.mpr h
    refine ⟨({ s with heap }, .error (.syntaxError d.error)), ?_, ?_, ?_, ?_⟩
    · simp [getResponseData, hopen, hload, State.fail]
    · exact iff_of_false (by simp) hrejected
    · intro hndl h
      cases h
    · exact fun _ => ⟨_, rfl⟩
  | some json =>
    have hok : d.Accepted := haccepted.mp rfl
    refine ⟨({ State.openHandle { s with heap } json |>.1 with
      responses := Json.updateHandle hndl ⟨d, some s.nextHandle⟩ s.responses },
      .handle s.nextHandle), ?_, ?_, ?_, ?_⟩
    · simp [getResponseData, hopen, hload, Json.createHandle, State.openHandle,
        Json.Outcome.handle?]
    · exact iff_of_true ⟨_, rfl⟩ hok
    · intro hndl h
      cases h
      exact ⟨json, hload, by simp [State.openHandle, readHandle, takeHandle]⟩
    · exact fun h => absurd hok h

/-- The decoding of one document is the decoding of another. -/
theorem decodesWhole_iff {r : State × Json.Outcome} (h : DecodesWhole E s d r)
    (hsame : d.Accepted → d'.Accepted → d' = d) :
    DecodesWhole E s d' r ↔ (d.Accepted ↔ d'.Accepted) := by
  constructor
  · exact fun h' => h.accepted.symm.trans h'.accepted
  · intro hiff
    by_cases hok : d.Accepted
    · rw [hsame hok (hiff.mp hok)]
      exact h
    · have hok' : ¬d'.Accepted := fun h' => hok (hiff.mpr h')
      have hnone : ¬∃ hndl, r.2 = .handle hndl := fun hh => hok (h.accepted.mp hh)
      exact ⟨iff_of_false hnone hok', fun hndl hh => absurd ⟨hndl, hh⟩ hnone,
        fun _ => h.thrown hok⟩

/-- Where both are accepted, the text before the first zero byte is the whole text. -/
theorem accepted_cString {strtod : Bytes → Option Double} {report : Bytes → JsonError}
    {text : Bytes} (hcut : (jsonLoadb strtod {} report (cString text)).Accepted)
    (hwhole : (jsonLoadb strtod {} report text).Accepted) : 0 ∉ text := by
  intro hzero
  obtain ⟨more, hmore⟩ := cString_append_zero hzero
  have hreject := Json.not_accepted_append_zero rfl rfl hcut more
  rw [← hmore] at hreject
  exact hreject hwhole

/-- The response decodes its body up to the first zero byte, whatever the pieces were. -/
theorem decodesWhole_flatten_iff (E : Host) (strtod : Bytes → Option Double)
    (report : Bytes → JsonError) (chunks : List Bytes) (hs : s.Counted E)
    (hopen : readHandle hndl s.responses =
      some ⟨(receiveChunks chunks).document strtod report, none⟩) :
    (∃ r, getResponseData E s hndl none = some r ∧
        DecodesWhole E s (jsonLoadb strtod {} report chunks.flatten) r) ↔
      ((jsonLoadb strtod {} report (cString chunks.flatten)).Accepted ↔
        (jsonLoadb strtod {} report chunks.flatten).Accepted) := by
  have hsame : ((receiveChunks chunks).document strtod report).Accepted →
      (jsonLoadb strtod {} report chunks.flatten).Accepted →
      jsonLoadb strtod {} report chunks.flatten = (receiveChunks chunks).document strtod report := by
    intro hcut hwhole
    have hzero := accepted_cString ((document_accepted_iff strtod report chunks).mp hcut) hwhole
    rcases document_eq strtod report chunks with heq | ⟨hnot, -⟩
    · rw [heq, cString_of_not_mem hzero]
    · exact absurd hcut hnot
  obtain ⟨r, hr, hdecodes⟩ := getResponseData_first hs hopen
  have hiff := decodesWhole_iff hdecodes hsame
  rw [document_accepted_iff] at hiff
  constructor
  · rintro ⟨r', hr', h⟩
    obtain rfl := Option.some.inj (hr.symm.trans hr')
    exact hiff.mp h
  · exact fun h => ⟨r, hr, hiff.mpr h⟩

end Data

/-- In every state in which the response to some request is open and its data was not got before,
`HTTPResponse.Data` decodes the whole body, however it was split, if and only if the body has no
zero byte in it or is accepted neither as a whole nor up to the first one. -/
theorem responseData_decodesWhole_iff (E : Host) (strtod : Bytes → Option Double)
    (report : Bytes → JsonError) (chunks : List Bytes) {s : State} {hndl : ℕ}
    (hs : (Json.system E).Reachable s)
    (hopen : readHandle hndl s.responses =
      some ⟨(receiveChunks chunks).document strtod report, none⟩) :
    (∃ r, getResponseData E s hndl none = some r ∧
        DecodesWhole E s (jsonLoadb strtod {} report chunks.flatten) r) ↔
      (0 ∈ chunks.flatten →
        ¬(jsonLoadb strtod {} report (cString chunks.flatten)).Accepted ∧
          ¬(jsonLoadb strtod {} report chunks.flatten).Accepted) := by
  rw [decodesWhole_flatten_iff E strtod report chunks (Json.reachable_balanced hs) hopen]
  constructor
  · intro hiff hzero
    have hcut : ¬(jsonLoadb strtod {} report (cString chunks.flatten)).Accepted :=
      fun hcut => accepted_cString hcut (hiff.mp hcut) hzero
    exact ⟨hcut, fun hwhole => hcut (hiff.mpr hwhole)⟩
  · intro h
    by_cases hzero : 0 ∈ chunks.flatten
    · exact iff_of_false (h hzero).1 (h hzero).2
    · rw [cString_of_not_mem hzero]

/-- A decoder without real numbers, and with an empty report. -/
def noReals : Bytes → Option Double := fun _ => none

def noReport : Bytes → JsonError := fun _ => ⟨1, 0, []⟩

/-- The callback of a request whose response came in these pieces. -/
def answeredState (chunks : List Bytes) : State :=
  { State.empty with
    responses := [(1, ⟨(receiveChunks chunks).document noReals noReport, none⟩)], nextHandle := 2 }

theorem answeredState_reachable (chunks : List Bytes) :
    (Json.system Json.plainHost).Reachable (answeredState chunks) :=
  ⟨[.openResponse ((receiveChunks chunks).document noReals noReport)], rfl⟩

/-- The text `[1]` in two pieces. -/
theorem splitArray_decodesWhole : ∃ r,
    getResponseData Json.plainHost (answeredState [[91, 49], [93]]) 1 none = some r ∧
      DecodesWhole Json.plainHost (answeredState [[91, 49], [93]])
        (jsonLoadb noReals {} noReport [91, 49, 93]) r :=
  (responseData_decodesWhole_iff Json.plainHost noReals noReport [[91, 49], [93]]
    (answeredState_reachable _) rfl).mpr (by decide)

/-- The text `{}` with a zero byte after it is not JSON, but its data is an object. -/
theorem zeroAfterObject_decoded : ¬∃ r,
    getResponseData Json.plainHost (answeredState [[123, 125, 0]]) 1 none = some r ∧
      DecodesWhole Json.plainHost (answeredState [[123, 125, 0]])
        (jsonLoadb noReals {} noReport [123, 125, 0]) r := by
  have hcut : (jsonLoadb noReals {} noReport [123, 125]).Accepted := by decide
  have hwhole : ¬(jsonLoadb noReals {} noReport [123, 125, 0]).Accepted := by decide
  intro h
  have hiff := (decodesWhole_flatten_iff Json.plainHost noReals noReport [[123, 125, 0]]
    (Json.reachable_balanced (answeredState_reachable _)) rfl).mp h
  exact hwhole (hiff.mp hcut)

end RipExt.Http
