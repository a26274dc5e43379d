import RipExt.Http.HandleLogs

/-! The natives agree with the history: each request and each client is what its own log says,
whatever happens to the others. -/
namespace RipExt.Http
open Json (readHandle takeHandle updateHandle)

section Recording
variable {V : Env} {w : World} {h : History} {c : NativeCall} {hndl : ℕ}

/-- A call that is told from the log of one request. -/
def NativeCall.onRequest : NativeCall → Option ℕ
  | .appendRequestFormParam hndl _ _ _ | .appendRequestQueryParam hndl _ _ _
  | .setRequestHeader hndl _ _ | .setRequestBasicAuth hndl _ _ | .getRequestNumber _ hndl
  | .setRequestNumber _ hndl _ => some hndl
  | _ => none

def NativeCall.requestAnswer (r : HTTPRequest) : NativeCall → Answer
  | .appendRequestFormParam _ _ name text | .appendRequestQueryParam _ _ name text =>
    formattedAnswer .emptyParameterName name text
  | .setRequestHeader _ name text => formattedAnswer .emptyHeaderName name text
  | .getRequestNumber s _ => .cell (r.options.get s)
  | _ => .cell 1

theorem updateHandle_read {α : Type*} {table : List (ℕ × α)} {x : α}
    (h : readHandle hndl table = some x) : updateHandle hndl x table = table := by
  induction table with
  | nil => rfl
  | cons y ys ih =>
    rw [Json.readHandle_cons] at h
    unfold updateHandle
    split_ifs at h ⊢ with hy
    · cases h
      rw [← hy]
    · rw [ih h]

theorem putRequest_read {r : HTTPRequest} (h : readHandle hndl w.requests = some r) :
    w.putRequest hndl r = w := by
  rw [World.putRequest, updateHandle_read h]

theorem putClient_read {client : HTTPClient} (h : readHandle hndl w.clients = some client) :
    w.putClient hndl client = w := by
  rw [World.putClient, updateHandle_read h]

theorem withRequest_congr {f g : HTTPRequest → Answer × World}
    (h : ∀ r, readHandle hndl w.requests = some r → f r = g r) :
    withRequest V w hndl f = withRequest V w hndl g := by
  unfold withRequest
  cases hread : readHandle hndl w.requests with
  | none => rfl
  | some r => exact h r hread

theorem withClient_congr {f g : HTTPClient → Answer × World}
    (h : ∀ client, readHandle hndl w.clients = some client → f client = g client) :
    withClient V w hndl f = withClient V w hndl g := by
  unfold withClient
  cases hread : readHandle hndl w.clients with
  | none => rfl
  | some client => exact h client hread

theorem formattedNative_eq {error : CollectError} {set : Bytes → Bytes → HTTPRequest → HTTPRequest}
    {name : Bytes} {text : Option Bytes} {changes : List RequestChange}
    (hchanges : ∀ r, changes.foldl RequestChange.apply r =
      if name = [] then r else (text.map fun text => set name (formatString text) r).getD r) :
    formattedNative V w (formatted error set) hndl name text =
      withRequest V w hndl fun r => (formattedAnswer error name text,
        w.putRequest hndl (changes.foldl RequestChange.apply r)) := by
  refine withRequest_congr fun r hread => ?_
  have hsame := putRequest_read hread
  simp only [hchanges, formatted, formattedAnswer]
  by_cases hname : name = []
  · simp [hname, hsame]
  · cases text <;> simp [hname]

/-- Every such call answers from the request alone, and changes it by what it adds to the log. -/
theorem native_onRequest (hc : c.onRequest = some hndl) :
    w.native V c = some (withRequest V w hndl fun r => (c.requestAnswer r,
      w.putRequest hndl ((c.requestChange hndl).foldl RequestChange.apply r))) := by
  cases c with
  | appendRequestFormParam _ o name text | appendRequestQueryParam _ o name text
  | setRequestHeader _ name text =>
    cases hc
    refine congrArg some (formattedNative_eq fun r => ?_)
    cases text with
    | none => simp [NativeCall.requestChange]
    | some text =>
      by_cases hname : name = [] <;> simp [NativeCall.requestChange, RequestChange.apply, hname]
  | setRequestBasicAuth _ username password =>
    cases hc
    simp [World.native, setRequestBasicAuth, NativeCall.requestChange, RequestChange.apply,
      NativeCall.requestAnswer]
  | getRequestNumber s _ =>
    cases hc
    cases s <;> exact congrArg some (withRequest_congr fun r hread =>
      congrArg (Prod.mk _) (putRequest_read hread).symm)
  | setRequestNumber s _ value =>
    cases hc
    cases s <;> simp [World.native, NativeCall.requestChange, NativeCall.requestAnswer] <;> rfl
  | _ => cases hc

/-- A call that is told from the log of one client. -/
def NativeCall.onClient : NativeCall → Option ℕ
  | .setClientHeader hndl _ _ | .getClientNumber _ hndl | .setClientNumber _ hndl _ => some hndl
  | _ => none

def NativeCall.clientAnswer (client : HTTPClient) : NativeCall → Answer
  | .getClientNumber s _ => .cell (client.get s)
  | _ => .cell 1

theorem native_onClient (hc : c.onClient = some hndl) :
    w.native V c = some (withClient V w hndl fun client => (c.clientAnswer client,
      w.putClient hndl ((c.clientChange hndl).foldl ClientChange.apply client))) := by
  cases c with
  | setClientHeader _ name value =>
    cases hc
    simp [World.native, setClientHeader, NativeCall.clientChange, ClientChange.apply,
      NativeCall.clientAnswer]
  | getClientNumber s _ =>
    cases hc
    cases s <;> exact congrArg some (withClient_congr fun client hread =>
      congrArg (Prod.mk _) (putClient_read hread).symm)
  | setClientNumber s _ value =>
    cases hc
    cases s <;> simp [World.native, NativeCall.clientChange, NativeCall.clientAnswer] <;> rfl
  | _ => cases hc

end Recording

section Steps
variable {V : Env} {w : World} {h : History} {c : NativeCall} {hndl : ℕ}

theorem freeRequest_eq (w : World) (hndl : ℕ) :
    w.freeRequest hndl = { w with requests := dropHandle hndl w.requests } := by
  unfold World.freeRequest dropHandle
  cases takeHandle hndl w.requests <;> rfl

theorem freeClient_eq (w : World) (hndl : ℕ) :
    w.freeClient hndl = { w with clients := dropHandle hndl w.clients } := by
  unfold World.freeClient dropHandle
  cases takeHandle hndl w.clients <;> rfl

def requestSide (V : Env) : Side V HTTPRequest RequestLog where
  table := World.requests
  put w requests := { w with requests }
  view := RequestLog.request
  step := requestStep
  Owns c := ∀ hndl log o, clientStep hndl log (c, o) = log
  put_table _ := rfl
  put_queue _ _ := rfl
  put_log _ _ := rfl
  holds hw := hw.requests
  remembers {w v h e t} hw howns hsame hholds hjson hforwards := by
    have hclients : Holds v.clients ClientLog.client fun hndl =>
        clientStep hndl (clientLog hndl h) e := by
      rw [hsame.2]
      exact hw.clients.same fun n => howns n _ e.2
    exact hw.concat hholds hclients hjson hforwards

def clientSide (V : Env) : Side V HTTPClient ClientLog where
  table := World.clients
  put w clients := { w with clients }
  view := ClientLog.client
  step := clientStep
  Owns c := ∀ hndl log o, requestStep hndl log (c, o) = log
  put_table _ := rfl
  put_queue _ _ := rfl
  put_log _ _ := rfl
  holds hw := hw.clients
  remembers {w v h e t} hw howns hsame hholds hjson hforwards := by
    have hrequests : Holds v.requests RequestLog.request fun hndl =>
        requestStep hndl (requestLog hndl h) e := by
      rw [hsame.1]
      exact hw.requests.same fun n => howns n _ e.2
    exact hw.concat hrequests hholds hjson hforwards

theorem requestStep_onRequest (hc : c.onRequest = some hndl) (o : Output) (hndl' : ℕ)
    (log : Option RequestLog) :
    requestStep hndl' log (c, o) = log.map (·.add (c.requestChange hndl')) := by
  cases c <;> first | rfl | cases hc

theorem requestChange_of_ne (hc : c.onRequest = some hndl) {hndl' : ℕ} (hne : hndl' ≠ hndl) :
    c.requestChange hndl' = [] := by
  cases c with
  | appendRequestFormParam _ o name text | appendRequestQueryParam _ o name text
  | setRequestHeader _ name text =>
    cases hc
    cases text <;> simp [NativeCall.requestChange, hne.symm]
  | setRequestBasicAuth | getRequestNumber | setRequestNumber =>
    cases hc
    simp [NativeCall.requestChange, hne.symm]
  | _ => cases hc

theorem RequestLog.request_adds (l : RequestLog) (changes : List RequestChange) :
    (l.add changes).request = changes.foldl RequestChange.apply l.request :=
  view_adds RequestLog.add_nil (fun l x xs => by simp [add]) request_add l changes

theorem ClientLog.client_adds (l : ClientLog) (changes : List ClientChange) :
    (l.add changes).client = changes.foldl ClientChange.apply l.client :=
  view_adds ClientLog.add_nil (fun l x xs => by simp [add]) client_add l changes

theorem clientStep_onClient (hc : c.onClient = some hndl) (o : Output) (n : ℕ)
    (log : Option ClientLog) : clientStep n log (c, o) = log.map (·.add (c.clientChange n)) := by
  cases c <;> first | rfl | cases hc

theorem clientChange_of_ne (hc : c.onClient = some hndl) {n : ℕ} (hne : n ≠ hndl) :
    c.clientChange n = [] := by
  cases c with
  | setClientHeader | getClientNumber | setClientNumber =>
    cases hc
    simp [NativeCall.clientChange, hne.symm]
  | _ => cases hc

theorem Keeps.onRequest (hw : Remembers V w h) (hc : c.onRequest = some hndl) : Keeps V w h c := by
  refine (requestSide V).changes c.requestAnswer
    (fun r => (c.requestChange hndl).foldl RequestChange.apply r)
    (fun n l => l.add (c.requestChange n))
    (.send (.invalidRequest hndl (V.host.readError hndl))) hw ?_ ?_ ?_ ?_
    (fun n log o => requestStep_onRequest hc o n log) (fun l => l.request_adds _) fun n l hne => ?_
  · exact fun n log o => clientStep_same (by cases c <;> first | rfl | cases hc)
  · cases c <;> first | rfl | cases hc
  · rw [native_onRequest hc, withRequest]
    show some _ = some ((readHandle hndl w.requests).elim _ _)
    cases readHandle hndl w.requests <;> rfl
  · have hexpected : expected V h c = some (expectedOfRequest V h hndl fun l =>
        c.requestAnswer l.request) := by
      cases c with
      | getRequestNumber s _ =>
        cases hc
        simp only [expected, NativeCall.requestAnswer, RequestLog.get_eq]
      | _ => first | (cases hc; rfl) | cases hc
    rw [hexpected, expectedOfRequest]
    show _ = some ((requestLog hndl h).elim _ _)
    cases requestLog hndl h <;> rfl
  · rw [requestChange_of_ne hc hne, l.add_nil]

theorem Keeps.onClient (hw : Remembers V w h) (hc : c.onClient = some hndl) : Keeps V w h c := by
  refine (clientSide V).changes c.clientAnswer
    (fun client => (c.clientChange hndl).foldl ClientChange.apply client)
    (fun n l => l.add (c.clientChange n)) (.send (.invalidClient hndl (V.host.readError hndl))) hw
    ?_ ?_ ?_ ?_ (fun n log o => clientStep_onClient hc o n log) (fun l => l.client_adds _)
    fun n l hne => ?_
  · exact fun n log o => requestStep_same (by cases c <;> first | rfl | cases hc)
  · cases c <;> first | rfl | cases hc
  · rw [native_onClient hc, withClient]
    show some _ = some ((readHandle hndl w.clients).elim _ _)
    cases readHandle hndl w.clients <;> rfl
  · have hexpected : expected V h c = some (expectedOfClient V h hndl fun l =>
        c.clientAnswer l.client) := by
      cases c with
      | getClientNumber s _ =>
        cases hc
        simp only [expected, NativeCall.clientAnswer, ClientLog.get_eq]
      | _ => first | (cases hc; rfl) | cases hc
    rw [hexpected, expectedOfClient]
    show _ = some ((clientLog hndl h).elim _ _)
    cases clientLog hndl h <;> rfl
  · rw [clientChange_of_ne hc hne, l.add_nil]

theorem Keeps.closesRequest (hw : Remembers V w h) (hndl : ℕ) :
    Keeps V w h (.closeRequest hndl) := by
  refine (requestSide V).closes hw (fun n log o => clientStep_same rfl) rfl ?_ rfl
    fun n log o => rfl
  show some (Answer.closed, w.freeRequest hndl) = _
  rw [freeRequest_eq]
  rfl

theorem Keeps.closesClient (hw : Remembers V w h) (hndl : ℕ) : Keeps V w h (.closeClient hndl) := by
  refine (clientSide V).closes hw (fun n log o => requestStep_same rfl) rfl ?_ rfl
    fun n log o => rfl
  show some (Answer.closed, w.freeClient hndl) = _
  rw [freeClient_eq]
  rfl

theorem Keeps.createsRequest (hw : Remembers V w h) (url : Bytes) (created : Except ℕ ℕ) :
    Keeps V w h (.createRequest url created) := by
  have hcreate : (requestSide V).create w (createRequest url) .noRequestHandle created =
      createRequestNative w url created := by
    unfold createRequestNative Side.create
    cases createRequest url <;> cases created <;> rfl
  have hnative : w.native V (.createRequest url created) =
      if created.toOption.all fun hndl => (readHandle hndl w.requests).isNone then
        some ((requestSide V).create w (createRequest url) .noRequestHandle created)
      else none := by
    rw [hcreate]
    rfl
  exact (requestSide V).creates ⟨url, []⟩ hw (fun n log o => clientStep_same rfl) rfl hnative rfl
    rfl fun n log o => rfl

theorem Keeps.createsClient (hw : Remembers V w h) (baseURL : Bytes) (created : Except ℕ ℕ) :
    Keeps V w h (.createClient baseURL created) := by
  have hcreate : (clientSide V).create w (createClient baseURL) .noClientHandle created =
      createClientNative w baseURL created := by
    unfold createClientNative Side.create
    cases createClient baseURL <;> cases created <;> rfl
  have hnative : w.native V (.createClient baseURL created) =
      if created.toOption.all fun hndl => (readHandle hndl w.clients).isNone then
        some ((clientSide V).create w (createClient baseURL) .noClientHandle created)
      else none := by
    rw [hcreate]
    rfl
  exact (clientSide V).creates ⟨baseURL, []⟩ hw (fun n log o => requestStep_same rfl) rfl hnative
    rfl rfl fun n log o => rfl

theorem Keeps.json (hw : Remembers V w h) (c : Json.Call) : Keeps V w h (.json c) := by
  cases hcall : Json.call V.host w.json c with
  | none =>
    refine .of_none ?_ ?_
    · simp [World.native, hcall]
    · simp [expected, ← hw.json, hcall]
  | some r =>
    refine .of_some (a := .json r.2) (u := { w with json := r.1 }) ?_ (List.append_nil _).symm
      (List.append_nil _).symm ?_ (hw.concat (hw.requests.same fun n => requestStep_same rfl)
        (hw.clients.same fun n => clientStep_same rfl) ?_ rfl)
    · simp [World.native, hcall]
    · simp [expected, ← hw.json, hcall]
    · simp [jsonStep, hcall]

theorem sendRequest_eq (V : Env) (o : ForwardOutcome) (context : ℕ → Option HTTPContext) :
    sendRequest w hndl o context = (requestSide V).dispatch w o (.thrown .noForward) []
      (dropHandle hndl w.requests) context := by
  cases o with
  | created =>
    show (context w.nextForward).map _ = (context w.nextForward).map _
    simp only [freeRequest_eq]
    rfl
  | noForward | addFunctionFails =>
    simp only [sendRequest, Side.dispatch, World.createForward, List.append_nil]
    rfl

theorem sendClient_eq (V : Env) (o : ForwardOutcome) (context : ℕ → Option HTTPContext) :
    sendClient w o context = (clientSide V).dispatch w o .returned ["Could not create forward."]
      w.clients context := by
  cases o <;> rfl

/-- All natives of `HTTPRequest` that send are one. -/
theorem send_request {n : Send} (hn : n.isClient = false) (value : Int32) (o : ForwardOutcome) :
    send V w n hndl value o = (readHandle hndl w.requests).elim
      (some (w, .thrown (.invalidRequest hndl (V.host.readError hndl)))) fun request =>
        (n.pointer w.json.handles).elim
          (some (w, .thrown (.invalidJSON (n.data.getD 0) (V.host.readError (n.data.getD 0)))))
          fun data => (requestSide V).dispatch w o (.thrown .noForward) []
            (dropHandle hndl w.requests) fun forward => n.requestContext V forward value w.json.heap data request := by
  simp only [← sendRequest_eq]
  cases n with
  | performPostRequest data | performPutRequest data | performPatchRequest data =>
    show getRequestFromHandle V w hndl _ = _
    simp only [getRequestFromHandle, getJSONFromHandle, Send.pointer, Send.data]
    cases readHandle hndl w.requests <;> cases readHandle data w.json.handles <;> rfl
  | performGetRequest | performDeleteRequest | performDownloadFile | performUploadFile
  | performPostForm =>
    show getRequestFromHandle V w hndl _ = _
    unfold getRequestFromHandle
    cases readHandle hndl w.requests <;> rfl
  | _ => cases hn

/-- So are those of `HTTPClient`. -/
theorem send_client {n : Send} (hn : n.isClient = true) (value : Int32) (o : ForwardOutcome) :
    send V w n hndl value o = (readHandle hndl w.clients).elim
      (some (w, .thrown (.invalidClient hndl (V.host.readError hndl)))) fun client =>
        (n.pointer w.json.handles).elim
          (some (w, .thrown (.invalidData (n.data.getD 0) (V.host.readError (n.data.getD 0)))))
          fun data => (clientSide V).dispatch w o .returned ["Could not create forward."] w.clients
            fun forward => n.clientContext V forward value w.json.heap data client := by
  simp only [← sendClient_eq]
  cases n with
  | postRequest endpoint data | putRequest endpoint data | patchRequest endpoint data =>
    show readClient V w hndl _ = _
    simp only [readClient, readData, Send.pointer, Send.data]
    cases readHandle hndl w.clients <;> cases readHandle data w.json.handles <;> rfl
  | getRequest | deleteRequest | downloadFile | uploadFile =>
    show readClient V w hndl _ = _
    unfold readClient
    cases readHandle hndl w.clients <;> rfl
  | _ => cases hn

theorem Keeps.sendsRequest (hw : Remembers V w h) {n : Send} (hn : n.isClient = false) (hndl : ℕ)
    (value : Int32) (o : ForwardOutcome) : Keeps V w h (.send n hndl value o) := by
  refine (requestSide V).sends (fun forward heap => n.requestContext V forward value heap) hw
    (fun m log out => clientStep_same rfl) ⟨?_, ?_⟩ (.inr rfl) (send_request hn value o) ?_
    (fun m => ?_) fun context => ?_
  · simp
  · simp
  · have hexpected : expected V h (.send n hndl value o) = expectedRequest V h n hndl value o := by
      simp [expected, hn]
    rw [hexpected, expectedRequest]
    show _ = (requestLog hndl h).elim _ _
    cases requestLog hndl h <;> cases n.pointer (jsonAfter V.host h).handles <;> rfl
  · exact if_neg fun hsent => by cases hsent.2.2
  · refine hw.requests.dropped (if_pos ⟨rfl, hn, rfl⟩) fun m hne => ?_
    exact if_neg fun hsent => hne hsent.1.symm

theorem Keeps.sendsClient (hw : Remembers V w h) {n : Send} (hn : n.isClient = true) (hndl : ℕ)
    (value : Int32) (o : ForwardOutcome) : Keeps V w h (.send n hndl value o) := by
  have hkept (m : ℕ) (out : Output) :
      clientStep m (clientLog m h) (.send n hndl value o, out) = clientLog m h :=
    clientStep_same rfl
  refine (clientSide V).sends (fun forward heap => n.clientContext V forward value heap) hw
    (fun m log out => if_neg fun hsent => ?_) ⟨?_, ?_⟩ (.inl rfl) (send_client hn value o) ?_
    (fun m => hkept m _) fun context => hw.clients.same fun m => hkept m _
  · rw [hn] at hsent
    cases hsent.2.1
  · simp
  · simp
  · have hexpected : expected V h (.send n hndl value o) = expectedClient V h n hndl value o := by
      simp [expected, hn]
    rw [hexpected, expectedClient]
    show _ = (clientLog hndl h).elim _ _
    cases clientLog hndl h <;> cases n.pointer (jsonAfter V.host h).handles <;> rfl

/-- Every call is answered as the history tells. -/
theorem keeps (hw : Remembers V w h) (c : NativeCall) : Keeps V w h c := by
  cases c with
  | createRequest url created => exact .createsRequest hw url created
  | createClient baseURL created => exact .createsClient hw baseURL created
  | appendRequestFormParam | appendRequestQueryParam | setRequestHeader | setRequestBasicAuth
  | getRequestNumber | setRequestNumber => exact .onRequest hw rfl
  | setClientHeader | getClientNumber | setClientNumber => exact .onClient hw rfl
  | send n hndl value o =>
    cases hn : n.isClient with
    | false => exact .sendsRequest hw hn hndl value o
    | true => exact .sendsClient hw hn hndl value o
  | closeRequest hndl => exact .closesRequest hw hndl
  | closeClient hndl => exact .closesClient hw hndl
  | json c => exact .json hw c

theorem remembers_empty (V : Env) : Remembers V .empty [] where
  requests := ⟨List.nodup_nil, fun _ => rfl⟩
  clients := ⟨List.nodup_nil, fun _ => rfl⟩
  json := rfl
  forwards := rfl

end Steps

/-- However many requests and clients are open, and in whatever order a plugin goes through them,
every getter returns the last value that was set on its own handle, and every context that is queued
is made of what was configured on its own handle and of the data at that moment. -/
theorem natives_answer_history (V : Env) (calls : List NativeCall) :
    (natives V).answers .empty calls =
      (Refinement.Machine.ofHistory (expected V)).answers [] calls := by
  have hrecorded : (natives V).Recorded (expected V) (Remembers V) :=
    ⟨fun w h c hw => (keeps hw c).answer, fun w h c o u hw => (keeps hw c).remembers o u⟩
  exact hrecorded.answers_eq (remembers_empty V) calls

/-- Two requests in turns: each goes out with its own timeout and its own query. -/
example : ((natives plainEnv).answers .empty
      [.createRequest (ascii "http://a") (.ok 1), .createRequest (ascii "http://b") (.ok 2),
        .setRequestNumber .timeout 1 5, .setRequestNumber .timeout 2 7,
        .appendRequestQueryParam 2 ⟨true, true, true⟩ (ascii "x") (some (ascii "1")),
        .getRequestNumber .timeout 1, .send .performGetRequest 2 0 .created,
        .getRequestNumber .timeout 2, .getRequestNumber .timeout 1]).map (·.map (·.answer)) =
    some [.handle 1, .handle 2, .cell 1, .cell 1, .cell 1, .cell 5, .cell 1,
      .thrown (.send (.invalidRequest 2 (plainEnv.host.readError 2))), .cell 5] := by
  decide

end RipExt.Http
