import RipExt.Http.Request
import RipExt.Json.Dump
import RipExt.Json.Handles
import RipExt.Pipeline.Machine

/-! The natives that send a request: they read their handles, create a forward for the callback,
put a context into the request queue, and free the request handle. -/
namespace RipExt.Http
open Json (readHandle takeHandle)

section Contexts

inductive Method where
  | get | post | put | patch | delete
  deriving DecidableEq, Repr

/-- The text that `InitCurl` compares. -/
def Method.name : Method → Bytes
  | .get => ascii "GET"
  | .post => ascii "POST"
  | .put => ascii "PUT"
  | .patch => ascii "PATCH"
  | .delete => ascii "DELETE"

/-- The methods that are sent with data. -/
def Method.hasBody : Method → Bool
  | .post | .put | .patch => true
  | .get | .delete => false

/-- What the three classes of contexts have in common. -/
structure ContextBase where
  url : Bytes
  headers : List Bytes
  forward : ℕ
  value : Int32
  options : Options
  deriving DecidableEq, Repr

structure HTTPRequestContext extends ContextBase where
  method : Method
  body : Option Bytes
  pos : ℕ
  size : ℕ
  deriving DecidableEq, Repr

structure HTTPFileContext extends ContextBase where
  isUpload : Bool
  path : Bytes
  deriving DecidableEq, Repr

structure HTTPFormContext extends ContextBase where
  formData : Bytes
  deriving DecidableEq, Repr

/-- An `IHTTPContext`. -/
inductive HTTPContext where
  | request (c : HTTPRequestContext)
  | file (c : HTTPFileContext)
  | form (c : HTTPFormContext)
  deriving DecidableEq, Repr

def HTTPContext.forward : HTTPContext → ℕ
  | .request c => c.forward
  | .file c => c.forward
  | .form c => c.forward

/-- The constructor, which encodes the data at once. A null pointer of `json_dumps` becomes a body
of size 0. -/
def HTTPRequestContext.new (printf : Json.Double → Bytes) (heap : Json.Store) (method : Method)
    (data : Json.Pointer) (base : ContextBase) : Option HTTPRequestContext :=
  match data with
  | none => some ⟨base, method, none, 0, 0⟩
  | some json => (Json.jsonDumps printf heap json).map fun body =>
      ⟨base, method, body, 0, (body.getD []).length⟩

end Contexts

section World

/-- What the natives read and change: the JSON store with its handles, the open request and client
handles, the forwards that are allocated, the request queue and the error log. The address of a
forward is never given out twice. -/
structure World where
  json : Json.State
  requests : List (ℕ × HTTPRequest)
  clients : List (ℕ × HTTPClient)
  forwards : List ℕ
  nextForward : ℕ
  queue : List HTTPContext
  log : List String

/-- What the natives are given: the host, the text of a `double`, and the order of the iterator. -/
structure Env where
  host : Json.Host
  printf : Json.Double → Bytes
  iteration : Iteration

inductive SendError where
  | invalidRequest (hndl err : ℕ)
  | invalidClient (hndl err : ℕ)
  | invalidJSON (hndl err : ℕ)
  | invalidData (hndl err : ℕ)
  | noForward
  deriving DecidableEq, Repr

def SendError.message : SendError → Bytes
  | .invalidRequest hndl err => ascii "Invalid HTTPRequest handle " ++ Json.hexadecimal hndl ++
      ascii " (error " ++ Json.decimal err ++ ascii ")"
  | .invalidClient hndl err => ascii "Invalid HTTP client handle " ++ Json.hexadecimal hndl ++
      ascii " (error " ++ Json.decimal err ++ ascii ")"
  | .invalidJSON hndl err => ascii "Invalid JSON handle " ++ Json.hexadecimal hndl ++
      ascii " (error " ++ Json.decimal err ++ ascii ")"
  | .invalidData hndl err => ascii "Invalid data handle " ++ Json.hexadecimal hndl ++
      ascii " (error " ++ Json.decimal err ++ ascii ")"
  | .noForward => ascii "Could not create forward."

/-- What the plugin gets: the value 1, or an error. -/
inductive SendOutcome where
  | returned
  | thrown (error : SendError)
  deriving DecidableEq, Repr

/-- There is no result if freed memory would be read. -/
abbrev SendResult := Option (World × SendOutcome)

/-- `CreateForwardEx` and `AddFunction`; a forward that did not get its function is not released. -/
def World.createForward (w : World) (o : ForwardOutcome) : Option ℕ × World :=
  match o with
  | .noForward => (none, w)
  | .addFunctionFails =>
    (none, { w with forwards := w.nextForward :: w.forwards, nextForward := w.nextForward + 1 })
  | .created =>
    (some w.nextForward,
      { w with forwards := w.nextForward :: w.forwards, nextForward := w.nextForward + 1 })

/-- `AddRequestToQueue`. -/
def World.addRequestToQueue (w : World) (context : HTTPContext) : World :=
  { w with queue := w.queue ++ [context] }

/-- `FreeHandle` on a request handle. -/
def World.freeRequest (w : World) (hndl : ℕ) : World :=
  match takeHandle hndl w.requests with
  | none => w
  | some (_, requests) => { w with requests }

end World

section Requests
variable (V : Env) (w : World)

namespace HTTPRequest
variable (forward : ℕ) (value : Int32) (r : HTTPRequest)

def base : ContextBase :=
  ⟨r.buildURL, r.buildHeaders V.iteration, forward, value, r.options⟩

def perform (heap : Json.Store) (method : Method) (data : Json.Pointer) : Option HTTPContext :=
  (HTTPRequestContext.new V.printf heap method data (r.base V forward value)).map .request

def downloadFile (path : Bytes) : HTTPContext :=
  .file ⟨r.setFileHeaders.base V forward value, false, path⟩

def uploadFile (path : Bytes) : HTTPContext :=
  .file ⟨r.setFileHeaders.base V forward value, true, path⟩

def postForm : HTTPContext := .form ⟨r.setFormHeaders.base V forward value, r.formData⟩

end HTTPRequest

/-- `GetRequestFromHandle`, with the rest of the native. -/
def getRequestFromHandle (hndl : ℕ) (rest : HTTPRequest → SendResult) : SendResult :=
  match readHandle hndl w.requests with
  | some request => rest request
  | none => some (w, .thrown (.invalidRequest hndl (V.host.readError hndl)))

def getJSONFromHandle (hndl : ℕ) (rest : Json.Ref → SendResult) : SendResult :=
  match readHandle hndl w.json.handles with
  | some json => rest json
  | none => some (w, .thrown (.invalidJSON hndl (V.host.readError hndl)))

/-- The second half of every native of `HTTPRequest`. -/
def sendRequest (hndl : ℕ) (o : ForwardOutcome) (context : ℕ → Option HTTPContext) : SendResult :=
  match w.createForward o with
  | (none, w) => some (w, .thrown .noForward)
  | (some forward, w) => (context forward).map fun context =>
      ((w.addRequestToQueue context).freeRequest hndl, .returned)

def performWithoutData (method : Method) (hndl : ℕ) (value : Int32) (o : ForwardOutcome) :
    SendResult :=
  getRequestFromHandle V w hndl fun request =>
    sendRequest w hndl o fun forward => request.perform V forward value w.json.heap method none

def performWithData (method : Method) (hndl data : ℕ) (value : Int32) (o : ForwardOutcome) :
    SendResult :=
  getRequestFromHandle V w hndl fun request =>
    getJSONFromHandle V w data fun json =>
      sendRequest w hndl o fun forward =>
        request.perform V forward value w.json.heap method (some json)

def performGetRequest : ℕ → Int32 → ForwardOutcome → SendResult := performWithoutData V w .get

def performPostRequest : ℕ → ℕ → Int32 → ForwardOutcome → SendResult := performWithData V w .post

def performPutRequest : ℕ → ℕ → Int32 → ForwardOutcome → SendResult := performWithData V w .put

def performPatchRequest : ℕ → ℕ → Int32 → ForwardOutcome → SendResult := performWithData V w .patch

def performDeleteRequest : ℕ → Int32 → ForwardOutcome → SendResult :=
  performWithoutData V w .delete

def performDownloadFile (path : Bytes) (hndl : ℕ) (value : Int32) (o : ForwardOutcome) :
    SendResult :=
  getRequestFromHandle V w hndl fun request =>
    sendRequest w hndl o fun forward => some (request.downloadFile V forward value path)

def performUploadFile (path : Bytes) (hndl : ℕ) (value : Int32) (o : ForwardOutcome) :
    SendResult :=
  getRequestFromHandle V w hndl fun request =>
    sendRequest w hndl o fun forward => some (request.uploadFile V forward value path)

def performPostForm (hndl : ℕ) (value : Int32) (o : ForwardOutcome) : SendResult :=
  getRequestFromHandle V w hndl fun request =>
    sendRequest w hndl o fun forward => some (request.postForm V forward value)

end Requests

section Clients
variable (V : Env) (w : World)

namespace HTTPClient
variable (forward : ℕ) (value : Int32) (endpoint : Bytes) (c : HTTPClient)

def base (acceptTypes contentTypes : Bytes) : ContextBase where
  url := c.buildURL endpoint
  headers := c.buildHeaders V.iteration acceptTypes contentTypes
  forward := forward
  value := value
  options :=
    { c.options with
      maxRedirects := if c.followLocation then 5 else 0
      useBasicAuth := false
      username := []
      password := [] }

def request (heap : Json.Store) (method : Method) (data : Json.Pointer) : Option HTTPContext :=
  (HTTPRequestContext.new V.printf heap method data
    (c.base V forward value endpoint applicationJson applicationJson)).map .request

def downloadFile (path : Bytes) : HTTPContext :=
  .file ⟨c.base V forward value endpoint anyType octetStream, false, path⟩

def uploadFile (path : Bytes) : HTTPContext :=
  .file ⟨c.base V forward value endpoint anyType octetStream, true, path⟩

end HTTPClient

/-- The handle of a client, with the rest of the native. -/
def readClient (hndl : ℕ) (rest : HTTPClient → SendResult) : SendResult :=
  match readHandle hndl w.clients with
  | some client => rest client
  | none => some (w, .thrown (.invalidClient hndl (V.host.readError hndl)))

def readData (hndl : ℕ) (rest : Json.Ref → SendResult) : SendResult :=
  match readHandle hndl w.json.handles with
  | some json => rest json
  | none => some (w, .thrown (.invalidData hndl (V.host.readError hndl)))

/-- What `Request`, `DownloadFile` and `UploadFile` of `HTTPClient` have in common: without a
forward they log an error, and the native returns 1 all the same. -/
def sendClient (o : ForwardOutcome) (context : ℕ → Option HTTPContext) : SendResult :=
  match w.createForward o with
  | (none, w) => some ({ w with log := w.log ++ ["Could not create forward."] }, .returned)
  | (some forward, w) => (context forward).map fun context =>
      (w.addRequestToQueue context, .returned)

def clientWithoutData (method : Method) (endpoint : Bytes) (hndl : ℕ) (value : Int32)
    (o : ForwardOutcome) : SendResult :=
  readClient V w hndl fun client =>
    sendClient w o fun forward =>
      client.request V forward value endpoint w.json.heap method none

def clientWithData (method : Method) (endpoint : Bytes) (hndl data : ℕ) (value : Int32)
    (o : ForwardOutcome) : SendResult :=
  readClient V w hndl fun client =>
    readData V w data fun json =>
      sendClient w o fun forward =>
        client.request V forward value endpoint w.json.heap method (some json)

def getRequest : Bytes → ℕ → Int32 → ForwardOutcome → SendResult := clientWithoutData V w .get

def postRequest : Bytes → ℕ → ℕ → Int32 → ForwardOutcome → SendResult := clientWithData V w .post

def putRequest : Bytes → ℕ → ℕ → Int32 → ForwardOutcome → SendResult := clientWithData V w .put

def patchRequest : Bytes → ℕ → ℕ → Int32 → ForwardOutcome → SendResult := clientWithData V w .patch

def deleteRequest : Bytes → ℕ → Int32 → ForwardOutcome → SendResult :=
  clientWithoutData V w .delete

def downloadFile (endpoint path : Bytes) (hndl : ℕ) (value : Int32) (o : ForwardOutcome) :
    SendResult :=
  readClient V w hndl fun client =>
    sendClient w o fun forward => some (client.downloadFile V forward value endpoint path)

def uploadFile (endpoint path : Bytes) (hndl : ℕ) (value : Int32) (o : ForwardOutcome) :
    SendResult :=
  readClient V w hndl fun client =>
    sendClient w o fun forward => some (client.uploadFile V forward value endpoint path)

end Clients

section Dispatch

/-- The natives that send a request, with the arguments that differ. -/
inductive Send where
  | performGetRequest
  | performPostRequest (data : ℕ)
  | performPutRequest (data : ℕ)
  | performPatchRequest (data : ℕ)
  | performDeleteRequest
  | performDownloadFile (path : Bytes)
  | performUploadFile (path : Bytes)
  | performPostForm
  | getRequest (endpoint : Bytes)
  | postRequest (endpoint : Bytes) (data : ℕ)
  | putRequest (endpoint : Bytes) (data : ℕ)
  | patchRequest (endpoint : Bytes) (data : ℕ)
  | deleteRequest (endpoint : Bytes)
  | downloadFile (endpoint path : Bytes)
  | uploadFile (endpoint path : Bytes)
  deriving DecidableEq, Repr

def send (V : Env) (w : World) (n : Send) (hndl : ℕ) (value : Int32) (o : ForwardOutcome) :
    SendResult :=
  match n with
  | .performGetRequest => performGetRequest V w hndl value o
  | .performPostRequest data => performPostRequest V w hndl data value o
  | .performPutRequest data => performPutRequest V w hndl data value o
  | .performPatchRequest data => performPatchRequest V w hndl data value o
  | .performDeleteRequest => performDeleteRequest V w hndl value o
  | .performDownloadFile path => performDownloadFile V w path hndl value o
  | .performUploadFile path => performUploadFile V w path hndl value o
  | .performPostForm => performPostForm V w hndl value o
  | .getRequest endpoint => getRequest V w endpoint hndl value o
  | .postRequest endpoint data => postRequest V w endpoint hndl data value o
  | .putRequest endpoint data => putRequest V w endpoint hndl data value o
  | .patchRequest endpoint data => patchRequest V w endpoint hndl data value o
  | .deleteRequest endpoint => deleteRequest V w endpoint hndl value o
  | .downloadFile endpoint path => downloadFile V w endpoint path hndl value o
  | .uploadFile endpoint path => uploadFile V w endpoint path hndl value o

/-- Whether a native belongs to `HTTPClient`. -/
def Send.isClient : Send → Bool
  | .performGetRequest | .performPostRequest _ | .performPutRequest _ | .performPatchRequest _
  | .performDeleteRequest | .performDownloadFile _ | .performUploadFile _ | .performPostForm => false
  | .getRequest _ | .postRequest .. | .putRequest .. | .patchRequest .. | .deleteRequest _
  | .downloadFile .. | .uploadFile .. => true

/-- The JSON handle that a native is given. -/
def Send.data : Send → Option ℕ
  | .performPostRequest data | .performPutRequest data | .performPatchRequest data
  | .postRequest _ data | .putRequest _ data | .patchRequest _ data => some data
  | _ => none

/-- Every handle that the native is given is open. -/
def Send.Reads (n : Send) (w : World) (hndl : ℕ) : Prop :=
  (if n.isClient then (readHandle hndl w.clients).isSome else (readHandle hndl w.requests).isSome) ∧
    n.data.all fun data => (readHandle data w.json.handles).isSome

/-- The native gets no forward that it can use, and does not undo or report it: a forward without
its function stays allocated, and a native of `HTTPClient` returns 1 without any forward. -/
def Send.Fails (n : Send) (o : ForwardOutcome) : Prop :=
  o = .addFunctionFails ∨ n.isClient = true ∧ o = .noForward

end Dispatch

section Law

/-- One context more is queued, and it owns the one forward more that is allocated. -/
def Queued (w w' : World) : Prop :=
  ∃ context, w'.queue = w.queue ++ [context] ∧ context.forward = w.nextForward ∧
    w'.forwards = w.nextForward :: w.forwards

def NotQueued (w w' : World) : Prop := w'.queue = w.queue ∧ w'.forwards = w.forwards

/-- A native that succeeds has queued one context with its forward, and one of `HTTPRequest` has
freed the request handle once. A native that fails has left everything as it was. -/
def AllOrNothing (n : Send) (hndl : ℕ) (w : World) (r : World × SendOutcome) : Prop :=
  if n.isClient then
    (r.2 = .returned → Queued w r.1) ∧ (r.2 ≠ .returned → NotQueued w r.1)
  else
    (r.2 = .returned → Queued w r.1 ∧
      ∃ request, takeHandle hndl w.requests = some (request, r.1.requests)) ∧
    (r.2 ≠ .returned → NotQueued w r.1 ∧ r.1.requests = w.requests)

end Law

section Sending
variable {V : Env} {w : World} {n : Send} {hndl : ℕ} {o : ForwardOutcome} {data : Json.Pointer}

theorem AllOrNothing.queued {r : World × SendOutcome} (h : AllOrNothing n hndl w r)
    (hreturned : r.2 = .returned) : Queued w r.1 := by
  unfold AllOrNothing at h
  split_ifs at h
  · exact h.1 hreturned
  · exact (h.1 hreturned).1

theorem AllOrNothing.notQueued {r : World × SendOutcome} (h : AllOrNothing n hndl w r)
    (hthrown : r.2 ≠ .returned) : NotQueued w r.1 := by
  unfold AllOrNothing at h
  split_ifs at h
  · exact h.2 hthrown
  · exact (h.2 hthrown).1

/-- Nothing is queued, and the native returns all the same or a forward that no context owns is
left. -/
theorem not_allOrNothing_of_unqueued {r : World × SendOutcome} (hqueue : r.1.queue = w.queue)
    (hr : r.2 = .returned ∨ r.1.forwards ≠ w.forwards) : ¬AllOrNothing n hndl w r := by
  intro h
  by_cases hreturned : r.2 = .returned
  · obtain ⟨context, hcontext, -⟩ := h.queued hreturned
    rw [hqueue] at hcontext
    simp at hcontext
  · exact (hr.resolve_left hreturned) (h.notQueued hreturned).2

/-- A context that can be made carries the forward it is given. -/
def Makes (context : ℕ → Option HTTPContext) : Prop :=
  ∀ forward, ∃ c, context forward = some c ∧ c.forward = forward

theorem sendRequest_allOrNothing {context : ℕ → Option HTTPContext} (hn : n.isClient = false)
    (hread : (readHandle hndl w.requests).isSome) (hmakes : Makes context) (o : ForwardOutcome) :
    ∃ r, sendRequest w hndl o context = some r ∧ (AllOrNothing n hndl w r ↔ ¬n.Fails o) := by
  obtain ⟨⟨request, requests⟩, htake⟩ : ∃ r, takeHandle hndl w.requests = some r := by
    rw [readHandle, Option.isSome_map] at hread
    exact Option.isSome_iff_exists.mp hread
  cases o with
  | noForward =>
    refine ⟨_, rfl, ?_⟩
    simp [AllOrNothing, hn, NotQueued, Send.Fails]
  | addFunctionFails =>
    refine ⟨_, rfl, iff_of_false (not_allOrNothing_of_unqueued rfl (.inr ?_)) ?_⟩
    · simp
    · exact not_not.mpr (.inl rfl)
  | created =>
    obtain ⟨c, hc, hforward⟩ := hmakes w.nextForward
    refine ⟨_, by simp only [sendRequest, World.createForward, hc, Option.map_some]; rfl, ?_⟩
    simp [AllOrNothing, hn, Queued, World.freeRequest, World.addRequestToQueue, htake, hforward,
      Send.Fails]

theorem sendClient_allOrNothing {context : ℕ → Option HTTPContext} (hn : n.isClient = true)
    (hmakes : Makes context) (o : ForwardOutcome) :
    ∃ r, sendClient w o context = some r ∧ (AllOrNothing n hndl w r ↔ ¬n.Fails o) := by
  cases o with
  | noForward =>
    refine ⟨_, rfl, iff_of_false (not_allOrNothing_of_unqueued rfl (.inl rfl)) ?_⟩
    exact not_not.mpr (.inr ⟨hn, rfl⟩)
  | addFunctionFails =>
    refine ⟨_, rfl, iff_of_false (not_allOrNothing_of_unqueued rfl (.inl rfl)) ?_⟩
    exact not_not.mpr (.inl rfl)
  | created =>
    obtain ⟨c, hc, hforward⟩ := hmakes w.nextForward
    refine ⟨_, by simp only [sendClient, World.createForward, hc, Option.map_some]; rfl, ?_⟩
    simp [AllOrNothing, hn, Queued, World.addRequestToQueue, hforward, Send.Fails]

theorem thrown_allOrNothing (error : SendError) : AllOrNothing n hndl w (w, .thrown error) := by
  simp [AllOrNothing, NotQueued]

theorem requestContext_makes (hlive : ∀ json, data = some json → Json.Live w.json.heap json)
    (hw : w.json.Counted V.host) (method : Method) (base : ℕ → ContextBase)
    (hbase : ∀ forward, (base forward).forward = forward) :
    Makes fun forward => (HTTPRequestContext.new V.printf w.json.heap method data
      (base forward)).map .request := by
  intro forward
  cases data with
  | none => exact ⟨_, rfl, hbase forward⟩
  | some json =>
    obtain ⟨body, hbody⟩ := Option.isSome_iff_exists.mp
      (Json.jsonDumps_isSome V.printf hw (hlive json rfl))
    refine ⟨.request ⟨base forward, method, body, 0, (body.getD []).length⟩, ?_, hbase forward⟩
    simp only [HTTPRequestContext.new, hbody, Option.map_some]

/-- A native of `HTTPRequest` without data, whatever context it makes. -/
theorem getRequestFromHandle_allOrNothing {context : HTTPRequest → ℕ → Option HTTPContext}
    (hn : n.isClient = false) (hdata : n.data = none) (hmakes : ∀ r, Makes (context r)) :
    ∃ r, getRequestFromHandle V w hndl (fun request => sendRequest w hndl o (context request)) =
        some r ∧
      (AllOrNothing n hndl w r ↔ ¬(n.Reads w hndl ∧ n.Fails o)) := by
  unfold getRequestFromHandle
  cases hread : readHandle hndl w.requests with
  | none =>
    refine ⟨_, rfl, iff_of_true (thrown_allOrNothing _) ?_⟩
    simp [Send.Reads, hn, hread]
  | some request =>
    have hopen : (readHandle hndl w.requests).isSome := by rw [hread, Option.isSome_some]
    obtain ⟨r, hr, hlaw⟩ := sendRequest_allOrNothing hn hopen (hmakes request) o
    refine ⟨r, hr, hlaw.trans ?_⟩
    simp [Send.Reads, hn, hread, hdata]

theorem readClient_allOrNothing {context : HTTPClient → ℕ → Option HTTPContext}
    (hn : n.isClient = true) (hdata : n.data = none) (hmakes : ∀ c, Makes (context c)) :
    ∃ r, readClient V w hndl (fun client => sendClient w o (context client)) = some r ∧
      (AllOrNothing n hndl w r ↔ ¬(n.Reads w hndl ∧ n.Fails o)) := by
  unfold readClient
  cases hread : readHandle hndl w.clients with
  | none =>
    refine ⟨_, rfl, iff_of_true (thrown_allOrNothing _) ?_⟩
    simp [Send.Reads, hn, hread]
  | some client =>
    obtain ⟨r, hr, hlaw⟩ := sendClient_allOrNothing hn (hmakes client) o
    refine ⟨r, hr, hlaw.trans ?_⟩
    simp [Send.Reads, hn, hread, hdata]

theorem performWithoutData_allOrNothing (hw : w.json.Counted V.host) (method : Method)
    (value : Int32) (hn : n.isClient = false) (hdata : n.data = none) :
    ∃ r, performWithoutData V w method hndl value o = some r ∧
      (AllOrNothing n hndl w r ↔ ¬(n.Reads w hndl ∧ n.Fails o)) :=
  getRequestFromHandle_allOrNothing hn hdata fun _ =>
    requestContext_makes (by simp) hw method _ fun _ => rfl

theorem clientWithoutData_allOrNothing (hw : w.json.Counted V.host) (method : Method)
    (endpoint : Bytes) (value : Int32) (hn : n.isClient = true) (hdata : n.data = none) :
    ∃ r, clientWithoutData V w method endpoint hndl value o = some r ∧
      (AllOrNothing n hndl w r ↔ ¬(n.Reads w hndl ∧ n.Fails o)) :=
  readClient_allOrNothing hn hdata fun _ =>
    requestContext_makes (by simp) hw method _ fun _ => rfl

theorem performWithData_allOrNothing (hw : w.json.Counted V.host) (method : Method) {hndlData : ℕ}
    (value : Int32) (hn : n.isClient = false) (hdata : n.data = some hndlData) :
    ∃ r, performWithData V w method hndl hndlData value o = some r ∧
      (AllOrNothing n hndl w r ↔ ¬(n.Reads w hndl ∧ n.Fails o)) := by
  unfold performWithData getRequestFromHandle
  cases hread : readHandle hndl w.requests with
  | none =>
    refine ⟨_, rfl, iff_of_true (thrown_allOrNothing _) ?_⟩
    simp [Send.Reads, hn, hread]
  | some request =>
    have hopen : (readHandle hndl w.requests).isSome := by rw [hread, Option.isSome_some]
    simp only [getJSONFromHandle]
    cases hjson : readHandle hndlData w.json.handles with
    | none =>
      refine ⟨_, rfl, iff_of_true (thrown_allOrNothing _) ?_⟩
      simp [Send.Reads, hdata, hjson]
    | some json =>
      have hmakes : Makes fun forward =>
          request.perform V forward value w.json.heap method (some json) :=
        requestContext_makes (by rintro _ ⟨⟩; exact hw.live_handle hjson) hw method _ fun _ => rfl
      obtain ⟨r, hr, hlaw⟩ := sendRequest_allOrNothing hn hopen hmakes o
      refine ⟨r, hr, hlaw.trans ?_⟩
      simp [Send.Reads, hn, hread, hdata, hjson]

theorem clientWithData_allOrNothing (hw : w.json.Counted V.host) (method : Method)
    (endpoint : Bytes) {hndlData : ℕ} (value : Int32) (hn : n.isClient = true)
    (hdata : n.data = some hndlData) :
    ∃ r, clientWithData V w method endpoint hndl hndlData value o = some r ∧
      (AllOrNothing n hndl w r ↔ ¬(n.Reads w hndl ∧ n.Fails o)) := by
  unfold clientWithData readClient
  cases hread : readHandle hndl w.clients with
  | none =>
    refine ⟨_, rfl, iff_of_true (thrown_allOrNothing _) ?_⟩
    simp [Send.Reads, hn, hread]
  | some client =>
    simp only [readData]
    cases hjson : readHandle hndlData w.json.handles with
    | none =>
      refine ⟨_, rfl, iff_of_true (thrown_allOrNothing _) ?_⟩
      simp [Send.Reads, hdata, hjson]
    | some json =>
      have hmakes : Makes fun forward =>
          client.request V forward value endpoint w.json.heap method (some json) :=
        requestContext_makes (by rintro _ ⟨⟩; exact hw.live_handle hjson) hw method _ fun _ => rfl
      obtain ⟨r, hr, hlaw⟩ := sendClient_allOrNothing hn hmakes o
      refine ⟨r, hr, hlaw.trans ?_⟩
      simp [Send.Reads, hn, hread, hdata, hjson]

end Sending

section Data
variable {w : World} {n : Send} {hndl data : ℕ} {json : Json.Ref} {body : Option Bytes}

/-- The context of the data, with the forward that the call creates. -/
def Posted (w : World) (body : Option Bytes) (result : SendResult) : Prop :=
  ∃ w' c, result = some (w', .returned) ∧ w'.queue = w.queue ++ [.request c] ∧
    c.method.hasBody = true ∧ c.body = body ∧ c.size = (body.getD []).length ∧ c.pos = 0

theorem freeRequest_queue (w : World) (hndl : ℕ) : (w.freeRequest hndl).queue = w.queue := by
  unfold World.freeRequest
  cases takeHandle hndl w.requests <;> rfl

theorem performWithData_posted (V : Env) (value : Int32) {method : Method}
    (hmethod : method.hasBody = true) (hopen : (readHandle hndl w.requests).isSome)
    (hjson : readHandle data w.json.handles = some json)
    (hbody : Json.jsonDumps V.printf w.json.heap json = some body) :
    Posted w body (performWithData V w method hndl data value .created) := by
  obtain ⟨request, hrequest⟩ := Option.isSome_iff_exists.mp hopen
  let c : HTTPRequestContext :=
    ⟨request.base V w.nextForward value, method, body, 0, (body.getD []).length⟩
  have hcontext : request.perform V w.nextForward value w.json.heap method (some json) =
      some (.request c) := by
    rw [HTTPRequest.perform, HTTPRequestContext.new, hbody]
    rfl
  refine ⟨((w.createForward .created).2.addRequestToQueue (.request c)).freeRequest hndl, c, ?_, ?_,
    hmethod, rfl, rfl, rfl⟩
  · simp only [performWithData, getRequestFromHandle, getJSONFromHandle, hrequest, hjson,
      sendRequest, World.createForward, hcontext, Option.map_some]
  · rw [freeRequest_queue]
    rfl

theorem clientWithData_posted (V : Env) (value : Int32) {method : Method} (endpoint : Bytes)
    (hmethod : method.hasBody = true) (hopen : (readHandle hndl w.clients).isSome)
    (hjson : readHandle data w.json.handles = some json)
    (hbody : Json.jsonDumps V.printf w.json.heap json = some body) :
    Posted w body (clientWithData V w method endpoint hndl data value .created) := by
  obtain ⟨client, hclient⟩ := Option.isSome_iff_exists.mp hopen
  let c : HTTPRequestContext :=
    ⟨client.base V w.nextForward value endpoint applicationJson applicationJson, method, body, 0,
      (body.getD []).length⟩
  have hcontext : client.request V w.nextForward value endpoint w.json.heap method (some json) =
      some (.request c) := by
    rw [HTTPClient.request, HTTPRequestContext.new, hbody]
    rfl
  refine ⟨(w.createForward .created).2.addRequestToQueue (.request c), c, ?_, rfl, hmethod, rfl,
    rfl, rfl⟩
  simp only [clientWithData, readClient, readData, hclient, hjson, sendClient,
    World.createForward, hcontext, Option.map_some]

/-- A native with data whose handles are open and whose forward is created queues a context with
the text of the data. -/
theorem send_posted (V : Env) (value : Int32) (hreads : n.Reads w hndl)
    (hdata : n.data = some data) (hjson : readHandle data w.json.handles = some json)
    (hbody : Json.jsonDumps V.printf w.json.heap json = some body) :
    Posted w body (send V w n hndl value .created) := by
  cases n with
  | performPostRequest _ | performPutRequest _ | performPatchRequest _ =>
    cases hdata
    exact performWithData_posted V value rfl hreads.1 hjson hbody
  | postRequest endpoint _ | putRequest endpoint _ | patchRequest endpoint _ =>
    cases hdata
    exact clientWithData_posted V value endpoint rfl hreads.1 hjson hbody
  | _ => cases hdata

end Data

/-- Every native that sends a request has a result, and it is all or nothing unless its handles are
open and it fails to get a forward without undoing or reporting it. -/
theorem send_allOrNothing_iff (V : Env) {w : World} (hw : (Json.system V.host).Reachable w.json)
    (n : Send) (hndl : ℕ) (value : Int32) (o : ForwardOutcome) :
    ∃ r, send V w n hndl value o = some r ∧
      (AllOrNothing n hndl w r ↔ ¬(n.Reads w hndl ∧ n.Fails o)) := by
  have hcounted := Json.reachable_balanced hw
  cases n with
  | performGetRequest | performDeleteRequest =>
    exact performWithoutData_allOrNothing hcounted _ value rfl rfl
  | performPostRequest data | performPutRequest data | performPatchRequest data =>
    exact performWithData_allOrNothing hcounted _ value rfl rfl
  | performDownloadFile path | performUploadFile path | performPostForm =>
    exact getRequestFromHandle_allOrNothing rfl rfl fun request forward => ⟨_, rfl, rfl⟩
  | getRequest endpoint | deleteRequest endpoint =>
    exact clientWithoutData_allOrNothing hcounted _ endpoint value rfl rfl
  | postRequest endpoint data | putRequest endpoint data | patchRequest endpoint data =>
    exact clientWithData_allOrNothing hcounted _ endpoint value rfl rfl
  | downloadFile endpoint path | uploadFile endpoint path =>
    exact readClient_allOrNothing rfl rfl fun client forward => ⟨_, rfl, rfl⟩

/-- A host whose numbers are all printed as zero. -/
def plainEnv : Env := ⟨Json.plainHost, fun _ => ascii "0", mapOrder⟩

/-- One request with the handle 7 and one client with the handle 8. -/
def exampleWorld (json : Json.State) : World where
  json := json
  requests := [(7, .new (ascii "http://h/p"))]
  clients := [(8, .new (ascii "http://h"))]
  forwards := []
  nextForward := 0
  queue := []
  log := []

/-- An empty array is posted. -/
theorem post_allOrNothing :
    ∃ s, (Json.system plainEnv.host).run .empty [.createArray none] = some s ∧
    ∃ r, send plainEnv (exampleWorld s) (.performPostRequest 1) 7 0 .created = some r ∧
      AllOrNothing (.performPostRequest 1) 7 (exampleWorld s) r := by
  obtain ⟨s, hs⟩ : ∃ s, (Json.system plainEnv.host).run .empty [.createArray none] = some s :=
    ⟨_, rfl⟩
  obtain ⟨r, hr, hlaw⟩ := send_allOrNothing_iff plainEnv (w := exampleWorld s) ⟨_, hs⟩
    (.performPostRequest 1) 7 0 .created
  exact ⟨s, hs, r, hr, hlaw.mpr (by simp [Send.Fails])⟩

/-- The function cannot be added: the forward stays allocated, for a request and for a client. There
is no forward: the client returns 1 and has queued nothing. -/
theorem get_leaks_forward :
    (∃ r, send plainEnv (exampleWorld .empty) .performGetRequest 7 0 .addFunctionFails = some r ∧
      r.1.forwards = [0] ∧ ¬AllOrNothing .performGetRequest 7 (exampleWorld .empty) r) ∧
    (∃ r, send plainEnv (exampleWorld .empty) (.getRequest []) 8 0 .addFunctionFails = some r ∧
      r.1.forwards = [0] ∧ ¬AllOrNothing (.getRequest []) 8 (exampleWorld .empty) r) ∧
    ∃ r, send plainEnv (exampleWorld .empty) (.getRequest []) 8 0 .noForward = some r ∧
      r.2 = .returned ∧ r.1.queue = [] ∧ ¬AllOrNothing (.getRequest []) 8 (exampleWorld .empty) r :=
  ⟨⟨_, rfl, rfl, not_allOrNothing_of_unqueued rfl (.inr (by decide))⟩,
    ⟨_, rfl, rfl, not_allOrNothing_of_unqueued rfl (.inl rfl)⟩,
    ⟨_, rfl, rfl, rfl, not_allOrNothing_of_unqueued rfl (.inl rfl)⟩⟩

end RipExt.Http
