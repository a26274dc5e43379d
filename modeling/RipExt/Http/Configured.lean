import RipExt.Http.Natives

/-! What a plugin has configured: the request or the client behind a handle, and all that is sent
with it, told from the history of the calls alone. -/
namespace RipExt.Http
open Json (readHandle takeHandle updateHandle)
open Refinement (lastOf)

section Logs

/-- A call that changed a request. -/
inductive RequestChange where
  | queryParam (c : ParamCall)
  | formParam (c : ParamCall)
  | header (name value : Bytes)
  | basicAuth (username password : Bytes)
  | number (s : Setting) (value : Int32)

namespace RequestChange

def queryText : RequestChange → Option Bytes
  | .queryParam c => c.appended
  | _ => none

def form : RequestChange → Option ParamCall
  | .formParam c => some c
  | _ => none

def set : RequestChange → Option (Bytes × Bytes)
  | .header name value => some (name, value)
  | _ => none

def credentials : RequestChange → Option (Bytes × Bytes)
  | .basicAuth username password => some (username, password)
  | _ => none

def value (s : Setting) : RequestChange → Option Int32
  | .number s' value => if s' = s then some value else none
  | _ => none

end RequestChange

/-- The URL that a request was created with, and what has changed it since. -/
structure RequestLog where
  url : Bytes
  changes : List RequestChange := []

namespace RequestLog
variable (l : RequestLog)

def add (changes : List RequestChange) : RequestLog := { l with changes := l.changes ++ changes }

def number (s : Setting) : Int32 :=
  (lastOf (RequestChange.value s) l.changes).getD (Options.default.get s)

def credentials : Option (Bytes × Bytes) := lastOf RequestChange.credentials l.changes

/-- The request itself. The parameters are joined in the order of the calls, and of every other
property the last value counts. -/
def request : HTTPRequest where
  url := l.url
  query := joinParams (l.changes.filterMap RequestChange.queryText)
  formData := [38].intercalate (formParams (l.changes.filterMap RequestChange.form))
  headers := HTTPHeaderMap.setAll []
    (Operation.perform.own ++ l.changes.filterMap RequestChange.set)
  options :=
    { useBasicAuth := l.credentials.isSome
      username := (l.credentials.map (·.1)).getD []
      password := (l.credentials.map (·.2)).getD []
      connectTimeout := l.number .connectTimeout
      maxRedirects := l.number .maxRedirects
      maxRecvSpeed := l.number .maxRecvSpeed
      maxSendSpeed := l.number .maxSendSpeed
      timeout := l.number .timeout }

end RequestLog

/-- A call that changed a client. -/
inductive ClientChange where
  | header (name value : Bytes)
  | number (s : ClientSetting) (value : Int32)

namespace ClientChange

def set : ClientChange → Option (Bytes × Bytes)
  | .header name value => some (name, value)
  | .number .. => none

def value (s : ClientSetting) : ClientChange → Option Int32
  | .number s' value => if s' = s then some value else none
  | .header .. => none

end ClientChange

/-- The value in a new client. -/
def ClientSetting.fresh : ClientSetting → Int32
  | .connectTimeout => 10
  | .followLocation => 1
  | .maxRecvSpeed | .maxSendSpeed => 0
  | .timeout => 30

/-- What a value that is set reads as. -/
def ClientSetting.stored (s : ClientSetting) (value : Int32) : Int32 :=
  match s with
  | .followLocation => if value = 1 then 1 else 0
  | _ => value

structure ClientLog where
  baseURL : Bytes
  changes : List ClientChange := []

namespace ClientLog
variable (l : ClientLog)

def add (changes : List ClientChange) : ClientLog := { l with changes := l.changes ++ changes }

def number (s : ClientSetting) : Int32 :=
  ((lastOf (ClientChange.value s) l.changes).map s.stored).getD s.fresh

/-- The client itself. -/
def client : HTTPClient where
  baseURL := l.baseURL
  headers := HTTPHeaderMap.setAll [] (l.changes.filterMap ClientChange.set)
  followLocation := l.number .followLocation == 1
  options :=
    { Options.default with
      connectTimeout := l.number .connectTimeout
      maxRecvSpeed := l.number .maxRecvSpeed
      maxSendSpeed := l.number .maxSendSpeed
      timeout := l.number .timeout }

end ClientLog

end Logs

section Histories
variable (hndl : ℕ)

abbrev History := List (NativeCall × Output)

/-- How a call changes the request with the given handle, if it does not throw. -/
def NativeCall.requestChange : NativeCall → List RequestChange
  | .appendRequestFormParam h o name (some text) =>
    if hchange : h = hndl ∧ name ≠ [] then
      [.formParam ⟨o, name, formatString text, hchange.2⟩]
    else []
  | .appendRequestQueryParam h o name (some text) =>
    if hchange : h = hndl ∧ name ≠ [] then [.queryParam ⟨o, name, text, hchange.2⟩] else []
  | .setRequestHeader h name (some text) =>
    if h = hndl ∧ name ≠ [] then [.header name (formatString text)] else []
  | .setRequestBasicAuth h username password =>
    if h = hndl then [.basicAuth username password] else []
  | .setRequestNumber s h value => if h = hndl then [.number s value] else []
  | _ => []

def NativeCall.clientChange : NativeCall → List ClientChange
  | .setClientHeader h name value => if h = hndl then [.header name value] else []
  | .setClientNumber s h value => if h = hndl then [.number s value] else []
  | _ => []

def requestStep (log : Option RequestLog) (e : NativeCall × Output) : Option RequestLog :=
  match e.1 with
  | .createRequest url _ => if e.2.answer = .handle hndl then some ⟨url, []⟩ else log
  | .send n h _ _ =>
    if h = hndl ∧ n.isClient = false ∧ e.2.answer = .cell 1 then none else log
  | .closeRequest h => if h = hndl then none else log
  | c => log.map (·.add (c.requestChange hndl))

/-- The log of an open request. A new one starts when the handle is given out; it ends when the
request is sent or closed. -/
def requestLog (h : History) : Option RequestLog := h.foldl (requestStep hndl) none

def clientStep (log : Option ClientLog) (e : NativeCall × Output) : Option ClientLog :=
  match e.1 with
  | .createClient baseURL _ => if e.2.answer = .handle hndl then some ⟨baseURL, []⟩ else log
  | .closeClient h => if h = hndl then none else log
  | c => log.map (·.add (c.clientChange hndl))

def clientLog (h : History) : Option ClientLog := h.foldl (clientStep hndl) none

def jsonStep (E : Json.Host) (s : Json.State) (e : NativeCall × Output) : Json.State :=
  match e.1 with
  | .json c => ((Json.call E s c).map (·.1)).getD s
  | _ => s

/-- The JSON store after the JSON calls of a history. -/
def jsonAfter (E : Json.Host) (h : History) : Json.State := h.foldl (jsonStep E) .empty

/-- A call that has allocated a forward. -/
def allocatesForward (e : NativeCall × Output) : Bool :=
  match e.1 with
  | .send _ _ _ o => o ≠ .noForward ∧ e.2.answer ∈ [.cell 1, .thrown (.send .noForward)]
  | _ => false

def forwardsMade (h : History) : ℕ := h.countP allocatesForward

end Histories

section Expected
variable (V : Env) (h : History)

/-- The context of a request that is sent. -/
def Send.requestContext (n : Send) (forward : ℕ) (value : Int32) (heap : Json.Store)
    (data : Json.Pointer) (r : HTTPRequest) : Option HTTPContext :=
  match n with
  | .performGetRequest => r.perform V forward value heap .get none
  | .performPostRequest _ => r.perform V forward value heap .post data
  | .performPutRequest _ => r.perform V forward value heap .put data
  | .performPatchRequest _ => r.perform V forward value heap .patch data
  | .performDeleteRequest => r.perform V forward value heap .delete none
  | .performDownloadFile path => some (r.downloadFile V forward value path)
  | .performUploadFile path => some (r.uploadFile V forward value path)
  | .performPostForm => some (r.postForm V forward value)
  | _ => none

/-- The context that is sent with a client. -/
def Send.clientContext (n : Send) (forward : ℕ) (value : Int32) (heap : Json.Store)
    (data : Json.Pointer) (c : HTTPClient) : Option HTTPContext :=
  match n with
  | .getRequest endpoint => c.request V forward value endpoint heap .get none
  | .postRequest endpoint _ => c.request V forward value endpoint heap .post data
  | .putRequest endpoint _ => c.request V forward value endpoint heap .put data
  | .patchRequest endpoint _ => c.request V forward value endpoint heap .patch data
  | .deleteRequest endpoint => c.request V forward value endpoint heap .delete none
  | .downloadFile endpoint path => some (c.downloadFile V forward value endpoint path)
  | .uploadFile endpoint path => some (c.uploadFile V forward value endpoint path)
  | _ => none

/-- The JSON value that is sent; the outer `none` means that its handle is not open. -/
def Send.pointer (handles : List (ℕ × Json.Ref)) (n : Send) : Option Json.Pointer :=
  match n.data with
  | none => some none
  | some data => (readHandle data handles).map some

def Output.ofContext (context : HTTPContext) : Output := ⟨.cell 1, [context], []⟩

def Output.throws (error : NativeError) : Output := ⟨.thrown error, [], []⟩

def expectedRequest (n : Send) (hndl : ℕ) (value : Int32) (o : ForwardOutcome) : Option Output :=
  match requestLog hndl h, n.pointer (jsonAfter V.host h).handles with
  | none, _ => some (.throws (.send (.invalidRequest hndl (V.host.readError hndl))))
  | some _, none =>
    some (.throws (.send (.invalidJSON (n.data.getD 0) (V.host.readError (n.data.getD 0)))))
  | some l, some data =>
    if o = .created then
      (n.requestContext V (forwardsMade h) value (jsonAfter V.host h).heap data l.request).map
        Output.ofContext
    else some (.throws (.send .noForward))

def expectedClient (n : Send) (hndl : ℕ) (value : Int32) (o : ForwardOutcome) : Option Output :=
  match clientLog hndl h, n.pointer (jsonAfter V.host h).handles with
  | none, _ => some (.throws (.send (.invalidClient hndl (V.host.readError hndl))))
  | some _, none =>
    some (.throws (.send (.invalidData (n.data.getD 0) (V.host.readError (n.data.getD 0)))))
  | some l, some data =>
    if o = .created then
      (n.clientContext V (forwardsMade h) value (jsonAfter V.host h).heap data l.client).map
        Output.ofContext
    else some ⟨.cell 1, [], ["Could not create forward."]⟩

/-- A native that only needs the log of its request. -/
def expectedOfRequest (hndl : ℕ) (answer : RequestLog → Answer) : Output :=
  match requestLog hndl h with
  | none => .throws (.send (.invalidRequest hndl (V.host.readError hndl)))
  | some l => ⟨answer l, [], []⟩

def expectedOfClient (hndl : ℕ) (answer : ClientLog → Answer) : Output :=
  match clientLog hndl h with
  | none => .throws (.send (.invalidClient hndl (V.host.readError hndl)))
  | some l => ⟨answer l, [], []⟩

/-- The answer of a native with a name and a format. -/
def formattedAnswer (error : CollectError) (name : Bytes) (text : Option Bytes) : Answer :=
  if name = [] then .thrown (.collect error)
  else if text.isSome then .cell 1
  else .formatThrows

/-- A constructor that gets the handle `hndl` from the host, or the error `err`. -/
def expectedCreation (empty : CollectError) (refused : ℕ → NativeError) (url : Bytes)
    (taken : ℕ → Bool) (created : Except ℕ ℕ) : Option Output :=
  if created.toOption.any taken then none
  else if url = [] then some (.throws (.collect empty))
  else
    match created with
    | .error err => some (.throws (refused err))
    | .ok hndl => some ⟨.handle hndl, [], []⟩

/-- What a call gives, after the calls of a history. -/
def expected : NativeCall → Option Output
  | .createRequest url created =>
    expectedCreation .emptyURL .noRequestHandle url (fun hndl => (requestLog hndl h).isSome) created
  | .createClient baseURL created =>
    expectedCreation .emptyBaseURL .noClientHandle baseURL
      (fun hndl => (clientLog hndl h).isSome) created
  | .appendRequestFormParam hndl _ name text | .appendRequestQueryParam hndl _ name text =>
    some (expectedOfRequest V h hndl fun _ => formattedAnswer .emptyParameterName name text)
  | .setRequestHeader hndl name text =>
    some (expectedOfRequest V h hndl fun _ => formattedAnswer .emptyHeaderName name text)
  | .setRequestBasicAuth hndl _ _ | .setRequestNumber _ hndl _ =>
    some (expectedOfRequest V h hndl fun _ => .cell 1)
  | .getRequestNumber s hndl => some (expectedOfRequest V h hndl fun l => .cell (l.number s))
  | .setClientHeader hndl _ _ | .setClientNumber _ hndl _ =>
    some (expectedOfClient V h hndl fun _ => .cell 1)
  | .getClientNumber s hndl => some (expectedOfClient V h hndl fun l => .cell (l.number s))
  | .send n hndl value o =>
    if n.isClient then expectedClient V h n hndl value o else expectedRequest V h n hndl value o
  | .closeRequest _ | .closeClient _ => some ⟨.closed, [], []⟩
  | .json c => (Json.call V.host (jsonAfter V.host h) c).map fun r => ⟨.json r.2, [], []⟩

end Expected

section Changes

/-- What a call does to the request object. -/
def RequestChange.apply (r : HTTPRequest) : RequestChange → HTTPRequest
  | .queryParam c => r.appendQueryParam c.outcome c.name (formatString c.value)
  | .formParam c => r.appendFormParam c.outcome c.name c.value
  | .header name value => r.setHeader name value
  | .basicAuth username password => r.setBasicAuth username password
  | .number s value => { r with options := r.options.set value s }

theorem formData_append (c : ParamCall) (calls : List ParamCall) :
    appendParam [] c.outcome c.name c.value ([38].intercalate (formParams calls)) =
      [38].intercalate (formParams (calls ++ [c])) := by
  have hbefore := appendFormParams_formData [] calls
  have hafter := appendFormParams_formData [] (calls ++ [c])
  rw [← hafter, ← hbefore, appendFormParams, appendFormParams, List.foldl_append]
  rfl

theorem filterMap_concat {α β : Type*} (f : α → Option β) (xs : List α) (x : α) :
    (xs ++ [x]).filterMap f = xs.filterMap f ++ (f x).toList := by
  rw [List.filterMap_append]
  cases h : f x with
  | none => simp [h]
  | some y => simp [h]

theorem RequestLog.request_add (l : RequestLog) (x : RequestChange) :
    (l.add [x]).request = x.apply l.request := by
  simp only [request, number, credentials, add, Refinement.lastOf_concat, filterMap_concat]
  cases x with
  | queryParam c =>
    have hquery := appendParam_joinParams c (l.changes.filterMap RequestChange.queryText)
    simp [RequestChange.apply, RequestChange.value, RequestChange.credentials, RequestChange.set,
      RequestChange.form, RequestChange.queryText, HTTPRequest.appendQueryParam, hquery]
  | formParam c =>
    simp [RequestChange.apply, RequestChange.value, RequestChange.credentials, RequestChange.set,
      RequestChange.form, RequestChange.queryText, HTTPRequest.appendFormParam, formData_append]
  | header name value =>
    simp [RequestChange.apply, RequestChange.value, RequestChange.credentials, RequestChange.set,
      RequestChange.form, RequestChange.queryText, HTTPRequest.setHeader, HTTPHeaderMap.setAll,
      List.foldl_append]
  | basicAuth username password =>
    simp [RequestChange.apply, RequestChange.value, RequestChange.credentials, RequestChange.set,
      RequestChange.form, RequestChange.queryText, HTTPRequest.setBasicAuth]
  | number s value =>
    cases s <;>
      simp [RequestChange.apply, RequestChange.value, RequestChange.credentials, RequestChange.set,
        RequestChange.form, RequestChange.queryText, Options.set]

/-- What a call does to the client object. -/
def ClientChange.apply (c : HTTPClient) : ClientChange → HTTPClient
  | .header name value => c.setHeader name value
  | .number .connectTimeout value => c.setConnectTimeout value
  | .number .followLocation value => c.setFollowLocation (value = 1)
  | .number .maxRecvSpeed value => c.setMaxRecvSpeed value
  | .number .maxSendSpeed value => c.setMaxSendSpeed value
  | .number .timeout value => c.setTimeout value

theorem ClientLog.client_add (l : ClientLog) (x : ClientChange) :
    (l.add [x]).client = x.apply l.client := by
  simp only [client, number, add, Refinement.lastOf_concat, filterMap_concat]
  cases x with
  | header name value =>
    simp [ClientChange.apply, ClientChange.value, ClientChange.set, HTTPClient.setHeader,
      HTTPHeaderMap.setAll, List.foldl_append]
  | number s value =>
    cases s with
    | followLocation =>
      by_cases hvalue : value = 1 <;>
        simp [ClientChange.apply, ClientChange.value, ClientChange.set, HTTPClient.setFollowLocation,
          ClientSetting.stored, hvalue]
    | connectTimeout | maxRecvSpeed | maxSendSpeed | timeout =>
      simp [ClientChange.apply, ClientChange.value, ClientChange.set, ClientSetting.stored,
        HTTPClient.setConnectTimeout, HTTPClient.setMaxRecvSpeed, HTTPClient.setMaxSendSpeed,
        HTTPClient.setTimeout, Options.set]

/-- What a getter of a client returns. -/
def HTTPClient.get (client : HTTPClient) : ClientSetting → Int32
  | .connectTimeout => client.getConnectTimeout
  | .followLocation => if client.getFollowLocation then 1 else 0
  | .maxRecvSpeed => client.getMaxRecvSpeed
  | .maxSendSpeed => client.getMaxSendSpeed
  | .timeout => client.getTimeout

theorem ClientLog.get_eq (l : ClientLog) (s : ClientSetting) : l.client.get s = l.number s := by
  cases s with
  | followLocation =>
    show (if (l.number .followLocation == 1) = true then 1 else 0) = l.number .followLocation
    have hbool : l.number .followLocation = 1 ∨ l.number .followLocation = 0 := by
      unfold number
      cases lastOf (ClientChange.value .followLocation) l.changes with
      | none => exact .inl rfl
      | some value =>
        by_cases hvalue : value = 1
        · exact .inl (if_pos hvalue)
        · exact .inr (if_neg hvalue)
    rcases hbool with h | h <;> rw [h] <;> rfl
  | connectTimeout | maxRecvSpeed | maxSendSpeed | timeout => rfl

theorem RequestLog.get_eq (l : RequestLog) (s : Setting) : l.request.options.get s = l.number s := by
  cases s <;> rfl

end Changes

end RipExt.Http
