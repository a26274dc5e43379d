import RipExt.Foundation.History
import RipExt.Http.Form
import RipExt.Http.Outgoing
import RipExt.Json.Tables

/-! The natives that create, configure and close a request or a client, and the machine that they
make with the natives that send and with those of JSON. -/
namespace RipExt.Http
open Json (readHandle takeHandle updateHandle)

section Classes

/-- The properties of an `HTTPRequest` that a plugin can read and set. -/
inductive Setting where
  | connectTimeout | maxRedirects | maxRecvSpeed | maxSendSpeed | timeout
  deriving DecidableEq, Repr

/-- The properties of an `HTTPClient`. -/
inductive ClientSetting where
  | connectTimeout | followLocation | maxRecvSpeed | maxSendSpeed | timeout
  deriving DecidableEq, Repr

def Options.get (o : Options) : Setting → Int32
  | .connectTimeout => o.connectTimeout
  | .maxRedirects => o.maxRedirects
  | .maxRecvSpeed => o.maxRecvSpeed
  | .maxSendSpeed => o.maxSendSpeed
  | .timeout => o.timeout

def Options.set (value : Int32) (o : Options) : Setting → Options
  | .connectTimeout => { o with connectTimeout := value }
  | .maxRedirects => { o with maxRedirects := value }
  | .maxRecvSpeed => { o with maxRecvSpeed := value }
  | .maxSendSpeed => { o with maxSendSpeed := value }
  | .timeout => { o with timeout := value }

namespace HTTPRequest
variable (value : Int32) (r : HTTPRequest)

def setBasicAuth (username password : Bytes) : HTTPRequest :=
  { r with options := { r.options with useBasicAuth := true, username, password } }

def getConnectTimeout : Int32 := r.options.get .connectTimeout

def setConnectTimeout : HTTPRequest := { r with options := r.options.set value .connectTimeout }

def getMaxRedirects : Int32 := r.options.get .maxRedirects

def setMaxRedirects : HTTPRequest := { r with options := r.options.set value .maxRedirects }

def getMaxRecvSpeed : Int32 := r.options.get .maxRecvSpeed

def setMaxRecvSpeed : HTTPRequest := { r with options := r.options.set value .maxRecvSpeed }

def getMaxSendSpeed : Int32 := r.options.get .maxSendSpeed

def setMaxSendSpeed : HTTPRequest := { r with options := r.options.set value .maxSendSpeed }

def getTimeout : Int32 := r.options.get .timeout

def setTimeout : HTTPRequest := { r with options := r.options.set value .timeout }

end HTTPRequest

namespace HTTPClient
variable (value : Int32) (c : HTTPClient)

def getConnectTimeout : Int32 := c.options.get .connectTimeout

def setConnectTimeout : HTTPClient := { c with options := c.options.set value .connectTimeout }

def getFollowLocation : Bool := c.followLocation

def setFollowLocation (followLocation : Bool) : HTTPClient := { c with followLocation }

def getTimeout : Int32 := c.options.get .timeout

def setTimeout : HTTPClient := { c with options := c.options.set value .timeout }

def getMaxSendSpeed : Int32 := c.options.get .maxSendSpeed

def setMaxSendSpeed : HTTPClient := { c with options := c.options.set value .maxSendSpeed }

def getMaxRecvSpeed : Int32 := c.options.get .maxRecvSpeed

def setMaxRecvSpeed : HTTPClient := { c with options := c.options.set value .maxRecvSpeed }

end HTTPClient

end Classes

section Answers

/-- The errors that the natives throw. -/
inductive NativeError where
  | send (error : SendError)
  | collect (error : CollectError)
  | noRequestHandle (err : ℕ)
  | noClientHandle (err : ℕ)
  deriving DecidableEq, Repr

def NativeError.message : NativeError → Bytes
  | .send error => error.message
  | .collect error => ascii error.message
  | .noRequestHandle err => ascii "Could not create HTTPRequest handle (error " ++
      Json.decimal err ++ ascii ")"
  | .noClientHandle err => ascii "Could not create HTTP client handle (error " ++
      Json.decimal err ++ ascii ")"

/-- What the plugin gets. An exception of `FormatString` is not one of the native, and the answer to
the closing of a handle is the host's. -/
inductive Answer where
  | cell (value : Int32)
  | closed
  | handle (hndl : ℕ)
  | thrown (error : NativeError)
  | formatThrows
  | json (outcome : Json.Outcome)
  deriving DecidableEq, Repr

def SendOutcome.answer : SendOutcome → Answer
  | .returned => .cell 1
  | .thrown error => .thrown (.send error)

end Answers

section Natives
variable (V : Env) (w : World)

/-- A native with the handle of a request. -/
def withRequest (hndl : ℕ) (rest : HTTPRequest → Answer × World) : Answer × World :=
  match readHandle hndl w.requests with
  | some request => rest request
  | none => (.thrown (.send (.invalidRequest hndl (V.host.readError hndl))), w)

def withClient (hndl : ℕ) (rest : HTTPClient → Answer × World) : Answer × World :=
  match readHandle hndl w.clients with
  | some client => rest client
  | none => (.thrown (.send (.invalidClient hndl (V.host.readError hndl))), w)

/-- The request behind a handle is changed in place. -/
def World.putRequest (hndl : ℕ) (request : HTTPRequest) : World :=
  { w with requests := updateHandle hndl request w.requests }

def World.putClient (hndl : ℕ) (client : HTTPClient) : World :=
  { w with clients := updateHandle hndl client w.clients }

/-- `FreeHandle` on a client handle. -/
def World.freeClient (hndl : ℕ) : World :=
  match takeHandle hndl w.clients with
  | none => w
  | some (_, clients) => { w with clients }

/-- `CreateRequest`, with the result of `CreateHandleEx`. -/
def createRequestNative (url : Bytes) (created : Except ℕ ℕ) : Answer × World :=
  match createRequest url, created with
  | .error error, _ => (.thrown (.collect error), w)
  | .ok _, .error err => (.thrown (.noRequestHandle err), w)
  | .ok request, .ok hndl => (.handle hndl, { w with requests := (hndl, request) :: w.requests })

/-- `CreateClient`, with the result of `CreateHandleEx`. -/
def createClientNative (baseURL : Bytes) (created : Except ℕ ℕ) : Answer × World :=
  match createClient baseURL, created with
  | .error error, _ => (.thrown (.collect error), w)
  | .ok _, .error err => (.thrown (.noClientHandle err), w)
  | .ok client, .ok hndl => (.handle hndl, { w with clients := (hndl, client) :: w.clients })

/-- A native with a format. -/
def formattedNative (set : Bytes → Option Bytes → HTTPRequest → Except CollectError HTTPRequest)
    (hndl : ℕ) (name : Bytes) (text : Option Bytes) : Answer × World :=
  withRequest V w hndl fun request =>
    match set name text request with
    | .error error => (.thrown (.collect error), w)
    | .ok request => (if text.isSome then .cell 1 else .formatThrows, w.putRequest hndl request)

def setRequestBasicAuth (hndl : ℕ) (username password : Bytes) : Answer × World :=
  withRequest V w hndl fun request =>
    (.cell 1, w.putRequest hndl (request.setBasicAuth username password))

def requestGetter (get : HTTPRequest → Int32) (hndl : ℕ) : Answer × World :=
  withRequest V w hndl fun request => (.cell (get request), w)

def requestSetter (set : Int32 → HTTPRequest → HTTPRequest) (hndl : ℕ) (value : Int32) :
    Answer × World :=
  withRequest V w hndl fun request => (.cell 1, w.putRequest hndl (set value request))

def getRequestConnectTimeout : ℕ → Answer × World := requestGetter V w HTTPRequest.getConnectTimeout

def setRequestConnectTimeout : ℕ → Int32 → Answer × World :=
  requestSetter V w HTTPRequest.setConnectTimeout

def getRequestMaxRedirects : ℕ → Answer × World := requestGetter V w HTTPRequest.getMaxRedirects

def setRequestMaxRedirects : ℕ → Int32 → Answer × World := requestSetter V w HTTPRequest.setMaxRedirects

def getRequestMaxRecvSpeed : ℕ → Answer × World := requestGetter V w HTTPRequest.getMaxRecvSpeed

def setRequestMaxRecvSpeed : ℕ → Int32 → Answer × World := requestSetter V w HTTPRequest.setMaxRecvSpeed

def getRequestMaxSendSpeed : ℕ → Answer × World := requestGetter V w HTTPRequest.getMaxSendSpeed

def setRequestMaxSendSpeed : ℕ → Int32 → Answer × World := requestSetter V w HTTPRequest.setMaxSendSpeed

def getRequestTimeout : ℕ → Answer × World := requestGetter V w HTTPRequest.getTimeout

def setRequestTimeout : ℕ → Int32 → Answer × World := requestSetter V w HTTPRequest.setTimeout

def getRequestNumber : Setting → ℕ → Answer × World
  | .connectTimeout => getRequestConnectTimeout V w
  | .maxRedirects => getRequestMaxRedirects V w
  | .maxRecvSpeed => getRequestMaxRecvSpeed V w
  | .maxSendSpeed => getRequestMaxSendSpeed V w
  | .timeout => getRequestTimeout V w

def setRequestNumber : Setting → ℕ → Int32 → Answer × World
  | .connectTimeout => setRequestConnectTimeout V w
  | .maxRedirects => setRequestMaxRedirects V w
  | .maxRecvSpeed => setRequestMaxRecvSpeed V w
  | .maxSendSpeed => setRequestMaxSendSpeed V w
  | .timeout => setRequestTimeout V w

/-- `SetClientHeader` checks neither the name nor the value. -/
def setClientHeader (hndl : ℕ) (name value : Bytes) : Answer × World :=
  withClient V w hndl fun client => (.cell 1, w.putClient hndl (client.setHeader name value))

def clientGetter (get : HTTPClient → Int32) (hndl : ℕ) : Answer × World :=
  withClient V w hndl fun client => (.cell (get client), w)

def clientSetter (set : Int32 → HTTPClient → HTTPClient) (hndl : ℕ) (value : Int32) :
    Answer × World :=
  withClient V w hndl fun client => (.cell 1, w.putClient hndl (set value client))

def getClientConnectTimeout : ℕ → Answer × World := clientGetter V w HTTPClient.getConnectTimeout

def setClientConnectTimeout : ℕ → Int32 → Answer × World := clientSetter V w HTTPClient.setConnectTimeout

def getClientFollowLocation : ℕ → Answer × World :=
  clientGetter V w fun client => if client.getFollowLocation then 1 else 0

/-- Only the value 1 means yes. -/
def setClientFollowLocation : ℕ → Int32 → Answer × World :=
  clientSetter V w fun value client => client.setFollowLocation (value = 1)

def getClientMaxRecvSpeed : ℕ → Answer × World := clientGetter V w HTTPClient.getMaxRecvSpeed

def setClientMaxRecvSpeed : ℕ → Int32 → Answer × World := clientSetter V w HTTPClient.setMaxRecvSpeed

def getClientMaxSendSpeed : ℕ → Answer × World := clientGetter V w HTTPClient.getMaxSendSpeed

def setClientMaxSendSpeed : ℕ → Int32 → Answer × World := clientSetter V w HTTPClient.setMaxSendSpeed

def getClientTimeout : ℕ → Answer × World := clientGetter V w HTTPClient.getTimeout

def setClientTimeout : ℕ → Int32 → Answer × World := clientSetter V w HTTPClient.setTimeout

def getClientNumber : ClientSetting → ℕ → Answer × World
  | .connectTimeout => getClientConnectTimeout V w
  | .followLocation => getClientFollowLocation V w
  | .maxRecvSpeed => getClientMaxRecvSpeed V w
  | .maxSendSpeed => getClientMaxSendSpeed V w
  | .timeout => getClientTimeout V w

def setClientNumber : ClientSetting → ℕ → Int32 → Answer × World
  | .connectTimeout => setClientConnectTimeout V w
  | .followLocation => setClientFollowLocation V w
  | .maxRecvSpeed => setClientMaxRecvSpeed V w
  | .maxSendSpeed => setClientMaxSendSpeed V w
  | .timeout => setClientTimeout V w

/-- What a plugin does with its handles. -/
inductive NativeCall where
  | createRequest (url : Bytes) (created : Except ℕ ℕ)
  | createClient (baseURL : Bytes) (created : Except ℕ ℕ)
  | appendRequestFormParam (hndl : ℕ) (o : EscapeOutcome) (name : Bytes) (text : Option Bytes)
  | appendRequestQueryParam (hndl : ℕ) (o : EscapeOutcome) (name : Bytes) (text : Option Bytes)
  | setRequestHeader (hndl : ℕ) (name : Bytes) (text : Option Bytes)
  | setRequestBasicAuth (hndl : ℕ) (username password : Bytes)
  | getRequestNumber (s : Setting) (hndl : ℕ)
  | setRequestNumber (s : Setting) (hndl : ℕ) (value : Int32)
  | setClientHeader (hndl : ℕ) (name value : Bytes)
  | getClientNumber (s : ClientSetting) (hndl : ℕ)
  | setClientNumber (s : ClientSetting) (hndl : ℕ) (value : Int32)
  | send (n : Send) (hndl : ℕ) (value : Int32) (o : ForwardOutcome)
  | closeRequest (hndl : ℕ)
  | closeClient (hndl : ℕ)
  | json (c : Json.Call)

/-- One call. The handle that `CreateHandleEx` gives out is not open. -/
def World.native : NativeCall → Option (Answer × World)
  | .createRequest url created =>
    if created.toOption.all fun hndl => (readHandle hndl w.requests).isNone then
      some (createRequestNative w url created)
    else none
  | .createClient baseURL created =>
    if created.toOption.all fun hndl => (readHandle hndl w.clients).isNone then
      some (createClientNative w baseURL created)
    else none
  | .appendRequestFormParam hndl o name text =>
    some (formattedNative V w (appendRequestFormParam o) hndl name text)
  | .appendRequestQueryParam hndl o name text =>
    some (formattedNative V w (appendRequestQueryParam o) hndl name text)
  | .setRequestHeader hndl name text => some (formattedNative V w setRequestHeader hndl name text)
  | .setRequestBasicAuth hndl username password =>
    some (setRequestBasicAuth V w hndl username password)
  | .getRequestNumber s hndl => some (getRequestNumber V w s hndl)
  | .setRequestNumber s hndl value => some (setRequestNumber V w s hndl value)
  | .setClientHeader hndl name value => some (setClientHeader V w hndl name value)
  | .getClientNumber s hndl => some (getClientNumber V w s hndl)
  | .setClientNumber s hndl value => some (setClientNumber V w s hndl value)
  | .send n hndl value o => (send V w n hndl value o).map fun r => (r.2.answer, r.1)
  | .closeRequest hndl => some (.closed, w.freeRequest hndl)
  | .closeClient hndl => some (.closed, w.freeClient hndl)
  | .json c => (Json.call V.host w.json c).map fun r => (.json r.2, { w with json := r.1 })

/-- What a call gives the plugin, what it puts into the request queue and what it logs. -/
structure Output where
  answer : Answer
  queued : List HTTPContext := []
  logged : List String := []
  deriving DecidableEq, Repr

def World.empty : World := ⟨.empty, [], [], [], 0, [], []⟩

def natives : Refinement.Machine World NativeCall Output where
  init := .empty
  step w c := (w.native V c).map fun r =>
    (⟨r.1, r.2.queue.drop w.queue.length, r.2.log.drop w.log.length⟩, r.2)

end Natives

end RipExt.Http
