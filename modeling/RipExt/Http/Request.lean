import RipExt.Foundation.Percent
import RipExt.Http.Headers
import RipExt.Json.Number

/-! The classes `HTTPRequest` and `HTTPClient`: what a plugin collects before it sends a request,
and the URL and the header lines that are made of it. -/
namespace RipExt.Http

section Escaping

/-- `Curl_isunreserved`. -/
def curlIsunreserved (b : UInt8) : Bool :=
  48 ≤ b && b ≤ 57 || 97 ≤ b && b ≤ 122 || 65 ≤ b && b ≤ 90 ||
    b = 45 || b = 46 || b = 95 || b = 126

/-- `CURL_MAX_INPUT_LENGTH`. -/
def curlMaxInputLength : ℕ := 8000000

/-- `curl_easy_escape`; there is no result if memory runs out or if the result does not fit the
limit of its buffer. -/
def curlEasyEscape (allocated : Bool) (text : Bytes) : Option Bytes :=
  let escaped := Percent.encode curlIsunreserved text
  if allocated ∧ escaped.length + 1 ≤ 3 * curlMaxInputLength then some escaped else none

/-- Whether curl gets its memory in one call: for the session and for the two texts. -/
structure EscapeOutcome where
  init : Bool
  name : Bool
  value : Bool
  deriving DecidableEq, Repr

/-- `AppendQueryParam` and `AppendFormParam`, which differ in what they put before the first
parameter. -/
def appendParam (first : Bytes) (o : EscapeOutcome) (name value params : Bytes) : Bytes :=
  if o.init then
    match curlEasyEscape o.name name, curlEasyEscape o.value value with
    | some escapedName, some escapedValue =>
      params ++ (if params.length = 0 then first else [38]) ++ escapedName ++ [61] ++ escapedValue
    | _, _ => params
  else params

/-- What `FormatString` leaves in `char value[8192]`. -/
def formatString (text : Bytes) : Bytes := Json.snprintf 8192 text

end Escaping

section Classes

/-- The options of a request that are handed to curl as they are. -/
structure Options where
  useBasicAuth : Bool
  username : Bytes
  password : Bytes
  connectTimeout : Int32
  maxRedirects : Int32
  maxRecvSpeed : Int32
  maxSendSpeed : Int32
  timeout : Int32
  deriving DecidableEq, Repr

def Options.default : Options where
  useBasicAuth := false
  username := []
  password := []
  connectTimeout := 10
  maxRedirects := 5
  maxRecvSpeed := 0
  maxSendSpeed := 0
  timeout := 30

structure HTTPRequest where
  url : Bytes
  query : Bytes
  formData : Bytes
  headers : HTTPHeaderMap
  options : Options
  deriving DecidableEq, Repr

/-- `followLocation` is what the client has in place of `maxRedirects`. -/
structure HTTPClient where
  baseURL : Bytes
  headers : HTTPHeaderMap
  followLocation : Bool
  options : Options
  deriving DecidableEq, Repr

/-- The order in which the iterator of a `StringHashMap` visits the entries: each of them once. -/
structure Iteration where
  iter : HTTPHeaderMap → List (Bytes × Bytes)
  perm : ∀ headers, (iter headers).Perm headers

/-- The order of the entries in the model of the map. -/
def mapOrder : Iteration := ⟨id, fun _ => .refl _⟩

/-- One line of the header list, which is printed into `char header[8192]`. -/
def headerLine (entry : Bytes × Bytes) : Bytes :=
  Json.snprintf 8192 (entry.1 ++ 58 :: 32 :: entry.2)

def accept : Bytes := ascii "Accept"

def contentType : Bytes := ascii "Content-Type"

def applicationJson : Bytes := ascii "application/json"

def anyType : Bytes := ascii "*/*"

def octetStream : Bytes := ascii "application/octet-stream"

def formUrlencoded : Bytes := ascii "application/x-www-form-urlencoded"

namespace HTTPRequest

def setHeader (name value : Bytes) (r : HTTPRequest) : HTTPRequest :=
  { r with headers := r.headers.replace name value }

/-- The constructor. -/
def new (url : Bytes) : HTTPRequest :=
  HTTPRequest.setHeader contentType applicationJson
    (HTTPRequest.setHeader accept applicationJson ⟨url, [], [], [], .default⟩)

def buildURL (r : HTTPRequest) : Bytes := r.url ++ r.query

def appendQueryParam (o : EscapeOutcome) (name value : Bytes) (r : HTTPRequest) : HTTPRequest :=
  { r with query := appendParam [63] o name value r.query }

def appendFormParam (o : EscapeOutcome) (name value : Bytes) (r : HTTPRequest) : HTTPRequest :=
  { r with formData := appendParam [] o name value r.formData }

def buildHeaders (I : Iteration) (r : HTTPRequest) : List Bytes := (I.iter r.headers).map headerLine

/-- What `DownloadFile` and `UploadFile` do to the headers first. -/
def setFileHeaders (r : HTTPRequest) : HTTPRequest :=
  HTTPRequest.setHeader contentType octetStream (HTTPRequest.setHeader accept anyType r)

/-- What `PostForm` does to the headers first. -/
def setFormHeaders (r : HTTPRequest) : HTTPRequest :=
  HTTPRequest.setHeader contentType formUrlencoded
    (HTTPRequest.setHeader accept applicationJson r)

end HTTPRequest

namespace HTTPClient

/-- The constructor. -/
def new (baseURL : Bytes) : HTTPClient := ⟨baseURL, [], true, .default⟩

def setHeader (name value : Bytes) (c : HTTPClient) : HTTPClient :=
  { c with headers := c.headers.replace name value }

def buildURL (endpoint : Bytes) (c : HTTPClient) : Bytes := c.baseURL ++ [47] ++ endpoint

def buildHeaders (I : Iteration) (acceptTypes contentTypes : Bytes) (c : HTTPClient) : List Bytes :=
  headerLine (accept, acceptTypes) :: headerLine (contentType, contentTypes) ::
    (I.iter c.headers).map headerLine

end HTTPClient

end Classes

section Collecting

/-- The errors of the natives that collect. -/
inductive CollectError where
  | emptyURL | emptyBaseURL | emptyParameterName | emptyHeaderName
  deriving DecidableEq, Repr

def CollectError.message : CollectError → String
  | .emptyURL => "URL cannot be empty."
  | .emptyBaseURL => "Base URL cannot be empty."
  | .emptyParameterName => "Parameter name cannot be empty."
  | .emptyHeaderName => "Header name cannot be empty."

/-- `CreateRequest`, up to the handle. -/
def createRequest (url : Bytes) : Except CollectError HTTPRequest :=
  if url = [] then .error .emptyURL else .ok (HTTPRequest.new url)

/-- `CreateClient`, up to the handle. -/
def createClient (baseURL : Bytes) : Except CollectError HTTPClient :=
  if baseURL = [] then .error .emptyBaseURL else .ok (HTTPClient.new baseURL)

/-- The natives with a name and a format; the request stays as it is if `FormatString` throws. -/
def formatted (error : CollectError) (set : Bytes → Bytes → HTTPRequest → HTTPRequest)
    (name : Bytes) (text : Option Bytes) (r : HTTPRequest) : Except CollectError HTTPRequest :=
  if name = [] then .error error
  else
    match text with
    | none => .ok r
    | some text => .ok (set name (formatString text) r)

def appendRequestQueryParam (o : EscapeOutcome) :
    Bytes → Option Bytes → HTTPRequest → Except CollectError HTTPRequest :=
  formatted .emptyParameterName (HTTPRequest.appendQueryParam o)

def appendRequestFormParam (o : EscapeOutcome) :
    Bytes → Option Bytes → HTTPRequest → Except CollectError HTTPRequest :=
  formatted .emptyParameterName (HTTPRequest.appendFormParam o)

def setRequestHeader : Bytes → Option Bytes → HTTPRequest → Except CollectError HTTPRequest :=
  formatted .emptyHeaderName HTTPRequest.setHeader

end Collecting

end RipExt.Http
