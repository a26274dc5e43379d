import RipExt.Foundation.Transition
import RipExt.Json.Load
import RipExt.Json.Number

/-! The JSON natives of `json_natives.cpp`, and `HTTPResponse.Data`, over the store of nodes
and the tables of open handles. A call that would touch freed memory has no result. -/
namespace RipExt.Json

/-- What the natives are given by the host: the hash of the tables, the error code with which
a handle that is not open is refused, and what a plugin's buffer holds after a text has been
copied to it. -/
structure Host extends Hashing where
  readError : ℕ → ℕ
  stringToLocalUTF8 : ℕ → Bytes → Bytes

/-- The errors thrown into the plugin, with the values in their text. -/
inductive NativeError where
  | invalidJSON (hndl err : ℕ)
  | noValueForKey (key : Bytes)
  | noValueAtIndex (index : Int32)
  | noObjectHandle (err : ℕ)
  | noArrayHandle
  | noValueHandle (err : ℕ)
  | noKeysHandle (err : ℕ)
  | invalidKeys (hndl err : ℕ)
  | invalidResponse (hndl err : ℕ)
  | noDataHandle (err : ℕ)
  | syntaxError (error : JsonError)
  deriving DecidableEq, Repr

def ascii (text : String) : Bytes := text.toUTF8.toList

/-- `%x` of a handle. -/
def hexadecimal (n : ℕ) : Bytes := ascii (String.ofList (Nat.toDigits 16 n))

/-- The text of an error. -/
def NativeError.message : NativeError → Bytes
  | .invalidJSON hndl err => ascii "Invalid JSON handle " ++ hexadecimal hndl ++
      ascii " (error " ++ decimal err ++ ascii ")"
  | .noValueForKey key => ascii "Could not retrieve value for key '" ++ key ++ ascii "'"
  | .noValueAtIndex index => ascii "Could not retrieve value at index " ++ decimal index.toInt
  | .noObjectHandle err => ascii "Could not create object handle (error " ++ decimal err ++
      ascii ")"
  | .noArrayHandle => ascii "Could not create array handle."
  | .noValueHandle err => ascii "Could not create value handle (error " ++ decimal err ++
      ascii ")"
  | .noKeysHandle err => ascii "Could not create object keys handle (error " ++ decimal err ++
      ascii ")"
  | .invalidKeys hndl err => ascii "Invalid object keys handle " ++ hexadecimal hndl ++
      ascii " (error " ++ decimal err ++ ascii ")"
  | .invalidResponse hndl err => ascii "Invalid HTTP response handle " ++ hexadecimal hndl ++
      ascii " (error " ++ decimal err ++ ascii ")"
  | .noDataHandle err => ascii "Could not create data handle (error " ++ decimal err ++
      ascii ")"
  | .syntaxError error => ascii "Invalid JSON in line " ++ decimal error.line ++
      ascii ", column " ++ decimal error.column ++ ascii ": " ++ error.text

/-- What the plugin gets back. -/
inductive Outcome where
  | cell (value : Int32)
  | handle (hndl : ℕ)
  /-- The plugin's buffer has been written, and the native returns 1. -/
  | text (buffer : Bytes)
  | error (error : NativeError)
  deriving DecidableEq, Repr

def Outcome.bool (b : Bool) : Outcome := .cell (if b then 1 else 0)

/-- The object and the pair that a `JSONObjectKeys` caches. -/
structure JSONObjectKeys where
  object : Ref
  iter : Option ℕ
  deriving DecidableEq, Repr

structure HTTPResponse where
  body : Document
  hndlData : Option ℕ

/-- The store and the open handles of each type. A handle is never given out twice. -/
structure State where
  heap : Store
  handles : List (ℕ × Ref)
  keys : List (ℕ × JSONObjectKeys)
  responses : List (ℕ × HTTPResponse)
  nextHandle : ℕ

/-- The entry of an open handle, and the table without it. -/
def takeHandle {α : Type*} (hndl : ℕ) : List (ℕ × α) → Option (α × List (ℕ × α))
  | [] => none
  | x :: xs =>
    if x.1 = hndl then some (x.2, xs)
    else (takeHandle hndl xs).map fun r => (r.1, x :: r.2)

def readHandle {α : Type*} (hndl : ℕ) (table : List (ℕ × α)) : Option α :=
  (takeHandle hndl table).map (·.1)

/-- The entry of an open handle is changed in place. -/
def updateHandle {α : Type*} (hndl : ℕ) (entry : α) : List (ℕ × α) → List (ℕ × α)
  | [] => []
  | x :: xs => if x.1 = hndl then (hndl, entry) :: xs else x :: updateHandle hndl entry xs

/-- The result of a native: the state it leaves and what the plugin gets. -/
abbrev Result := Option (State × Outcome)

section Natives
variable (E : Host) (s : State)

def State.fail (error : NativeError) : Result := some (s, .error error)

/-- A native that changes nothing. -/
def State.answer (outcome : Option Outcome) : Result := outcome.map fun o => (s, o)

/-- `GetJSONFromHandle`, with the rest of the native. -/
def getJSONFromHandle (hndl : ℕ) (rest : Ref → Result) : Result :=
  match readHandle hndl s.handles with
  | some json => rest json
  | none => s.fail (.invalidJSON hndl (E.readError hndl))

/-- An open htJSON handle for a value whose reference it takes over. -/
def State.openHandle (json : Ref) : State × Outcome :=
  ({ s with handles := (s.nextHandle, json) :: s.handles, nextHandle := s.nextHandle + 1 },
    .handle s.nextHandle)

/-- `CreateHandleEx` for a value the native owns; it is given back if the host refuses the
handle with the code `refused`. -/
def createHandle (refused : Option ℕ) (error : ℕ → NativeError) (json : Ref) : Result :=
  match refused with
  | none => some (s.openHandle json)
  | some err => (jsonDecref E.toHashing s.heap (some json)).bind fun heap =>
      State.fail { s with heap } (error err)

section Creating

/-- A constructor of an empty container. -/
def create (container : Store → Pointer × Store) (error : ℕ → NativeError)
    (refused : Option ℕ) : Result :=
  let (object, heap) := container s.heap
  object.bind (createHandle E { s with heap } refused error)

def createObject (refused : Option ℕ) : Result := create E s jsonObject .noObjectHandle refused

def createArray (refused : Option ℕ) : Result :=
  create E s jsonArray (fun _ => .noArrayHandle) refused

/-- `FromString` and `FromFile`: the decoded document gets a handle. -/
def fromText (d : Document) (error : ℕ → NativeError) (refused : Option ℕ) : Result :=
  (jsonLoads E.toHashing s.heap d).bind fun (object, heap) =>
    match object with
    | none => State.fail { s with heap } (.syntaxError d.error)
    | some json => createHandle E { s with heap } refused error json

def fromString (d : Document) (refused : Option ℕ) : Result :=
  fromText E s d .noObjectHandle refused

def fromFile (d : Document) (refused : Option ℕ) : Result :=
  fromText E s d .noObjectHandle refused

end Creating

section Getting

/-- A value found in a container gets a handle of its own: the count goes up only after the
handle exists. -/
def getValue (refused : Option ℕ) (value : Ref) : Result :=
  match refused with
  | some err => s.fail (.noValueHandle err)
  | none => (jsonIncref s.heap value).map fun heap => State.openHandle { s with heap } value

/-- The object natives with a key: `missing` is the answer when the key has no value. -/
def withKey (missing : Bytes → Outcome) (found : Ref → Result) (hndl : ℕ) (key : Bytes) :
    Result :=
  getJSONFromHandle E s hndl fun object =>
    (jsonObjectGet s.heap object key).bind fun value =>
      match value with
      | none => some (s, missing key)
      | some value => found value

/-- The conversion of a cell to `size_t`. -/
def toSize (index : Int32) : ℕ := (index.toInt % 2 ^ 64).toNat

/-- The array natives with an index. -/
def withIndex (found : Ref → Result) (hndl : ℕ) (index : Int32) : Result :=
  getJSONFromHandle E s hndl fun array =>
    (jsonArrayGet s.heap array (toSize index)).bind fun value =>
      match value with
      | none => s.fail (.noValueAtIndex index)
      | some value => found value

def noKey (key : Bytes) : Outcome := .error (.noValueForKey key)

def boolValue (value : Ref) : Result :=
  s.answer ((jsonBooleanValue s.heap value).map .bool)

def floatValue (value : Ref) : Result :=
  s.answer ((jsonNumberValue s.heap value).map fun x => .cell (spFtoc x).toInt32)

def intValue (value : Ref) : Result :=
  s.answer ((jsonIntegerValue s.heap value).map fun v => .cell (Int32.ofInt v))

/-- The text of the value goes through `char result[20]`. -/
def int64Value (maxlength : ℕ) (value : Ref) : Result :=
  s.answer ((jsonIntegerValue s.heap value).map fun v =>
    .text (E.stringToLocalUTF8 maxlength (snprintf 20 (decimal v))))

def stringValue (maxlength : ℕ) (value : Ref) : Result :=
  s.answer ((jsonStringValue s.heap value).map fun text =>
    match text with
    | none => .cell 0
    | some text => .text (E.stringToLocalUTF8 maxlength text))

def isNullValue (value : Ref) : Result := s.answer ((jsonIsNull s.heap value).map .bool)

def getObjectSize (hndl : ℕ) : Result :=
  getJSONFromHandle E s hndl fun object =>
    s.answer ((jsonObjectSize s.heap object).map fun n => .cell (Int32.ofNat n))

def getArraySize (hndl : ℕ) : Result :=
  getJSONFromHandle E s hndl fun array =>
    s.answer ((jsonArraySize s.heap array).map fun n => .cell (Int32.ofNat n))

def getObjectValue (refused : Option ℕ) : ℕ → Bytes → Result :=
  withKey E s noKey (getValue s refused)

def getObjectBoolValue : ℕ → Bytes → Result := withKey E s noKey (boolValue s)

def getObjectFloatValue : ℕ → Bytes → Result := withKey E s noKey (floatValue s)

def getObjectIntValue : ℕ → Bytes → Result := withKey E s noKey (intValue s)

def getObjectInt64Value (maxlength : ℕ) : ℕ → Bytes → Result :=
  withKey E s (fun _ => .cell 0) (int64Value E s maxlength)

def getObjectStringValue (maxlength : ℕ) : ℕ → Bytes → Result :=
  withKey E s (fun _ => .cell 0) (stringValue E s maxlength)

def isObjectNullValue : ℕ → Bytes → Result := withKey E s noKey (isNullValue s)

def isObjectKeyValid : ℕ → Bytes → Result :=
  withKey E s (fun _ => .bool false) fun _ => some (s, .bool true)

def getArrayValue (refused : Option ℕ) : ℕ → Int32 → Result := withIndex E s (getValue s refused)

def getArrayBoolValue : ℕ → Int32 → Result := withIndex E s (boolValue s)

def getArrayFloatValue : ℕ → Int32 → Result := withIndex E s (floatValue s)

def getArrayIntValue : ℕ → Int32 → Result := withIndex E s (intValue s)

def getArrayInt64Value (maxlength : ℕ) : ℕ → Int32 → Result :=
  withIndex E s (int64Value E s maxlength)

def getArrayStringValue (maxlength : ℕ) : ℕ → Int32 → Result :=
  withIndex E s (stringValue E s maxlength)

def isArrayNullValue : ℕ → Int32 → Result := withIndex E s (isNullValue s)

end Getting

section Setting

/-- What a native makes of the result of a function of `value.c`. -/
def finish (result : Option (Bool × Store)) : Result :=
  result.map fun r => ({ s with heap := r.2 }, .bool r.1)

def floatOf (cell : UInt32) (heap : Store) : Pointer × Store := jsonReal heap (spCtof cell)

def intOf (cell : Int32) (heap : Store) : Pointer × Store := jsonInteger heap cell.toInt

def boolOf (cell : Int32) (heap : Store) : Pointer × Store := jsonBoolean heap (cell ≠ 0)

def stringOf (text : Bytes) (heap : Store) : Pointer × Store := jsonString heap text

/-- The object natives that set a value they create. -/
def setObjectNew (value : Store → Pointer × Store) (hndl : ℕ) (key : Bytes) : Result :=
  getJSONFromHandle E s hndl fun object =>
    let (value, heap) := value s.heap
    finish s (jsonObjectSetNew E.toHashing heap object key value)

def setArrayNew (value : Store → Pointer × Store) (hndl : ℕ) (index : Int32) : Result :=
  getJSONFromHandle E s hndl fun array =>
    let (value, heap) := value s.heap
    finish s (jsonArraySetNew E.toHashing heap array (toSize index) value)

def pushArrayNew (value : Store → Pointer × Store) (hndl : ℕ) : Result :=
  getJSONFromHandle E s hndl fun array =>
    let (value, heap) := value s.heap
    finish s (jsonArrayAppendNew E.toHashing heap array value)

def setObjectValue (hndl : ℕ) (key : Bytes) (hndlValue : ℕ) : Result :=
  getJSONFromHandle E s hndl fun object =>
    getJSONFromHandle E s hndlValue fun value =>
      finish s (jsonObjectSet E.toHashing s.heap object key value)

def setObjectBoolValue (hndl : ℕ) (key : Bytes) (value : Int32) : Result :=
  setObjectNew E s (boolOf value) hndl key

def setObjectFloatValue (hndl : ℕ) (key : Bytes) (value : UInt32) : Result :=
  setObjectNew E s (floatOf value) hndl key

def setObjectIntValue (hndl : ℕ) (key : Bytes) (value : Int32) : Result :=
  setObjectNew E s (intOf value) hndl key

def setObjectInt64Value (hndl : ℕ) (key val : Bytes) : Result :=
  setObjectNew E s (jsonInteger · (strtoll val).1) hndl key

def setObjectNullValue (hndl : ℕ) (key : Bytes) : Result := setObjectNew E s jsonNull hndl key

def setObjectStringValue (hndl : ℕ) (key val : Bytes) : Result :=
  setObjectNew E s (stringOf val) hndl key

def setArrayValue (hndl : ℕ) (index : Int32) (hndlValue : ℕ) : Result :=
  getJSONFromHandle E s hndl fun array =>
    getJSONFromHandle E s hndlValue fun value =>
      finish s (jsonArraySet E.toHashing s.heap array (toSize index) value)

def setArrayBoolValue (hndl : ℕ) (index value : Int32) : Result :=
  setArrayNew E s (boolOf value) hndl index

def setArrayFloatValue (hndl : ℕ) (index : Int32) (value : UInt32) : Result :=
  setArrayNew E s (floatOf value) hndl index

def setArrayIntValue (hndl : ℕ) (index value : Int32) : Result :=
  setArrayNew E s (intOf value) hndl index

def setArrayInt64Value (hndl : ℕ) (index : Int32) (val : Bytes) : Result :=
  setArrayNew E s (jsonInteger · (jsonStrtoint val).1) hndl index

def setArrayNullValue (hndl : ℕ) (index : Int32) : Result := setArrayNew E s jsonNull hndl index

def setArrayStringValue (hndl : ℕ) (index : Int32) (val : Bytes) : Result :=
  setArrayNew E s (stringOf val) hndl index

def pushArrayValue (hndl hndlValue : ℕ) : Result :=
  getJSONFromHandle E s hndl fun array =>
    getJSONFromHandle E s hndlValue fun value =>
      finish s (jsonArrayAppend E.toHashing s.heap array value)

def pushArrayBoolValue (hndl : ℕ) (value : Int32) : Result := pushArrayNew E s (boolOf value) hndl

def pushArrayFloatValue (hndl : ℕ) (value : UInt32) : Result :=
  pushArrayNew E s (floatOf value) hndl

def pushArrayIntValue (hndl : ℕ) (value : Int32) : Result := pushArrayNew E s (intOf value) hndl

def pushArrayInt64Value (hndl : ℕ) (val : Bytes) : Result :=
  pushArrayNew E s (jsonInteger · (jsonStrtoint val).1) hndl

def pushArrayNullValue (hndl : ℕ) : Result := pushArrayNew E s jsonNull hndl

def pushArrayStringValue (hndl : ℕ) (val : Bytes) : Result := pushArrayNew E s (stringOf val) hndl

def removeFromObject (hndl : ℕ) (key : Bytes) : Result :=
  getJSONFromHandle E s hndl fun object => finish s (jsonObjectDel E.toHashing s.heap object key)

def clearObject (hndl : ℕ) : Result :=
  getJSONFromHandle E s hndl fun object => finish s (jsonObjectClear E.toHashing s.heap object)

def removeFromArray (hndl : ℕ) (index : Int32) : Result :=
  getJSONFromHandle E s hndl fun array =>
    finish s (jsonArrayRemove E.toHashing s.heap array (toSize index))

def clearArray (hndl : ℕ) : Result :=
  getJSONFromHandle E s hndl fun array => finish s (jsonArrayClear E.toHashing s.heap array)

end Setting

section Iterating

def createObjectKeys (hndl : ℕ) (refused : Option ℕ) : Result :=
  getJSONFromHandle E s hndl fun object =>
    (jsonObjectIter s.heap object).bind fun iter =>
      match refused with
      | some err => s.fail (.noKeysHandle err)
      | none => some ({ s with
          keys := (s.nextHandle, ⟨object, iter⟩) :: s.keys
          nextHandle := s.nextHandle + 1 }, .handle s.nextHandle)

def readObjectKey (hndlKeys maxlength : ℕ) : Result :=
  match readHandle hndlKeys s.keys with
  | none => s.fail (.invalidKeys hndlKeys (E.readError hndlKeys))
  | some keys =>
    (jsonObjectIterKey s.heap keys.object keys.iter).bind fun key =>
      match key with
      | none => some (s, .cell 0)
      | some key =>
        (jsonObjectIterNext s.heap keys.object keys.iter).map fun iter =>
          ({ s with keys := updateHandle hndlKeys ⟨keys.object, iter⟩ s.keys },
            .text (E.stringToLocalUTF8 maxlength key))

/-- `JSONObjectKeysHandler::OnHandleDestroy` at the closing of a handle. -/
def closeKeys (hndlKeys : ℕ) : Result :=
  match takeHandle hndlKeys s.keys with
  | none => some (s, .bool false)
  | some (_, keys) => some ({ s with keys }, .bool true)

end Iterating

section Responding

/-- `JSONHandler::OnHandleDestroy` at the closing of a handle. -/
def closeHandle (hndl : ℕ) : Result :=
  match takeHandle hndl s.handles with
  | none => some (s, .bool false)
  | some (json, handles) =>
    (jsonDecref E.toHashing s.heap (some json)).map fun heap =>
      ({ s with heap, handles }, .bool true)

/-- The response handle that `OnCompleted` opens for the callback. -/
def openResponse (body : Document) : Result :=
  some ({ s with
    responses := (s.nextHandle, ⟨body, none⟩) :: s.responses
    nextHandle := s.nextHandle + 1 }, .handle s.nextHandle)

def Outcome.handle? : Outcome → Option ℕ
  | .handle hndl => some hndl
  | _ => none

def getResponseData (hndlResponse : ℕ) (refused : Option ℕ) : Result :=
  match readHandle hndlResponse s.responses with
  | none => s.fail (.invalidResponse hndlResponse (E.readError hndlResponse))
  | some response =>
    match response.hndlData with
    | some hndlData => some (s, .handle hndlData)
    | none =>
      (jsonLoads E.toHashing s.heap response.body).bind fun (data, heap) =>
        match data with
        | none => State.fail { s with heap } (.syntaxError response.body.error)
        | some json =>
          (createHandle E { s with heap } refused .noDataHandle json).map fun (s, o) =>
            ({ s with responses :=
              updateHandle hndlResponse { response with hndlData := o.handle? } s.responses }, o)

/-- The end of `OnCompleted`: the response handle is freed, and the data handle with it. -/
def closeResponse (hndlResponse : ℕ) : Result :=
  match takeHandle hndlResponse s.responses with
  | none => some (s, .bool false)
  | some (response, responses) =>
    match response.hndlData with
    | none => some ({ s with responses }, .bool true)
    | some hndlData => closeHandle E { s with responses } hndlData

end Responding

end Natives

/-- The value argument of a Set or Push native. -/
inductive Value where
  | handle (hndl : ℕ)
  | bool (value : Int32)
  | float (value : UInt32)
  | int (value : Int32)
  | int64 (val : Bytes)
  | null
  | string (val : Bytes)
  deriving DecidableEq, Repr

/-- The typed Get natives. -/
inductive Getter where
  | value (refused : Option ℕ)
  | bool | float | int
  | int64 (maxlength : ℕ)
  | string (maxlength : ℕ)
  | isNull
  deriving DecidableEq, Repr

/-- Everything that happens to the store: the natives, and the host opening and closing
handles. -/
inductive Call where
  | createObject (refused : Option ℕ)
  | createArray (refused : Option ℕ)
  | fromString (d : Document) (refused : Option ℕ)
  | fromFile (d : Document) (refused : Option ℕ)
  | getObjectSize (hndl : ℕ)
  | getArraySize (hndl : ℕ)
  | isObjectKeyValid (hndl : ℕ) (key : Bytes)
  | getObject (getter : Getter) (hndl : ℕ) (key : Bytes)
  | getArray (getter : Getter) (hndl : ℕ) (index : Int32)
  | setObject (hndl : ℕ) (key : Bytes) (value : Value)
  | setArray (hndl : ℕ) (index : Int32) (value : Value)
  | pushArray (hndl : ℕ) (value : Value)
  | removeFromObject (hndl : ℕ) (key : Bytes)
  | clearObject (hndl : ℕ)
  | removeFromArray (hndl : ℕ) (index : Int32)
  | clearArray (hndl : ℕ)
  | createObjectKeys (hndl : ℕ) (refused : Option ℕ)
  | readObjectKey (hndlKeys maxlength : ℕ)
  | closeKeys (hndlKeys : ℕ)
  | closeHandle (hndl : ℕ)
  | openResponse (body : Document)
  | getResponseData (hndlResponse : ℕ) (refused : Option ℕ)
  | closeResponse (hndlResponse : ℕ)

section Dispatch
variable (E : Host) (s : State)

def getObject (hndl : ℕ) (key : Bytes) : Getter → Result
  | .value refused => getObjectValue E s refused hndl key
  | .bool => getObjectBoolValue E s hndl key
  | .float => getObjectFloatValue E s hndl key
  | .int => getObjectIntValue E s hndl key
  | .int64 maxlength => getObjectInt64Value E s maxlength hndl key
  | .string maxlength => getObjectStringValue E s maxlength hndl key
  | .isNull => isObjectNullValue E s hndl key

def getArray (hndl : ℕ) (index : Int32) : Getter → Result
  | .value refused => getArrayValue E s refused hndl index
  | .bool => getArrayBoolValue E s hndl index
  | .float => getArrayFloatValue E s hndl index
  | .int => getArrayIntValue E s hndl index
  | .int64 maxlength => getArrayInt64Value E s maxlength hndl index
  | .string maxlength => getArrayStringValue E s maxlength hndl index
  | .isNull => isArrayNullValue E s hndl index

def setObject (hndl : ℕ) (key : Bytes) : Value → Result
  | .handle hndlValue => setObjectValue E s hndl key hndlValue
  | .bool value => setObjectBoolValue E s hndl key value
  | .float value => setObjectFloatValue E s hndl key value
  | .int value => setObjectIntValue E s hndl key value
  | .int64 val => setObjectInt64Value E s hndl key val
  | .null => setObjectNullValue E s hndl key
  | .string val => setObjectStringValue E s hndl key val

def setArray (hndl : ℕ) (index : Int32) : Value → Result
  | .handle hndlValue => setArrayValue E s hndl index hndlValue
  | .bool value => setArrayBoolValue E s hndl index value
  | .float value => setArrayFloatValue E s hndl index value
  | .int value => setArrayIntValue E s hndl index value
  | .int64 val => setArrayInt64Value E s hndl index val
  | .null => setArrayNullValue E s hndl index
  | .string val => setArrayStringValue E s hndl index val

def pushArray (hndl : ℕ) : Value → Result
  | .handle hndlValue => pushArrayValue E s hndl hndlValue
  | .bool value => pushArrayBoolValue E s hndl value
  | .float value => pushArrayFloatValue E s hndl value
  | .int value => pushArrayIntValue E s hndl value
  | .int64 val => pushArrayInt64Value E s hndl val
  | .null => pushArrayNullValue E s hndl
  | .string val => pushArrayStringValue E s hndl val

def call : Call → Result
  | .createObject refused => createObject E s refused
  | .createArray refused => createArray E s refused
  | .fromString d refused => fromString E s d refused
  | .fromFile d refused => fromFile E s d refused
  | .getObjectSize hndl => getObjectSize E s hndl
  | .getArraySize hndl => getArraySize E s hndl
  | .isObjectKeyValid hndl key => isObjectKeyValid E s hndl key
  | .getObject getter hndl key => getObject E s hndl key getter
  | .getArray getter hndl index => getArray E s hndl index getter
  | .setObject hndl key value => setObject E s hndl key value
  | .setArray hndl index value => setArray E s hndl index value
  | .pushArray hndl value => pushArray E s hndl value
  | .removeFromObject hndl key => removeFromObject E s hndl key
  | .clearObject hndl => clearObject E s hndl
  | .removeFromArray hndl index => removeFromArray E s hndl index
  | .clearArray hndl => clearArray E s hndl
  | .createObjectKeys hndl refused => createObjectKeys E s hndl refused
  | .readObjectKey hndlKeys maxlength => readObjectKey E s hndlKeys maxlength
  | .closeKeys hndlKeys => closeKeys s hndlKeys
  | .closeHandle hndl => closeHandle E s hndl
  | .openResponse body => openResponse s body
  | .getResponseData hndlResponse refused => getResponseData E s hndlResponse refused
  | .closeResponse hndlResponse => closeResponse E s hndlResponse

end Dispatch

/-- No nodes and no handles. -/
def State.empty : State := ⟨⟨fun _ => none, 0⟩, [], [], [], 1⟩

/-- The store under any sequence of calls. -/
def system (E : Host) : Transition.System State Call where
  init := .empty
  step s c := (call E s c).map (·.1)

end RipExt.Json
