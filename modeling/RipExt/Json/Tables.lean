import RipExt.Json.Natives

/-! What a native does to the tables of open handles. Most of them leave the tables alone or open
one handle, whose number was never given out before. -/
namespace RipExt.Json

section Lookup
variable {α : Type*} {hndl hndl' : ℕ} {table rest : List (ℕ × α)} {x : α}

theorem readHandle_cons (hndl : ℕ) (x : ℕ × α) (table : List (ℕ × α)) :
    readHandle hndl (x :: table) = if x.1 = hndl then some x.2 else readHandle hndl table := by
  rw [readHandle, takeHandle]
  split_ifs with h
  · rfl
  · rw [Option.map_map]
    rfl

theorem readHandle_of_takeHandle (h : takeHandle hndl table = some (x, rest)) (hne : hndl' ≠ hndl) :
    readHandle hndl' rest = readHandle hndl' table := by
  induction table generalizing rest with
  | nil => cases h
  | cons y ys ih =>
    unfold takeHandle at h
    split_ifs at h with hy
    · cases h
      rw [readHandle_cons, if_neg fun heq => hne (heq.symm.trans hy)]
    · obtain ⟨⟨z, zs⟩, hz, heq⟩ := Option.map_eq_some_iff.mp h
      cases heq
      rw [readHandle_cons, readHandle_cons, ih hz]

theorem readHandle_updateHandle_self (h : (readHandle hndl table).isSome) :
    readHandle hndl (updateHandle hndl x table) = some x := by
  induction table with
  | nil => cases h
  | cons y ys ih =>
    rw [readHandle_cons] at h
    unfold updateHandle
    split_ifs at h ⊢ with hy
    · rw [readHandle_cons, if_pos rfl]
    · rw [readHandle_cons, if_neg hy]
      exact ih h

theorem readHandle_updateHandle_of_ne (hne : hndl' ≠ hndl) :
    readHandle hndl' (updateHandle hndl x table) = readHandle hndl' table := by
  induction table with
  | nil => rfl
  | cons y ys ih =>
    unfold updateHandle
    split_ifs with hy
    · rw [readHandle_cons, readHandle_cons, if_neg hne.symm, if_neg (hy ▸ hne.symm)]
    · rw [readHandle_cons, readHandle_cons, ih]

end Lookup

/-- A native that neither iterates over keys, nor closes a handle, nor deals with a response. -/
def Call.isPlain : Call → Bool
  | .createObjectKeys .. | .readObjectKey .. | .closeKeys _ | .closeHandle _ | .openResponse _
  | .getResponseData .. | .closeResponse _ => false
  | _ => true

/-- The tables stay as they are, or a handle is opened and returned. -/
inductive Tabled (s s' : State) (o : Outcome) : Prop
  | same (h : s' = { s with heap := s'.heap })
  | opened (json : Ref) (h : s' = (State.openHandle { s with heap := s'.heap } json).1)
      (ho : o = .handle s.nextHandle)

section Combinators
variable {E : Host} {s : State}

def LeavesTables (s : State) (r : Result) : Prop := ∀ s' o, r = some (s', o) → Tabled s s' o

theorem leavesTables_fail (heap : Store) (e : NativeError) :
    LeavesTables s (State.fail { s with heap } e) := by
  intro s' o h
  cases h
  exact .same rfl

theorem leavesTables_bind {α : Type*} {x : Option α} {f : α → Result}
    (h : ∀ a, LeavesTables s (f a)) : LeavesTables s (x.bind f) := by
  intro s' o heq
  obtain ⟨a, -, hf⟩ := Option.bind_eq_some_iff.mp heq
  exact h a s' o hf

theorem leavesTables_answer (outcome : Option Outcome) : LeavesTables s (s.answer outcome) := by
  intro s' o h
  obtain ⟨o', -, heq⟩ := Option.map_eq_some_iff.mp h
  cases heq
  exact .same rfl

theorem leavesTables_finish (result : Option (Bool × Store)) :
    LeavesTables s (finish s result) := by
  intro s' o h
  obtain ⟨r, -, heq⟩ := Option.map_eq_some_iff.mp h
  cases heq
  exact .same rfl

theorem leavesTables_getJSONFromHandle {hndl : ℕ} {rest : Ref → Result}
    (h : ∀ json, LeavesTables s (rest json)) :
    LeavesTables s (getJSONFromHandle E s hndl rest) := by
  unfold getJSONFromHandle
  split
  · exact h _
  · exact leavesTables_fail s.heap _

theorem leavesTables_createHandle (heap : Store) (refused : Option ℕ) (error : ℕ → NativeError)
    (json : Ref) : LeavesTables s (createHandle E { s with heap } refused error json) := by
  cases refused with
  | none =>
    intro s' o h
    cases h
    exact .opened json rfl rfl
  | some err => exact leavesTables_bind fun heap => leavesTables_fail heap _

theorem leavesTables_fromText (d : Document) (error : ℕ → NativeError) (refused : Option ℕ) :
    LeavesTables s (fromText E s d error refused) := by
  apply leavesTables_bind
  rintro ⟨object, heap⟩
  cases object with
  | none => exact leavesTables_fail heap _
  | some json => exact leavesTables_createHandle heap refused error json

theorem leavesTables_getValue (refused : Option ℕ) (value : Ref) :
    LeavesTables s (getValue s refused value) := by
  cases refused with
  | some err => exact leavesTables_fail s.heap _
  | none =>
    intro s' o h
    obtain ⟨heap, -, heq⟩ := Option.map_eq_some_iff.mp h
    cases heq
    exact .opened value rfl rfl

theorem leavesTables_withKey {missing : Bytes → Outcome} {found : Ref → Result} {hndl : ℕ}
    {key : Bytes} (h : ∀ value, LeavesTables s (found value)) :
    LeavesTables s (withKey E s missing found hndl key) := by
  refine leavesTables_getJSONFromHandle fun object => leavesTables_bind fun value => ?_
  cases value with
  | none => exact leavesTables_answer (some (missing key))
  | some value => exact h value

theorem leavesTables_withIndex {found : Ref → Result} {hndl : ℕ} {index : Int32}
    (h : ∀ value, LeavesTables s (found value)) :
    LeavesTables s (withIndex E s found hndl index) := by
  refine leavesTables_getJSONFromHandle fun array => leavesTables_bind fun value => ?_
  cases value with
  | none => exact leavesTables_fail s.heap _
  | some value => exact h value

end Combinators

section Dispatch
variable {E : Host} {s s' : State} {c : Call} {o : Outcome}

theorem leavesTables_getObject (hndl : ℕ) (key : Bytes) (getter : Getter) :
    LeavesTables s (getObject E s hndl key getter) := by
  cases getter with
  | value refused => exact leavesTables_withKey fun value => leavesTables_getValue refused value
  | int64 maxlength =>
    show LeavesTables s (getObjectInt64Value E s maxlength hndl key)
    exact leavesTables_withKey fun _ => leavesTables_answer _
  | string maxlength =>
    show LeavesTables s (getObjectStringValue E s maxlength hndl key)
    exact leavesTables_withKey fun _ => leavesTables_answer _
  | _ => exact leavesTables_withKey fun _ => leavesTables_answer _

theorem leavesTables_getArray (hndl : ℕ) (index : Int32) (getter : Getter) :
    LeavesTables s (getArray E s hndl index getter) := by
  cases getter with
  | value refused => exact leavesTables_withIndex fun value => leavesTables_getValue refused value
  | _ => exact leavesTables_withIndex fun _ => leavesTables_answer _

theorem leavesTables_setObject (hndl : ℕ) (key : Bytes) (value : Value) :
    LeavesTables s (setObject E s hndl key value) := by
  cases value with
  | handle hndlValue =>
    exact leavesTables_getJSONFromHandle fun _ =>
      leavesTables_getJSONFromHandle fun _ => leavesTables_finish _
  | _ => exact leavesTables_getJSONFromHandle fun _ => leavesTables_finish _

theorem leavesTables_setArray (hndl : ℕ) (index : Int32) (value : Value) :
    LeavesTables s (setArray E s hndl index value) := by
  cases value with
  | handle hndlValue =>
    exact leavesTables_getJSONFromHandle fun _ =>
      leavesTables_getJSONFromHandle fun _ => leavesTables_finish _
  | _ => exact leavesTables_getJSONFromHandle fun _ => leavesTables_finish _

theorem leavesTables_pushArray (hndl : ℕ) (value : Value) :
    LeavesTables s (pushArray E s hndl value) := by
  cases value with
  | handle hndlValue =>
    exact leavesTables_getJSONFromHandle fun _ =>
      leavesTables_getJSONFromHandle fun _ => leavesTables_finish _
  | _ => exact leavesTables_getJSONFromHandle fun _ => leavesTables_finish _

/-- The plain natives open one handle or none, and leave the other tables alone. -/
theorem call_tabled (hc : c.isPlain = true) (h : call E s c = some (s', o)) : Tabled s s' o := by
  have hleaves : LeavesTables s (call E s c) := by
    cases c with
    | createObject refused => exact leavesTables_createHandle _ refused _ _
    | createArray refused => exact leavesTables_createHandle _ refused _ _
    | fromString d refused => exact leavesTables_fromText d _ refused
    | fromFile d refused => exact leavesTables_fromText d _ refused
    | getObjectSize hndl => exact leavesTables_getJSONFromHandle fun _ => leavesTables_answer _
    | getArraySize hndl => exact leavesTables_getJSONFromHandle fun _ => leavesTables_answer _
    | isObjectKeyValid hndl key =>
      show LeavesTables s (isObjectKeyValid E s hndl key)
      exact leavesTables_withKey fun _ => leavesTables_answer (some (.bool true))
    | getObject getter hndl key => exact leavesTables_getObject hndl key getter
    | getArray getter hndl index => exact leavesTables_getArray hndl index getter
    | setObject hndl key value => exact leavesTables_setObject hndl key value
    | setArray hndl index value => exact leavesTables_setArray hndl index value
    | pushArray hndl value => exact leavesTables_pushArray hndl value
    | removeFromObject hndl key =>
      exact leavesTables_getJSONFromHandle fun _ => leavesTables_finish _
    | clearObject hndl => exact leavesTables_getJSONFromHandle fun _ => leavesTables_finish _
    | removeFromArray hndl index =>
      exact leavesTables_getJSONFromHandle fun _ => leavesTables_finish _
    | clearArray hndl => exact leavesTables_getJSONFromHandle fun _ => leavesTables_finish _
    | _ => cases hc
  exact hleaves s' o h

end Dispatch

section Data

/-- What a read of `Data` can do. -/
inductive DataRead (E : Host) (hndlResponse : ℕ) (refused : Option ℕ) (s : State) :
    State → Outcome → Prop
  | closed (h : readHandle hndlResponse s.responses = none) :
      DataRead E hndlResponse refused s s
        (.error (.invalidResponse hndlResponse (E.readError hndlResponse)))
  | cached (response : HTTPResponse) (hndlData : ℕ)
      (h : readHandle hndlResponse s.responses = some response)
      (hdata : response.hndlData = some hndlData) :
      DataRead E hndlResponse refused s s (.handle hndlData)
  | invalid (response : HTTPResponse) (heap : Store)
      (h : readHandle hndlResponse s.responses = some response) (hdata : response.hndlData = none)
      (hloads : jsonLoads E.toHashing s.heap response.body = some (none, heap)) :
      DataRead E hndlResponse refused s { s with heap }
        (.error (.syntaxError response.body.error))
  | opened (response : HTTPResponse) (json : Ref) (heap : Store)
      (h : readHandle hndlResponse s.responses = some response) (hdata : response.hndlData = none)
      (hloads : jsonLoads E.toHashing s.heap response.body = some (some json, heap))
      (hgranted : refused = none) :
      DataRead E hndlResponse refused s
        { (State.openHandle { s with heap } json).1 with
          responses := updateHandle hndlResponse
            { response with hndlData := some s.nextHandle } s.responses }
        (.handle s.nextHandle)
  | refused (response : HTTPResponse) (json : Ref) (heap heap' : Store) (err : ℕ)
      (h : readHandle hndlResponse s.responses = some response) (hdata : response.hndlData = none)
      (hloads : jsonLoads E.toHashing s.heap response.body = some (some json, heap))
      (hrefused : refused = some err)
      (hdecref : jsonDecref E.toHashing heap (some json) = some heap') :
      DataRead E hndlResponse refused s
        { s with
          heap := heap'
          responses := updateHandle hndlResponse { response with hndlData := none } s.responses }
        (.error (.noDataHandle err))

theorem getResponseData_read {E : Host} {s s' : State} {o : Outcome} {hndl : ℕ}
    {refused : Option ℕ} (hread : getResponseData E s hndl refused = some (s', o)) :
    DataRead E hndl refused s s' o := by
  unfold getResponseData at hread
  split at hread
  · next h =>
    cases hread
    exact .closed h
  · next response h =>
    split at hread
    · next hndlData hdata =>
      cases hread
      exact .cached response hndlData h hdata
    · next hdata =>
      obtain ⟨⟨data, heap⟩, hloads, hread⟩ := Option.bind_eq_some_iff.mp hread
      cases data with
      | none =>
        cases hread
        exact .invalid response heap h hdata hloads
      | some json =>
        obtain ⟨⟨s₁, o₁⟩, hcreate, heq⟩ := Option.map_eq_some_iff.mp hread
        cases hrefused : refused with
        | none =>
          rw [hrefused] at hcreate
          cases hcreate
          cases heq
          exact .opened response json heap h hdata hloads rfl
        | some err =>
          rw [hrefused] at hcreate
          obtain ⟨heap', hdecref, hfail⟩ := Option.bind_eq_some_iff.mp hcreate
          cases hfail
          cases heq
          exact .refused response json heap heap' err h hdata hloads rfl hdecref

end Data

section Touching
variable {E : Host} {s s' : State} {c : Call} {o : Outcome} {hndl : ℕ}

/-- What the natives on keys, handles and responses can do. -/
inductive TableCall (E : Host) (s : State) : Call → State → Outcome → Prop
  | refused (c : Call) (e : NativeError) : TableCall E s c s (.error e)
  | nothing (c : Call) : TableCall E s c s (.cell 0)
  | keysCreated (hndl : ℕ) (keys : JSONObjectKeys) :
      TableCall E s (.createObjectKeys hndl none)
        { s with keys := (s.nextHandle, keys) :: s.keys, nextHandle := s.nextHandle + 1 }
        (.handle s.nextHandle)
  | keyRead (hndl maxlength : ℕ) (keys : JSONObjectKeys) (key : Bytes) :
      TableCall E s (.readObjectKey hndl maxlength)
        { s with keys := updateHandle hndl keys s.keys } (.text (E.stringToLocalUTF8 maxlength key))
  | keysClosed (hndl : ℕ) (x : JSONObjectKeys) (keys : List (ℕ × JSONObjectKeys))
      (htake : takeHandle hndl s.keys = some (x, keys)) :
      TableCall E s (.closeKeys hndl) { s with keys } (.bool true)
  | handleClosed (hndl : ℕ) (json : Ref) (handles : List (ℕ × Ref)) (heap : Store)
      (htake : takeHandle hndl s.handles = some (json, handles)) :
      TableCall E s (.closeHandle hndl) { s with heap, handles } (.bool true)
  | responseOpened (body : Document) :
      TableCall E s (.openResponse body)
        { s with
          responses := (s.nextHandle, ⟨body, none⟩) :: s.responses
          nextHandle := s.nextHandle + 1 }
        (.handle s.nextHandle)
  | dataRead (hndl : ℕ) (refused : Option ℕ) {s' : State} {o : Outcome}
      (h : DataRead E hndl refused s s' o) : TableCall E s (.getResponseData hndl refused) s' o
  | responseClosed (hndl : ℕ) (response : HTTPResponse) (responses : List (ℕ × HTTPResponse))
      (b : Bool) (htake : takeHandle hndl s.responses = some (response, responses)) :
      TableCall E s (.closeResponse hndl) { s with responses } (.bool b)
  | dataClosed (hndl hndlData : ℕ) (response : HTTPResponse)
      (responses : List (ℕ × HTTPResponse)) (json : Ref) (handles : List (ℕ × Ref)) (heap : Store)
      (htake : takeHandle hndl s.responses = some (response, responses))
      (hdata : takeHandle hndlData s.handles = some (json, handles)) :
      TableCall E s (.closeResponse hndl) { s with heap, handles, responses } (.bool true)

theorem createObjectKeys_table {refused : Option ℕ}
    (h : createObjectKeys E s hndl refused = some (s', o)) :
    TableCall E s (.createObjectKeys hndl refused) s' o := by
  unfold createObjectKeys getJSONFromHandle at h
  split at h
  · next object _ =>
    obtain ⟨iter, -, h⟩ := Option.bind_eq_some_iff.mp h
    cases refused with
    | none =>
      cases h
      exact .keysCreated hndl ⟨object, iter⟩
    | some err =>
      cases h
      exact .refused _ _
  · cases h
    exact .refused _ _

theorem readObjectKey_table {maxlength : ℕ} (h : readObjectKey E s hndl maxlength = some (s', o)) :
    TableCall E s (.readObjectKey hndl maxlength) s' o := by
  unfold readObjectKey at h
  split at h
  · cases h
    exact .refused _ _
  · next keys _ =>
    obtain ⟨key, -, h⟩ := Option.bind_eq_some_iff.mp h
    cases key with
    | none =>
      cases h
      exact .nothing _
    | some key =>
      obtain ⟨iter, -, heq⟩ := Option.map_eq_some_iff.mp h
      cases heq
      exact .keyRead hndl maxlength ⟨keys.object, iter⟩ key

theorem closeHandle_cases (h : closeHandle E s hndl = some (s', o)) :
    s' = s ∧ o = .bool false ∨ ∃ json handles heap,
      takeHandle hndl s.handles = some (json, handles) ∧ s' = { s with heap, handles } ∧
        o = .bool true := by
  unfold closeHandle at h
  split at h
  · cases h
    exact .inl ⟨rfl, rfl⟩
  · next json handles htake =>
    obtain ⟨heap, -, heq⟩ := Option.map_eq_some_iff.mp h
    cases heq
    exact .inr ⟨json, handles, heap, htake, rfl, rfl⟩

theorem closeResponse_table (h : closeResponse E s hndl = some (s', o)) :
    TableCall E s (.closeResponse hndl) s' o := by
  unfold closeResponse at h
  split at h
  · cases h
    exact .nothing _
  · next response responses htake =>
    split at h
    · cases h
      exact .responseClosed hndl response responses true htake
    · next hndlData _ =>
      obtain ⟨rfl, rfl⟩ | ⟨json, handles, heap, hdata, rfl, rfl⟩ := closeHandle_cases h
      · exact .responseClosed hndl response responses false htake
      · exact .dataClosed hndl hndlData response responses json handles heap htake hdata

theorem call_table (hc : ¬c.isPlain = true) (h : call E s c = some (s', o)) :
    TableCall E s c s' o := by
  cases c with
  | createObjectKeys hndl refused => exact createObjectKeys_table h
  | readObjectKey hndl maxlength => exact readObjectKey_table h
  | closeKeys hndl =>
    simp only [call, closeKeys] at h
    split at h
    · cases h
      exact .nothing _
    · next x keys htake =>
      cases h
      exact .keysClosed hndl x keys htake
  | closeHandle hndl =>
    obtain ⟨rfl, rfl⟩ | ⟨json, handles, heap, htake, rfl, rfl⟩ := closeHandle_cases h
    · exact .nothing _
    · exact .handleClosed hndl json handles heap htake
  | openResponse body =>
    cases h
    exact .responseOpened body
  | getResponseData hndl refused => exact .dataRead hndl refused (getResponseData_read h)
  | closeResponse hndl => exact closeResponse_table h
  | _ => exact absurd rfl hc

end Touching

section Numbers
variable {s s' : State} {o : Outcome}

/-- The handles that a native gives out are new. -/
def Advances (s : State) (r : Result) : Prop :=
  ∀ s' o, r = some (s', o) → s.nextHandle ≤ s'.nextHandle

theorem Tabled.next_le (h : Tabled s s' o) : s.nextHandle ≤ s'.nextHandle := by
  cases h with
  | same h => rw [h]
  | opened json h ho =>
    rw [h]
    exact Nat.le_succ _

/-- No handle is given out twice. -/
theorem call_advances (E : Host) (s : State) (c : Call) : Advances s (call E s c) := by
  intro s' o h
  by_cases hc : c.isPlain = true
  · exact (call_tabled hc h).next_le
  · cases call_table hc h with
    | keysCreated | responseOpened => exact Nat.le_succ _
    | dataRead hndl refused hread =>
      cases hread with
      | opened => exact Nat.le_succ _
      | _ => exact le_rfl
    | _ => exact le_rfl

end Numbers

end RipExt.Json
