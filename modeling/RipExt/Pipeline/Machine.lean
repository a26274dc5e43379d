import RipExt.Foundation.Transition
import RipExt.Pipeline.Context

/-! The extension as two threads over two locked queues. The game thread runs the natives,
`FrameHook` and `SDK_OnUnload`; the loop thread runs the libuv callbacks. Every statement
that reads or writes shared state is a step of its own, and `curl` may finish a transfer
between any two of them. -/
namespace RipExt

/-- The limiter of `AsyncPerformRequests`. -/
def maxProcess : ℕ := 10

inductive Thread where
  | main | loop
  deriving DecidableEq, Repr

inductive Mutex where
  | requestQueue | completedRequestQueue
  deriving DecidableEq, Repr

/-- The functions that lock a queue. -/
inductive Function where
  | addRequestToQueue | frameHook | asyncPerformRequests | checkCompletedRequests
  deriving DecidableEq, Repr

/-- The holder of a mutex, with the function that locked it. -/
abbrev Owner := Thread × Function

/-- Operations on the forward and handle systems of SourceMod. -/
inductive ApiCall where
  | createForwardEx | addFunction | execute | releaseForward | createHandleEx | freeHandle
  deriving DecidableEq, Repr

/-- The plugin code that called a request native: none outside a callback, the context
whose callback it is otherwise. The `HTTPRequest` natives free the request handle before
they return, the `HTTPClient` natives have none to free. -/
structure Caller where
  callback : Option Context
  freesRequest : Bool
  deriving DecidableEq, Repr

/-- How a request native gets its forward. -/
inductive ForwardOutcome where
  | noForward | addFunctionFails | created
  deriving DecidableEq, Repr

/-- What curl knows of a finished transfer: the response code and the error text. -/
structure Transfer where
  status : ℤ
  error : String
  deriving DecidableEq, Repr

inductive Message where
  | done (c : Context)
  | other
  deriving DecidableEq, Repr

/-- One run of a forward, with the values pushed on it. -/
structure Execution where
  context : Context
  status : ℤ
  value : ℤ
  error : String
  deriving DecidableEq, Repr

/-- One `delete context`, with the thread that ran it and the function count of the
context's forward at that moment. -/
structure Deletion where
  context : Context
  thread : Thread
  functionCount : ℕ
  deriving DecidableEq, Repr

/-- The next statement of the game thread. -/
inductive MainPc where
  /-- No extension code is on the stack. -/
  | game
  | addLock (c : Context) (r : Caller)
  | addPush (c : Context) (r : Caller)
  | addUnlock (r : Caller)
  | frameTest
  | frameLock
  | framePop
  | frameCompleted (c : Context)
  /-- The plugin's callback of `c` is running. -/
  | frameCallback (c : Context)
  | frameDelete (c : Context)
  | frameUnlock
  | unloadJoin
  | unloadClose
  | unloadCleanup
  | unloadRemove
  | unloaded
  deriving DecidableEq, Repr

/-- The next statement of the loop thread; `n` is the limiter's count. -/
inductive LoopPc where
  /-- Inside `uv_run`, between two callbacks. -/
  | uv
  | drainLock
  | drainTest (n : ℕ)
  | drainInit (c : Context) (n : ℕ)
  | drainDelete (c : Context) (n : ℕ)
  | drainAdd (c : Context) (n : ℕ)
  | drainUnlock
  | socketAction
  | checkRead
  | checkRemove (c : Context)
  | checkLock (c : Context)
  | checkPush (c : Context)
  | checkUnlock
  | stopped
  deriving DecidableEq, Repr

/-- The globals of the extension and the two program counters, followed by the history
that the properties below speak about. -/
structure State where
  requestQueue : List Context
  completedQueue : List Context
  requestOwner : Option Owner
  completedOwner : Option Owner
  main : MainPc
  loop : LoopPc
  performPending : Bool
  stopPending : Bool
  stopping : Bool
  timeout : Option ℤ
  polls : List ℕ
  multi : List Context
  messages : List Message
  transfers : List (ℕ × Transfer)
  /-- Contexts whose forward has lost its function, because the plugin was unloaded. -/
  emptied : List ℕ
  nextId : ℕ
  ledger : List Resource
  added : List Context
  initialised : List Context
  handed : List Context
  reported : List Context
  pushed : List Context
  completions : List Context
  executed : List Execution
  deleted : List Deletion
  apiCalls : List (Thread × ApiCall)

inductive Action where
  | native (o : ForwardOutcome) (k : Kind) (value : ℤ) (freesRequest : Bool)
  | addLock | addPush | addUnlock
  | frameHook | frameTest | frameLock | framePop
  | onCompleted (handleCreated : Bool) | callbackReturns | frameDelete | frameUnlock
  | removeFunction (id : ℕ)
  | unload | joinThread | closeLoop | cleanupMulti | removeTypes
  | asyncPerformRequests | drainLock | drainTest | initCurl (o : InitOutcome) | drainDelete
  | addHandle | drainUnlock
  | performRequests | socketActivity (socket : ℕ) | socketActionReturns
  | readMessage | removeHandle | checkLock | checkPush | checkUnlock
  | asyncStopLoop | loopExit
  | socketCallback (socket : ℕ) (remove : Bool) | timeoutCallback (ms : ℤ)
  | transferDone (c : Context) (t : Transfer) | otherMessage
  deriving DecidableEq, Repr

namespace State

/-- `forward->GetFunctionCount()`: one function, until its plugin is unloaded. -/
def functionCount (s : State) (c : Context) : ℕ := if c.id ∈ s.emptied then 0 else 1

def transfer (s : State) (c : Context) : Transfer := (s.transfers.lookup c.id).getD ⟨0, ""⟩

def destroyed (s : State) : List Context := s.deleted.map (·.context)

/-- `delete context`, on either thread. -/
def destroy (s : State) (t : Thread) (c : Context) : State :=
  { s with
    ledger := s.ledger.filter (fun r => !c.releases r)
    deleted := s.deleted ++ [⟨c, t, s.functionCount c⟩]
    apiCalls := s.apiCalls ++ [(t, .releaseForward)] }

/-- A request native up to the call of `AddRequestToQueue`. A forward whose function could
not be added is left allocated. -/
def native (s : State) (o : ForwardOutcome) (k : Kind) (value : ℤ) (r : Caller) : State :=
  match o with
  | .noForward => { s with apiCalls := s.apiCalls ++ [(.main, .createForwardEx)] }
  | .addFunctionFails =>
    { s with
      nextId := s.nextId + 1
      ledger := s.ledger ++ [.forward s.nextId]
      apiCalls := s.apiCalls ++ [(.main, .createForwardEx), (.main, .addFunction)] }
  | .created =>
    { s with
      nextId := s.nextId + 1
      ledger := s.ledger ++ [.forward s.nextId, .headers s.nextId]
      apiCalls := s.apiCalls ++ [(.main, .createForwardEx), (.main, .addFunction)]
      main := .addLock ⟨s.nextId, k, value⟩ r }

/-- The first statement of `HTTPFileContext::OnCompleted` closes the file; the other two
classes have none. -/
def closeFile (s : State) (c : Context) : State :=
  { s with
    completions := s.completions ++ [c]
    ledger := if c.isFile then s.ledger.erase (.file c.id) else s.ledger }

def execute (s : State) (c : Context) : State :=
  { s with
    executed := s.executed ++ [⟨c, (s.transfer c).status, c.value, (s.transfer c).error⟩]
    apiCalls := s.apiCalls ++ [(.main, .execute)]
    main := .frameCallback c }

/-- `OnCompleted` up to the callback. File contexts hand the status itself to the plugin, the
other two wrap the response in a handle, which may fail. -/
def onCompleted (s : State) (c : Context) (handleCreated : Bool) : State :=
  if s.functionCount c = 0 then { s.closeFile c with main := .frameDelete c }
  else if c.isFile then (s.closeFile c).execute c
  else if handleCreated then
    execute { s.closeFile c with apiCalls := s.apiCalls ++ [(.main, .createHandleEx)] } c
  else
    { s.closeFile c with
      apiCalls := s.apiCalls ++ [(.main, .createHandleEx)], main := .frameDelete c }

/-- `uv_loop_close`: refused with `UV_EBUSY` while a handle of the loop is not closed. -/
def uvLoopClose (s : State) : State :=
  if s.ledger.any Resource.isUv then s
  else { s with ledger := s.ledger.filter (fun r => !r.isUv) }

end State

/-- The two pointers the unload path could hand to `curl_multi_cleanup`: the value of
`g_Curl`, and its address. -/
inductive MultiPointer where
  | gCurl | addressOfGCurl
  deriving DecidableEq, Repr

/-- `curl_multi_cleanup` releases nothing unless it is given a live multi handle. -/
def State.curlMultiCleanup (s : State) (p : MultiPointer) : State :=
  match p with
  | .gCurl => { s with ledger := s.ledger.erase .multi }
  | .addressOfGCurl => s

/-- The state `SDK_OnLoad` leaves behind. -/
def State.loaded : State where
  requestQueue := []
  completedQueue := []
  requestOwner := none
  completedOwner := none
  main := .game
  loop := .uv
  performPending := false
  stopPending := false
  stopping := false
  timeout := none
  polls := []
  multi := []
  messages := []
  transfers := []
  emptied := []
  nextId := 0
  ledger := [.multi, .timer, .asyncPerformRequests, .asyncStopLoop]
  added := []
  initialised := []
  handed := []
  reported := []
  pushed := []
  completions := []
  executed := []
  deleted := []
  apiCalls := []

namespace State

/-- The request natives and `AddRequestToQueue`. -/
def nativeStep (s : State) (a : Action) : Option State :=
  match a, s.main with
  | .native o k v f, .game => some (s.native o k v ⟨none, f⟩)
  | .native o k v f, .frameCallback d => some (s.native o k v ⟨some d, f⟩)
  | .addLock, .addLock c r =>
    if s.requestOwner = none then
      some { s with requestOwner := some (.main, .addRequestToQueue), main := .addPush c r }
    else none
  | .addPush, .addPush c r =>
    some { s with
      requestQueue := s.requestQueue ++ [c], added := s.added ++ [c], main := .addUnlock r }
  | .addUnlock, .addUnlock r =>
    some { s with
      requestOwner := none
      apiCalls := s.apiCalls ++ if r.freesRequest then [(.main, .freeHandle)] else []
      main := match r.callback with
        | none => .game
        | some d => .frameCallback d }
  | _, _ => none

/-- `FrameHook`. Both `Empty()` tests run without the lock of their queue. A plugin can be
unloaded while no extension code runs or from inside a callback, which takes its function
out of the forwards. -/
def frameHookStep (s : State) (a : Action) : Option State :=
  match a, s.main with
  | .frameHook, .game =>
    some { s with
      performPending := s.performPending || !s.requestQueue.isEmpty, main := .frameTest }
  | .frameTest, .frameTest =>
    some { s with main := if s.completedQueue.isEmpty then .game else .frameLock }
  | .frameLock, .frameLock =>
    if s.completedOwner = none then
      some { s with completedOwner := some (.main, .frameHook), main := .framePop }
    else none
  | .framePop, .framePop =>
    match s.completedQueue with
    | [] => none
    | c :: q => some { s with completedQueue := q, main := .frameCompleted c }
  | .onCompleted b, .frameCompleted c => some (s.onCompleted c b)
  | .callbackReturns, .frameCallback c =>
    some { s with
      apiCalls := s.apiCalls ++
        if c.isFile then [] else [(.main, .freeHandle), (.main, .freeHandle)]
      main := .frameDelete c }
  | .frameDelete, .frameDelete c => some { s.destroy .main c with main := .frameUnlock }
  | .frameUnlock, .frameUnlock => some { s with completedOwner := none, main := .game }
  | .removeFunction i, .game => some { s with emptied := i :: s.emptied }
  | .removeFunction i, .frameCallback _ => some { s with emptied := i :: s.emptied }
  | _, _ => none

/-- `SDK_OnUnload`, and the loop thread on its way out of `uv_run`: `AsyncStopLoop` calls
`uv_stop`, and callbacks of the same loop iteration may still run after it. -/
def unloadStep (s : State) (a : Action) : Option State :=
  match a, s.main, s.loop with
  | .unload, .game, _ => some { s with stopPending := true, main := .unloadJoin }
  | .joinThread, .unloadJoin, .stopped => some { s with main := .unloadClose }
  | .closeLoop, .unloadClose, _ => some { s.uvLoopClose with main := .unloadCleanup }
  | .cleanupMulti, .unloadCleanup, _ =>
    some { s.curlMultiCleanup .addressOfGCurl with main := .unloadRemove }
  | .removeTypes, .unloadRemove, _ => some { s with main := .unloaded }
  | .asyncStopLoop, _, .uv =>
    if s.stopPending then some { s with stopPending := false, stopping := true } else none
  | .loopExit, _, .uv => if s.stopping then some { s with loop := .stopped } else none
  | _, _, _ => none

/-- `AsyncPerformRequests`, which keeps the request queue locked through the whole drain. -/
def drainStep (s : State) (a : Action) : Option State :=
  match a, s.loop with
  | .asyncPerformRequests, .uv =>
    if s.performPending then some { s with performPending := false, loop := .drainLock } else none
  | .drainLock, .drainLock =>
    if s.requestOwner = none then
      some { s with requestOwner := some (.loop, .asyncPerformRequests), loop := .drainTest 0 }
    else none
  | .drainTest, .drainTest n =>
    match s.requestQueue with
    | [] => some { s with loop := .drainUnlock }
    | c :: q =>
      if n < maxProcess then some { s with requestQueue := q, loop := .drainInit c n }
      else some { s with loop := .drainUnlock }
  | .initCurl o, .drainInit c n =>
    if (c.initCurl o).1 then
      some { s with
        ledger := s.ledger ++ (c.initCurl o).2
        initialised := s.initialised ++ [c], loop := .drainAdd c n }
    else some { s with ledger := s.ledger ++ (c.initCurl o).2, loop := .drainDelete c n }
  | .drainDelete, .drainDelete c n => some { s.destroy .loop c with loop := .drainTest n }
  | .addHandle, .drainAdd c n =>
    some { s with
      multi := s.multi ++ [c], handed := s.handed ++ [c], loop := .drainTest (n + 1) }
  | .drainUnlock, .drainUnlock => some { s with requestOwner := none, loop := .uv }
  | _, _ => none

/-- `PerformRequests` and `CurlSocketActivity`, which let curl work and then run
`CheckCompletedRequests`. -/
def checkStep (s : State) (a : Action) : Option State :=
  match a, s.loop with
  | .performRequests, .uv =>
    if s.timeout.isSome then some { s with timeout := none, loop := .socketAction } else none
  | .socketActivity i, .uv =>
    if i ∈ s.polls then some { s with loop := .socketAction } else none
  | .socketActionReturns, .socketAction => some { s with loop := .checkRead }
  | .readMessage, .checkRead =>
    match s.messages with
    | [] => some { s with loop := .uv }
    | .other :: ms => some { s with messages := ms }
    | .done c :: ms => some { s with messages := ms, loop := .checkRemove c }
  | .removeHandle, .checkRemove c =>
    some { s with multi := s.multi.erase c, loop := .checkLock c }
  | .checkLock, .checkLock c =>
    if s.completedOwner = none then
      some { s with
        completedOwner := some (.loop, .checkCompletedRequests), loop := .checkPush c }
    else none
  | .checkPush, .checkPush c =>
    some { s with
      completedQueue := s.completedQueue ++ [c], pushed := s.pushed ++ [c], loop := .checkUnlock }
  | .checkUnlock, .checkUnlock => some { s with completedOwner := none, loop := .checkRead }
  | _, _ => none

/-- What curl does: `CurlSocketCallback` and `CurlTimeoutCallback` while it runs on the loop
thread, also from inside `curl_multi_add_handle`, and the end of a transfer at any moment
between `curl_multi_add_handle` and `curl_multi_remove_handle`, reported at most once. -/
def curlStep (s : State) (a : Action) : Option State :=
  match a, s.loop with
  | .socketCallback i remove, .socketAction =>
    if remove then
      some { s with polls := s.polls.erase i, ledger := s.ledger.erase (.poll i) }
    else if i ∈ s.polls then some s
    else some { s with polls := i :: s.polls, ledger := s.ledger ++ [.poll i] }
  | .timeoutCallback ms, .socketAction =>
    some { s with timeout := if ms = -1 then none else some ms }
  | .timeoutCallback ms, .drainAdd _ _ =>
    some { s with timeout := if ms = -1 then none else some ms }
  | .transferDone c t, _ =>
    if c ∈ s.multi ∧ c ∉ s.reported then
      some { s with
        messages := s.messages ++ [.done c], reported := s.reported ++ [c]
        transfers := (c.id, t) :: s.transfers }
    else none
  | .otherMessage, _ => some { s with messages := s.messages ++ [.other] }
  | _, _ => none

end State

/-- One step of the extension. An action is enabled at one statement of its thread, a `Lock`
only while nobody owns the mutex. -/
def step (s : State) (a : Action) : Option State :=
  (s.nativeStep a).or <| (s.frameHookStep a).or <| (s.unloadStep a).or <|
    (s.drainStep a).or <| (s.checkStep a).or (s.curlStep a)

theorem step_cases {s t : State} {a : Action} (h : step s a = some t) :
    s.nativeStep a = some t ∨ s.frameHookStep a = some t ∨ s.unloadStep a = some t ∨
      s.drainStep a = some t ∨ s.checkStep a = some t ∨ s.curlStep a = some t := by
  simp only [step, Option.or_eq_some_iff] at h
  tauto

/-- The extension from the end of `SDK_OnLoad` on. -/
def machine : Transition.System State Action := ⟨State.loaded, step⟩

end RipExt
