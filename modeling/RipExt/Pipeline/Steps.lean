import RipExt.Pipeline.Machine

/-! The step function as a relation: one constructor for every statement and every way it can end,
with the guard under which it does. What holds of every step is proved by cases of this relation. -/
namespace RipExt

/-- Where the game thread goes on after a native: in the game, or in the callback that called it. -/
def Caller.resume (r : Caller) : MainPc :=
  match r.callback with
  | none => .game
  | some d => .frameCallback d

/-- No extension code is on the stack of the game thread, or only the `OnCompleted` of a context
whose callback runs. -/
def MainPc.inPlugin : MainPc → Prop
  | .game | .frameCallback _ => True
  | _ => False

/-- `OnCompleted` runs no callback. -/
def State.Silent (s : State) (c : Context) (b : Bool) : Prop :=
  s.functionCount c = 0 ∨ c.isFile = false ∧ b = false

inductive Step (s : State) : Action → State → Prop
  | noForward (k : Kind) (v : ℤ) (r : Caller) (hmain : s.main = r.resume) :
      Step s (.native .noForward k v r.freesRequest)
        { s with apiCalls := s.apiCalls ++ [(.main, .createForwardEx)] }
  | addFunctionFails (k : Kind) (v : ℤ) (r : Caller) (hmain : s.main = r.resume) :
      Step s (.native .addFunctionFails k v r.freesRequest)
        { s with
          nextId := s.nextId + 1
          ledger := s.ledger ++ [.forward s.nextId]
          apiCalls := s.apiCalls ++ [(.main, .createForwardEx), (.main, .addFunction)] }
  | created (k : Kind) (v : ℤ) (r : Caller) (hmain : s.main = r.resume) :
      Step s (.native .created k v r.freesRequest)
        { s with
          nextId := s.nextId + 1
          ledger := s.ledger ++ [.forward s.nextId, .headers s.nextId]
          apiCalls := s.apiCalls ++ [(.main, .createForwardEx), (.main, .addFunction)]
          main := .addLock ⟨s.nextId, k, v⟩ r }
  | addLock (c : Context) (r : Caller) (hmain : s.main = .addLock c r)
      (hfree : s.requestOwner = none) :
      Step s .addLock
        { s with requestOwner := some (.main, .addRequestToQueue), main := .addPush c r }
  | addPush (c : Context) (r : Caller) (hmain : s.main = .addPush c r) :
      Step s .addPush
        { s with
          requestQueue := s.requestQueue ++ [c], added := s.added ++ [c], main := .addUnlock r }
  | addUnlock (r : Caller) (hmain : s.main = .addUnlock r) :
      Step s .addUnlock
        { s with
          requestOwner := none
          apiCalls := s.apiCalls ++ if r.freesRequest then [(.main, .freeHandle)] else []
          main := r.resume }
  | frameHook (hmain : s.main = .game) :
      Step s .frameHook
        { s with performPending := s.performPending || !s.requestQueue.isEmpty, main := .frameTest }
  | frameEmpty (hmain : s.main = .frameTest) (hempty : s.completedQueue = []) :
      Step s .frameTest { s with main := .game }
  | frameFull (hmain : s.main = .frameTest) (hfull : s.completedQueue ≠ []) :
      Step s .frameTest { s with main := .frameLock }
  | frameLock (hmain : s.main = .frameLock) (hfree : s.completedOwner = none) :
      Step s .frameLock { s with completedOwner := some (.main, .frameHook), main := .framePop }
  | framePop (c : Context) (q : List Context) (hmain : s.main = .framePop)
      (hqueue : s.completedQueue = c :: q) :
      Step s .framePop { s with completedQueue := q, main := .frameCompleted c }
  | onCompleted (c : Context) (b : Bool) (hmain : s.main = .frameCompleted c) :
      Step s (.onCompleted b) (s.onCompleted c b)
  | callbackReturns (c : Context) (hmain : s.main = .frameCallback c) :
      Step s .callbackReturns
        { s with
          apiCalls := s.apiCalls ++
            if c.isFile then [] else [(.main, .freeHandle), (.main, .freeHandle)]
          main := .frameDelete c }
  | frameDelete (c : Context) (hmain : s.main = .frameDelete c) :
      Step s .frameDelete { s.destroy .main c with main := .frameUnlock }
  | frameUnlock (hmain : s.main = .frameUnlock) :
      Step s .frameUnlock { s with completedOwner := none, main := .game }
  | removeFunction (i : ℕ) (hmain : s.main.inPlugin) :
      Step s (.removeFunction i) { s with emptied := i :: s.emptied }
  | unload (hmain : s.main = .game) :
      Step s .unload { s with stopPending := true, main := .unloadJoin }
  | joinThread (hmain : s.main = .unloadJoin) (hloop : s.loop = .stopped) :
      Step s .joinThread { s with main := .unloadClose }
  | closeLoop (hmain : s.main = .unloadClose) :
      Step s .closeLoop { s with ledger := s.uvLoopClose.ledger, main := .unloadCleanup }
  | cleanupMulti (hmain : s.main = .unloadCleanup) :
      Step s .cleanupMulti { s with main := .unloadRemove }
  | removeTypes (hmain : s.main = .unloadRemove) : Step s .removeTypes { s with main := .unloaded }
  | asyncStopLoop (hloop : s.loop = .uv) (hpending : s.stopPending = true) :
      Step s .asyncStopLoop { s with stopPending := false, stopping := true }
  | loopExit (hloop : s.loop = .uv) (hstopping : s.stopping = true) :
      Step s .loopExit { s with loop := .stopped }
  | asyncPerformRequests (hloop : s.loop = .uv) (hpending : s.performPending = true) :
      Step s .asyncPerformRequests { s with performPending := false, loop := .drainLock }
  | drainLock (hloop : s.loop = .drainLock) (hfree : s.requestOwner = none) :
      Step s .drainLock
        { s with requestOwner := some (.loop, .asyncPerformRequests), loop := .drainTest 0 }
  | drainTake (c : Context) (q : List Context) (n : ℕ) (hloop : s.loop = .drainTest n)
      (hqueue : s.requestQueue = c :: q) (hn : n < maxProcess) :
      Step s .drainTest { s with requestQueue := q, loop := .drainInit c n }
  | drainDone (n : ℕ) (hloop : s.loop = .drainTest n)
      (hdone : s.requestQueue = [] ∨ maxProcess ≤ n) :
      Step s .drainTest { s with loop := .drainUnlock }
  | initSucceeds (c : Context) (n : ℕ) (o : InitOutcome) (hloop : s.loop = .drainInit c n)
      (ho : (c.initCurl o).1 = true) :
      Step s (.initCurl o)
        { s with
          ledger := s.ledger ++ (c.initCurl o).2
          initialised := s.initialised ++ [c], loop := .drainAdd c n }
  | initFails (c : Context) (n : ℕ) (o : InitOutcome) (hloop : s.loop = .drainInit c n)
      (ho : (c.initCurl o).1 = false) :
      Step s (.initCurl o)
        { s with ledger := s.ledger ++ (c.initCurl o).2, loop := .drainDelete c n }
  | drainDelete (c : Context) (n : ℕ) (hloop : s.loop = .drainDelete c n) :
      Step s .drainDelete { s.destroy .loop c with loop := .drainTest n }
  | addHandle (c : Context) (n : ℕ) (hloop : s.loop = .drainAdd c n) :
      Step s .addHandle
        { s with multi := s.multi ++ [c], handed := s.handed ++ [c], loop := .drainTest (n + 1) }
  | drainUnlock (hloop : s.loop = .drainUnlock) :
      Step s .drainUnlock { s with requestOwner := none, loop := .uv }
  | performRequests (hloop : s.loop = .uv) (htimeout : s.timeout.isSome = true) :
      Step s .performRequests { s with timeout := none, loop := .socketAction }
  | socketActivity (i : ℕ) (hloop : s.loop = .uv) (hpoll : i ∈ s.polls) :
      Step s (.socketActivity i) { s with loop := .socketAction }
  | socketActionReturns (hloop : s.loop = .socketAction) :
      Step s .socketActionReturns { s with loop := .checkRead }
  | noMessage (hloop : s.loop = .checkRead) (hmessages : s.messages = []) :
      Step s .readMessage { s with loop := .uv }
  | skipMessage (ms : List Message) (hloop : s.loop = .checkRead)
      (hmessages : s.messages = .other :: ms) : Step s .readMessage { s with messages := ms }
  | takeMessage (c : Context) (ms : List Message) (hloop : s.loop = .checkRead)
      (hmessages : s.messages = .done c :: ms) :
      Step s .readMessage { s with messages := ms, loop := .checkRemove c }
  | removeHandle (c : Context) (hloop : s.loop = .checkRemove c) :
      Step s .removeHandle { s with multi := s.multi.erase c, loop := .checkLock c }
  | checkLock (c : Context) (hloop : s.loop = .checkLock c) (hfree : s.completedOwner = none) :
      Step s .checkLock
        { s with completedOwner := some (.loop, .checkCompletedRequests), loop := .checkPush c }
  | checkPush (c : Context) (hloop : s.loop = .checkPush c) :
      Step s .checkPush
        { s with
          completedQueue := s.completedQueue ++ [c], pushed := s.pushed ++ [c]
          loop := .checkUnlock }
  | checkUnlock (hloop : s.loop = .checkUnlock) :
      Step s .checkUnlock { s with completedOwner := none, loop := .checkRead }
  | closePoll (i : ℕ) (hloop : s.loop = .socketAction) :
      Step s (.socketCallback i true)
        { s with polls := s.polls.erase i, ledger := s.ledger.erase (.poll i) }
  | keepPoll (i : ℕ) (hloop : s.loop = .socketAction) (hpoll : i ∈ s.polls) :
      Step s (.socketCallback i false) s
  | openPoll (i : ℕ) (hloop : s.loop = .socketAction) (hpoll : i ∉ s.polls) :
      Step s (.socketCallback i false)
        { s with polls := i :: s.polls, ledger := s.ledger ++ [.poll i] }
  | timeoutCallback (ms : ℤ) (hloop : s.loop = .socketAction ∨ ∃ c n, s.loop = .drainAdd c n) :
      Step s (.timeoutCallback ms) { s with timeout := if ms = -1 then none else some ms }
  | transferDone (c : Context) (r : Transfer) (hactive : c ∈ s.multi) (hnew : c ∉ s.reported) :
      Step s (.transferDone c r)
        { s with
          messages := s.messages ++ [.done c], reported := s.reported ++ [c]
          transfers := (c.id, r) :: s.transfers }
  | otherMessage : Step s .otherMessage { s with messages := s.messages ++ [.other] }

section Equivalence
variable {s t : State} {a : Action}

theorem nativeStep_steps (h : s.nativeStep a = some t) : Step s a t := by
  unfold State.nativeStep at h
  split at h
  next o k v f hm =>
    cases h
    cases o with
    | noForward => exact .noForward k v ⟨none, f⟩ hm
    | addFunctionFails => exact .addFunctionFails k v ⟨none, f⟩ hm
    | created => exact .created k v ⟨none, f⟩ hm
  next o k v f d hm =>
    cases h
    cases o with
    | noForward => exact .noForward k v ⟨some d, f⟩ hm
    | addFunctionFails => exact .addFunctionFails k v ⟨some d, f⟩ hm
    | created => exact .created k v ⟨some d, f⟩ hm
  next c r hm =>
    split_ifs at h with hfree
    cases h
    exact .addLock c r hm hfree
  next c r hm =>
    cases h
    exact .addPush c r hm
  next r hm =>
    cases h
    exact .addUnlock r hm
  next => cases h

theorem frameHookStep_steps (h : s.frameHookStep a = some t) : Step s a t := by
  unfold State.frameHookStep at h
  split at h
  next hm =>
    cases h
    exact .frameHook hm
  next hm =>
    by_cases hq : s.completedQueue = []
    · rw [if_pos (List.isEmpty_iff.mpr hq)] at h
      cases h
      exact .frameEmpty hm hq
    · rw [if_neg (List.isEmpty_iff.not.mpr hq)] at h
      cases h
      exact .frameFull hm hq
  next hm =>
    split_ifs at h with hfree
    cases h
    exact .frameLock hm hfree
  next hm =>
    split at h
    next => cases h
    next c q hq =>
      cases h
      exact .framePop c q hm hq
  next b c hm =>
    cases h
    exact .onCompleted c b hm
  next c hm =>
    cases h
    exact .callbackReturns c hm
  next c hm =>
    cases h
    exact .frameDelete c hm
  next hm =>
    cases h
    exact .frameUnlock hm
  next i hm =>
    cases h
    exact .removeFunction i (by rw [hm]; trivial)
  next i d hm =>
    cases h
    exact .removeFunction i (by rw [hm]; trivial)
  next => cases h

theorem State.uvLoopClose_eq (s : State) :
    s.uvLoopClose = { s with ledger := s.uvLoopClose.ledger } := by
  unfold State.uvLoopClose
  split_ifs <;> rfl

theorem unloadStep_steps (h : s.unloadStep a = some t) : Step s a t := by
  unfold State.unloadStep at h
  split at h
  next hm =>
    cases h
    exact .unload hm
  next hm hl =>
    cases h
    exact .joinThread hm hl
  next hm =>
    rw [s.uvLoopClose_eq] at h
    cases h
    exact .closeLoop hm
  next hm =>
    cases h
    exact .cleanupMulti hm
  next hm =>
    cases h
    exact .removeTypes hm
  next hl =>
    split_ifs at h with hpending
    cases h
    exact .asyncStopLoop hl hpending
  next hl =>
    split_ifs at h with hstopping
    cases h
    exact .loopExit hl hstopping
  next => cases h

theorem drainStep_steps (h : s.drainStep a = some t) : Step s a t := by
  unfold State.drainStep at h
  split at h
  next hl =>
    split_ifs at h with hpending
    cases h
    exact .asyncPerformRequests hl hpending
  next hl =>
    split_ifs at h with hfree
    cases h
    exact .drainLock hl hfree
  next n hl =>
    split at h
    next hq =>
      cases h
      exact .drainDone n hl (.inl hq)
    next c q hq =>
      split_ifs at h with hn
      · cases h
        exact .drainTake c q n hl hq hn
      · cases h
        exact .drainDone n hl (.inr (Nat.le_of_not_lt hn))
  next o c n hl =>
    split_ifs at h with ho
    · cases h
      exact .initSucceeds c n o hl ho
    · cases h
      exact .initFails c n o hl (Bool.eq_false_of_not_eq_true ho)
  next c n hl =>
    cases h
    exact .drainDelete c n hl
  next c n hl =>
    cases h
    exact .addHandle c n hl
  next hl =>
    cases h
    exact .drainUnlock hl
  next => cases h

theorem checkStep_steps (h : s.checkStep a = some t) : Step s a t := by
  unfold State.checkStep at h
  split at h
  next hl =>
    split_ifs at h with htimeout
    cases h
    exact .performRequests hl htimeout
  next i hl =>
    split_ifs at h with hpoll
    cases h
    exact .socketActivity i hl hpoll
  next hl =>
    cases h
    exact .socketActionReturns hl
  next hl =>
    split at h
    next hq =>
      cases h
      exact .noMessage hl hq
    next ms hq =>
      cases h
      exact .skipMessage ms hl hq
    next c ms hq =>
      cases h
      exact .takeMessage c ms hl hq
  next c hl =>
    cases h
    exact .removeHandle c hl
  next c hl =>
    split_ifs at h with hfree
    cases h
    exact .checkLock c hl hfree
  next c hl =>
    cases h
    exact .checkPush c hl
  next hl =>
    cases h
    exact .checkUnlock hl
  next => cases h

theorem curlStep_steps (h : s.curlStep a = some t) : Step s a t := by
  unfold State.curlStep at h
  split at h
  next i remove hl =>
    split_ifs at h with hremove hpoll
    · cases h
      rw [hremove]
      exact .closePoll i hl
    · cases h
      rw [Bool.eq_false_of_not_eq_true hremove]
      exact .keepPoll i hl hpoll
    · cases h
      rw [Bool.eq_false_of_not_eq_true hremove]
      exact .openPoll i hl hpoll
  next ms hl =>
    cases h
    exact .timeoutCallback ms (.inl hl)
  next ms c n hl =>
    cases h
    exact .timeoutCallback ms (.inr ⟨c, n, hl⟩)
  next c r =>
    split_ifs at h with hc
    cases h
    exact .transferDone c r hc.1 hc.2
  next =>
    cases h
    exact .otherMessage
  next => cases h

theorem step_steps (h : step s a = some t) : Step s a t := by
  rcases step_cases h with h | h | h | h | h | h
  · exact nativeStep_steps h
  · exact frameHookStep_steps h
  · exact unloadStep_steps h
  · exact drainStep_steps h
  · exact checkStep_steps h
  · exact curlStep_steps h

theorem Step.step_eq (h : Step s a t) : step s a = some t := by
  cases h with
  | noForward k v r hmain | addFunctionFails k v r hmain | created k v r hmain =>
    rcases r with ⟨_ | d, f⟩ <;> simp [step, State.nativeStep, hmain, Caller.resume, State.native]
  | addUnlock r hmain =>
    simp only [step, State.nativeStep, hmain, Option.some_or]
    rfl
  | removeFunction i hmain =>
    cases hm : s.main <;> simp_all [step, State.nativeStep, State.frameHookStep, MainPc.inPlugin]
  | closeLoop hmain =>
    simp only [step, State.nativeStep, State.frameHookStep, State.unloadStep, hmain,
      Option.none_or, Option.some_or]
    unfold State.uvLoopClose
    split_ifs <;> rfl
  | drainDone n hloop hdone =>
    have hdrain : s.drainStep .drainTest = some { s with loop := .drainUnlock } := by
      unfold State.drainStep
      rw [hloop]
      cases hq : s.requestQueue with
      | nil => rfl
      | cons c q => exact if_neg (Nat.not_lt.mpr (hdone.resolve_left (by simp [hq])))
    simp [step, State.nativeStep, State.frameHookStep, State.unloadStep, hdrain]
  | timeoutCallback ms hloop =>
    rcases hloop with hloop | ⟨c, n, hloop⟩ <;>
      simp [step, State.nativeStep, State.frameHookStep, State.unloadStep, State.drainStep,
        State.checkStep, State.curlStep, hloop]
  | _ =>
    simp [step, State.nativeStep, State.frameHookStep, State.unloadStep, State.curlMultiCleanup,
      State.drainStep, State.checkStep, State.curlStep, *]

/-- The relation is the graph of the step function. -/
theorem step_iff : step s a = some t ↔ Step s a t := ⟨step_steps, Step.step_eq⟩

theorem Step.run_cons {u : State} {as : List Action} (h : Step s a u)
    (hrun : machine.run u as = some t) : machine.run s (a :: as) = some t :=
  machine.run_cons.mpr ⟨u, h.step_eq, hrun⟩

end Equivalence

/-- What `OnCompleted` does besides closing the file: it runs the callback or it does not. -/
theorem onCompleted_cases (s : State) (c : Context) (b : Bool) : ∃ calls : List ApiCall,
    s.Silent c b ∧ s.onCompleted c b =
        { s.closeFile c with
          apiCalls := s.apiCalls ++ calls.map (Thread.main, ·), main := .frameDelete c } ∨
      ¬s.Silent c b ∧ s.onCompleted c b =
        { s.closeFile c with
          executed := s.executed ++ [⟨c, (s.transfer c).status, c.value, (s.transfer c).error⟩]
          apiCalls := s.apiCalls ++ calls.map (Thread.main, ·), main := .frameCallback c } := by
  unfold State.Silent State.onCompleted
  split_ifs with hcount hfile hcreated
  · exact ⟨[], .inl ⟨.inl hcount, by simp [State.closeFile]⟩⟩
  · exact ⟨[.execute], .inr ⟨by simp [hcount, hfile], rfl⟩⟩
  · refine ⟨[.createHandleEx, .execute], .inr ⟨by simp [hcount, hcreated], ?_⟩⟩
    simp [State.execute, State.closeFile, State.transfer]
  · refine ⟨[.createHandleEx], .inl ⟨.inr ⟨?_, ?_⟩, rfl⟩⟩
    · exact Bool.eq_false_of_not_eq_true hfile
    · exact Bool.eq_false_of_not_eq_true hcreated

/-- The context is counted as completed and is delivered or deleted next; the queues, the loop
thread and the deletions stay as they are. -/
structure Completes (s : State) (c : Context) (t : State) : Prop where
  main : t.main = .frameCallback c ∨ t.main = .frameDelete c
  loop : t.loop = s.loop
  requestQueue : t.requestQueue = s.requestQueue
  completedQueue : t.completedQueue = s.completedQueue
  multi : t.multi = s.multi
  emptied : t.emptied = s.emptied
  added : t.added = s.added
  deleted : t.deleted = s.deleted
  completions : t.completions = s.completions ++ [c]

theorem onCompleted_completes (s : State) (c : Context) (b : Bool) :
    Completes s c (s.onCompleted c b) := by
  obtain ⟨calls, ⟨-, heq⟩ | ⟨-, heq⟩⟩ := onCompleted_cases s c b
  · rw [heq]
    exact ⟨.inr rfl, rfl, rfl, rfl, rfl, rfl, rfl, rfl, rfl⟩
  · rw [heq]
    exact ⟨.inl rfl, rfl, rfl, rfl, rfl, rfl, rfl, rfl, rfl⟩

end RipExt
