import RipExt.Pipeline.Conservation
import RipExt.Pipeline.Locking

/-! How the queues are emptied. `AsyncPerformRequests` takes requests until ten of them have been
initialised, `FrameHook` asks for another run of it as long as a request waits and delivers one
completed context a frame. The other thread may do anything in between. -/
namespace RipExt

section Requests

/-- The statements of `AsyncPerformRequests`. -/
def Action.drains : Action → Bool
  | .drainLock | .drainTest | .initCurl _ | .drainDelete | .addHandle | .drainUnlock => true
  | _ => false

/-- The loop thread is inside the locked section of `AsyncPerformRequests`. -/
def LoopPc.draining : LoopPc → Bool
  | .drainTest _ | .drainInit _ _ | .drainDelete _ _ | .drainAdd _ _ | .drainUnlock => true
  | _ => false

/-- The contexts that were deleted on the loop thread. -/
def State.loopDeleted (s : State) : List Context :=
  (s.deleted.filter fun d => d.thread = .loop).map (·.context)

/-- The queue, the multi handle and the deletions of the loop thread stay as they are. -/
structure SameRequests (s t : State) : Prop where
  queue : t.requestQueue = s.requestQueue
  multi : t.multi = s.multi
  deleted : t.loopDeleted = s.loopDeleted

/-- What a step does to the requests. -/
inductive RequestStep (s t : State) : Action → Prop
  | lock (hs : s.loop = .drainLock) (ht : t.loop = .drainTest 0) (h : SameRequests s t) :
      RequestStep s t .drainLock
  | take (c : Context) (n : ℕ) (hs : s.loop = .drainTest n) (hn : n < maxProcess)
      (ht : t.loop = .drainInit c n) (hqueue : s.requestQueue = c :: t.requestQueue)
      (hmulti : t.multi = s.multi) (hdeleted : t.loopDeleted = s.loopDeleted) :
      RequestStep s t .drainTest
  | finish (n : ℕ) (hs : s.loop = .drainTest n) (hn : s.requestQueue = [] ∨ maxProcess ≤ n)
      (ht : t.loop = .drainUnlock) (h : SameRequests s t) : RequestStep s t .drainTest
  | initOk (c : Context) (n : ℕ) (o : InitOutcome) (hs : s.loop = .drainInit c n)
      (ho : (c.initCurl o).1 = true) (ht : t.loop = .drainAdd c n) (h : SameRequests s t) :
      RequestStep s t (.initCurl o)
  | initFail (c : Context) (n : ℕ) (o : InitOutcome) (hs : s.loop = .drainInit c n)
      (ho : (c.initCurl o).1 = false) (ht : t.loop = .drainDelete c n) (h : SameRequests s t) :
      RequestStep s t (.initCurl o)
  | delete (c : Context) (n : ℕ) (hs : s.loop = .drainDelete c n) (ht : t.loop = .drainTest n)
      (hqueue : t.requestQueue = s.requestQueue) (hmulti : t.multi = s.multi)
      (hdeleted : t.loopDeleted = s.loopDeleted ++ [c]) : RequestStep s t .drainDelete
  | hand (c : Context) (n : ℕ) (hs : s.loop = .drainAdd c n) (ht : t.loop = .drainTest (n + 1))
      (hqueue : t.requestQueue = s.requestQueue) (hmulti : t.multi = s.multi ++ [c])
      (hdeleted : t.loopDeleted = s.loopDeleted) : RequestStep s t .addHandle
  | unlock (hs : s.loop = .drainUnlock) (ht : t.loop = .uv) (h : SameRequests s t) :
      RequestStep s t .drainUnlock
  | push (hs : s.main.owns .requestQueue ≠ none) : RequestStep s t .addPush
  | other (a : Action) (ha : a.drains = false) (hloop : t.loop = s.loop) (h : SameRequests s t) :
      RequestStep s t a
  | outside (a : Action) (ha : a.drains = false) (hs : s.loop.draining = false)
      (ht : t.loop.draining = false) (hqueue : t.requestQueue = s.requestQueue) :
      RequestStep s t a

variable {s t : State} {a : Action}

theorem step_requests (h : step s a = some t) : RequestStep s t a := by
  have houtside {l : LoopPc} {b : Action} {t : State} (hl : s.loop = l) (hd : l.draining = false)
      (hb : b.drains = false) (ht : t.loop.draining = false)
      (hq : t.requestQueue = s.requestQueue) : RequestStep s t b :=
    .outside b hb (by rw [hl, hd]) ht hq
  cases step_steps h with
  | addPush c r hm =>
    refine .push ?_
    rw [hm]
    simp [MainPc.owns]
  | onCompleted c b hm =>
    have hc := onCompleted_completes s c b
    refine .other _ rfl hc.loop ⟨hc.requestQueue, hc.multi, ?_⟩
    rw [State.loopDeleted, hc.deleted]
    rfl
  | frameDelete c hm =>
    refine .other _ rfl rfl ⟨rfl, rfl, ?_⟩
    simp [State.loopDeleted, State.destroy, List.filter_append]
  | drainLock hl hfree => exact .lock hl rfl ⟨rfl, rfl, rfl⟩
  | drainTake c q n hl hq hn => exact .take c n hl hn rfl hq rfl rfl
  | drainDone n hl hdone => exact .finish n hl hdone rfl ⟨rfl, rfl, rfl⟩
  | initSucceeds c n o hl ho => exact .initOk c n o hl ho rfl ⟨rfl, rfl, rfl⟩
  | initFails c n o hl ho => exact .initFail c n o hl ho rfl ⟨rfl, rfl, rfl⟩
  | drainDelete c n hl =>
    refine .delete c n hl rfl rfl rfl ?_
    simp [State.loopDeleted, State.destroy, List.filter_append]
  | addHandle c n hl => exact .hand c n hl rfl rfl rfl rfl
  | drainUnlock hl => exact .unlock hl rfl ⟨rfl, rfl, rfl⟩
  | loopExit hl | asyncPerformRequests hl | performRequests hl | socketActivity _ hl
  | socketActionReturns hl | noMessage hl | takeMessage _ _ hl | removeHandle _ hl | checkLock _ hl
  | checkPush _ hl | checkUnlock hl => exact houtside hl rfl rfl rfl rfl
  | _ => exact .other _ rfl rfl ⟨rfl, rfl, rfl⟩

end Requests

section Draining

/-- One call of `InitCurl` on a context that was popped. -/
abbrev InitCall := Context × InitOutcome

def InitCall.ok (call : InitCall) : Bool := (call.1.initCurl call.2).1

def succeeded (calls : List InitCall) : List Context := (calls.filter InitCall.ok).map (·.1)

def failed (calls : List InitCall) : List Context := (calls.filter fun c => !c.ok).map (·.1)

/-- What the calls of `InitCurl` in a run answered. -/
def initOutcomes (as : List Action) : List InitOutcome :=
  as.filterMap fun a =>
    match a with
    | .initCurl o => some o
    | _ => none

/-- One run of `AsyncPerformRequests` from its `Lock` to its `Unlock`; other steps may come
between its own. -/
structure DrainCall (s : State) (as : List Action) (t : State) : Prop where
  run : machine.run s as = some t
  shape : ∃ body, as = .drainLock :: body ++ [.drainUnlock] ∧ .drainUnlock ∉ body

/-- The calls of `InitCurl` took a prefix of the queue. Those that succeeded are in the multi
handle, in the order of the queue, those that failed are deleted, and before the last of them
the limit had not been reached. -/
structure Drained (s : State) (calls : List InitCall) (rest : List Context) (t : State) : Prop where
  queue : s.requestQueue = calls.map (·.1) ++ rest
  multi : t.multi = s.multi ++ succeeded calls
  deleted : t.loopDeleted = s.loopDeleted ++ failed calls
  limited : ∀ earlier, earlier <+: calls → earlier ≠ calls → (succeeded earlier).length < maxProcess

/-- The same inside the section: `pending` was popped and is not accounted for, `asked` is what its
`InitCurl` answered, and the loop has come `steps` statements since the last context. -/
structure InSection (s : State) (before : List Action) (t : State) (calls : List InitCall)
    (pending : List Context) (asked : List InitOutcome) (steps : ℕ) : Prop where
  drained : Drained s calls (pending ++ t.requestQueue) t
  outcomes : initOutcomes before = calls.map (·.2) ++ asked
  count : before.countP Action.drains = 3 * calls.length + steps

/-- The loop thread inside the section, at each of its statements. -/
def Midway (s : State) (before : List Action) (t : State) : Prop :=
  ∃ calls,
    match t.loop with
    | .drainTest n => n = (succeeded calls).length ∧ InSection s before t calls [] [] 1
    | .drainInit c n =>
      n = (succeeded calls).length ∧ n < maxProcess ∧ InSection s before t calls [c] [] 2
    | .drainDelete c n =>
      n = (succeeded calls).length ∧ n < maxProcess ∧
        ∃ o, InitCall.ok (c, o) = false ∧ InSection s before t calls [c] [o] 3
    | .drainAdd c n =>
      n = (succeeded calls).length ∧ n < maxProcess ∧
        ∃ o, InitCall.ok (c, o) = true ∧ InSection s before t calls [c] [o] 3
    | .drainUnlock =>
      (t.requestQueue = [] ∨ maxProcess ≤ (succeeded calls).length) ∧
        InSection s before t calls [] [] 2
    | _ => False

variable {s t u : State} {a : Action} {before : List Action} {calls : List InitCall} {c : Context}
  {o : InitOutcome} {rest : List Context}

theorem initOutcomes_append (as bs : List Action) :
    initOutcomes (as ++ bs) = initOutcomes as ++ initOutcomes bs := List.filterMap_append

theorem succeeded_append (calls calls' : List InitCall) :
    succeeded (calls ++ calls') = succeeded calls ++ succeeded calls' := by
  simp [succeeded, List.filter_append]

theorem failed_append (calls calls' : List InitCall) :
    failed (calls ++ calls') = failed calls ++ failed calls' := by
  simp [failed, List.filter_append]

theorem Drained.congr (h : Drained s calls rest t) (hmulti : u.multi = t.multi)
    (hdeleted : u.loopDeleted = t.loopDeleted) : Drained s calls rest u :=
  ⟨h.queue, hmulti.trans h.multi, hdeleted.trans h.deleted, h.limited⟩

/-- A call is taken while the limit has not been reached. -/
theorem Drained.limited_append (h : Drained s calls rest t)
    (hlt : (succeeded calls).length < maxProcess) (call : InitCall) (earlier : List InitCall)
    (hearlier : earlier <+: calls ++ [call]) (hne : earlier ≠ calls ++ [call]) :
    (succeeded earlier).length < maxProcess := by
  rcases List.prefix_concat_iff.mp hearlier with heq | hprefix
  · exact absurd heq hne
  · by_cases heq : earlier = calls
    · rw [heq]
      exact hlt
    · exact h.limited earlier hprefix heq

theorem Drained.handed (h : Drained s calls (c :: rest) t) (ho : InitCall.ok (c, o) = true)
    (hlt : (succeeded calls).length < maxProcess) (hmulti : u.multi = t.multi ++ [c])
    (hdeleted : u.loopDeleted = t.loopDeleted) : Drained s (calls ++ [(c, o)]) rest u := by
  refine ⟨?_, ?_, ?_, h.limited_append hlt _⟩
  · rw [h.queue]
    simp
  · rw [hmulti, h.multi, succeeded_append]
    simp [succeeded, ho]
  · rw [hdeleted, h.deleted, failed_append]
    simp [failed, ho]

theorem Drained.dropped (h : Drained s calls (c :: rest) t) (ho : InitCall.ok (c, o) = false)
    (hlt : (succeeded calls).length < maxProcess) (hmulti : u.multi = t.multi)
    (hdeleted : u.loopDeleted = t.loopDeleted ++ [c]) : Drained s (calls ++ [(c, o)]) rest u := by
  refine ⟨?_, ?_, ?_, h.limited_append hlt _⟩
  · rw [h.queue]
    simp
  · rw [hmulti, h.multi, succeeded_append]
    simp [succeeded, ho]
  · rw [hdeleted, h.deleted, failed_append]
    simp [failed, ho]

theorem Midway.draining (h : Midway s before t) : t.loop.draining = true := by
  obtain ⟨calls, h⟩ := h
  cases hl : t.loop <;> simp only [hl] at h <;> rfl

section Steps
variable {pending : List Context} {asked : List InitOutcome} {steps : ℕ}

/-- A statement that changes nothing of the requests. -/
theorem InSection.same (h : InSection s before t calls pending asked steps)
    (hsame : SameRequests t u) (ha : a.drains = true) (hout : initOutcomes [a] = []) :
    InSection s (before ++ [a]) u calls pending asked (steps + 1) := by
  refine ⟨?_, ?_, ?_⟩
  · rw [hsame.queue]
    exact h.drained.congr hsame.multi hsame.deleted
  · rw [initOutcomes_append, h.outcomes, hout, List.append_nil]
  · rw [List.countP_append, h.count, List.countP_singleton, if_pos ha, Nat.add_assoc]

theorem InSection.frame (h : InSection s before t calls pending asked steps)
    (hsame : SameRequests t u) (ha : a.drains = false) :
    InSection s (before ++ [a]) u calls pending asked steps := by
  have hout : initOutcomes [a] = [] := by
    cases a <;> first | rfl | cases ha
  refine ⟨?_, ?_, ?_⟩
  · rw [hsame.queue]
    exact h.drained.congr hsame.multi hsame.deleted
  · rw [initOutcomes_append, h.outcomes, hout, List.append_nil]
  · rw [List.countP_append, h.count, List.countP_singleton, ha]
    rfl

theorem InSection.take (h : InSection s before t calls [] [] 1)
    (hqueue : t.requestQueue = c :: u.requestQueue) (hmulti : u.multi = t.multi)
    (hdeleted : u.loopDeleted = t.loopDeleted) :
    InSection s (before ++ [.drainTest]) u calls [c] [] 2 := by
  refine ⟨?_, ?_, ?_⟩
  · have hdrained := h.drained.congr hmulti hdeleted
    rw [List.nil_append, hqueue] at hdrained
    exact hdrained
  · rw [initOutcomes_append, h.outcomes]
    exact List.append_nil _
  · rw [List.countP_append, h.count]
    rfl

theorem InSection.ask (h : InSection s before t calls [c] [] 2) (hsame : SameRequests t u)
    (o : InitOutcome) : InSection s (before ++ [.initCurl o]) u calls [c] [o] 3 := by
  refine ⟨?_, ?_, ?_⟩
  · rw [hsame.queue]
    exact h.drained.congr hsame.multi hsame.deleted
  · rw [initOutcomes_append, h.outcomes, List.append_nil]
    rfl
  · rw [List.countP_append, h.count]
    rfl

/-- The end of one iteration, after which the call is accounted for. -/
theorem InSection.settle (h : InSection s before t calls [c] [o] 3)
    (hdrained : Drained s (calls ++ [(c, o)]) u.requestQueue u) (ha : a.drains = true)
    (hout : initOutcomes [a] = []) :
    InSection s (before ++ [a]) u (calls ++ [(c, o)]) [] [] 1 := by
  refine ⟨hdrained, ?_, ?_⟩
  · rw [initOutcomes_append, h.outcomes, hout]
    simp
  · rw [List.countP_append, h.count, List.countP_singleton, if_pos ha, List.length_append,
      List.length_singleton]
    omega

end Steps

/-- Every step inside the section, of either thread, leads on. -/
theorem Midway.step (h : Midway s before t) (hlocked : Locked t) (ha : a ≠ .drainUnlock)
    (hstep : RequestStep t u a) : Midway s (before ++ [a]) u := by
  have hdraining := h.draining
  obtain ⟨calls, h⟩ := h
  cases hstep with
  | lock hs ht hsame =>
    rw [hs] at hdraining
    cases hdraining
  | take c n hs hn ht hqueue hmulti hdeleted =>
    rw [hs] at h
    refine ⟨calls, ?_⟩
    rw [ht]
    exact ⟨h.1, hn, h.2.take hqueue hmulti hdeleted⟩
  | finish n hs hn ht hsame =>
    rw [hs] at h
    refine ⟨calls, ?_⟩
    rw [ht]
    refine ⟨?_, h.2.same hsame rfl rfl⟩
    rw [hsame.queue, ← h.1]
    exact hn
  | initOk c n o hs ho ht hsame =>
    rw [hs] at h
    refine ⟨calls, ?_⟩
    rw [ht]
    exact ⟨h.1, h.2.1, o, ho, h.2.2.ask hsame o⟩
  | initFail c n o hs ho ht hsame =>
    rw [hs] at h
    refine ⟨calls, ?_⟩
    rw [ht]
    exact ⟨h.1, h.2.1, o, ho, h.2.2.ask hsame o⟩
  | delete c n hs ht hqueue hmulti hdeleted =>
    rw [hs] at h
    obtain ⟨hn, hlt, o, ho, hsection⟩ := h
    have hdrained := hsection.drained.dropped ho (hn ▸ hlt) hmulti hdeleted
    rw [← hqueue] at hdrained
    refine ⟨calls ++ [(c, o)], ?_⟩
    rw [ht]
    refine ⟨?_, hsection.settle hdrained rfl rfl⟩
    rw [hn, succeeded_append]
    simp [succeeded, ho]
  | hand c n hs ht hqueue hmulti hdeleted =>
    rw [hs] at h
    obtain ⟨hn, hlt, o, ho, hsection⟩ := h
    have hdrained := hsection.drained.handed ho (hn ▸ hlt) hmulti hdeleted
    rw [← hqueue] at hdrained
    refine ⟨calls ++ [(c, o)], ?_⟩
    rw [ht]
    refine ⟨?_, hsection.settle hdrained rfl rfl⟩
    rw [hn, succeeded_append]
    simp [succeeded, ho]
  | unlock => exact absurd rfl ha
  | push hs =>
    refine absurd (hlocked.main_free (m := .requestQueue) (o := (.loop, .asyncPerformRequests)) ?_) hs
    cases hl : t.loop <;> rw [hl] at hdraining <;> first | rfl | cases hdraining
  | other _ hd hloop hsame =>
    refine ⟨calls, ?_⟩
    rw [hloop]
    cases hl : t.loop <;> simp only [hl] at h ⊢
    · exact ⟨h.1, h.2.frame hsame hd⟩
    · exact ⟨h.1, h.2.1, h.2.2.frame hsame hd⟩
    · obtain ⟨hn, hlt, o, ho, hsection⟩ := h
      exact ⟨hn, hlt, o, ho, hsection.frame hsame hd⟩
    · obtain ⟨hn, hlt, o, ho, hsection⟩ := h
      exact ⟨hn, hlt, o, ho, hsection.frame hsame hd⟩
    · rw [hsame.queue]
      exact ⟨h.1, h.2.frame hsame hd⟩
  | outside _ hd hs ht hqueue =>
    rw [hs] at hdraining
    cases hdraining

theorem Midway.run {body : List Action} (h : Midway s before t) (hreach : machine.Reachable t)
    (hbody : .drainUnlock ∉ body) (hrun : machine.run t body = some u) :
    Midway s (before ++ body) u := by
  induction body generalizing before t with
  | nil =>
    cases hrun
    rwa [List.append_nil]
  | cons a body ih =>
    obtain ⟨v, hv, hrun⟩ := machine.run_cons.mp hrun
    rw [List.mem_cons, not_or] at hbody
    have hnext := h.step (reachable_locked hreach) (Ne.symm hbody.1) (step_requests hv)
    have hrest := ih hnext (hreach.step hv) hbody.2 hrun
    rwa [List.append_assoc] at hrest

/-- The limit is never exceeded. -/
theorem Drained.length_le (h : Drained s calls rest t) :
    (succeeded calls).length ≤ maxProcess := by
  rcases List.eq_nil_or_concat' calls with rfl | ⟨earlier, call, rfl⟩
  · exact Nat.zero_le _
  · have hlt := h.limited earlier (List.prefix_append _ _) (by simp)
    have hone : (succeeded [call]).length ≤ 1 := by
      unfold succeeded
      rw [List.length_map]
      exact List.length_filter_le _ _
    rw [succeeded_append, List.length_append]
    omega

/-- What one run of `AsyncPerformRequests` does: the calls of `InitCurl` are those on the shortest
prefix of the queue with `MAX_PROCESS` successes, or on the whole queue if it has fewer, and for
each of them the loop takes three steps. -/
def DrainedExactly (s : State) (as : List Action) (t : State) : Prop :=
  ∃ calls, initOutcomes as = calls.map (·.2) ∧ Drained s calls t.requestQueue t ∧
    (t.requestQueue = [] ∨ (succeeded calls).length = maxProcess) ∧
    as.countP Action.drains = 3 * calls.length + 3

theorem DrainCall.drainedExactly {as : List Action} (h : DrainCall s as t) (hreach : machine.Reachable s) :
    DrainedExactly s as t := by
  obtain ⟨hrun, body, rfl, hbody⟩ := h
  obtain ⟨v, hrun, hlast⟩ := machine.run_append.mp hrun
  obtain ⟨u, hu, hrun⟩ := machine.run_cons.mp hrun
  obtain ⟨w, hw, hnil⟩ := machine.run_cons.mp hlast
  cases hnil
  have hlock : RequestStep s u .drainLock := step_requests hu
  have hunlock : RequestStep v t .drainUnlock := step_requests hw
  have hfirst : Midway s [.drainLock] u := by
    cases hlock with
    | lock hs ht hsame =>
      refine ⟨[], ?_⟩
      rw [ht]
      refine ⟨rfl, ⟨?_, ?_, ?_, ?_⟩, rfl, rfl⟩
      · exact hsame.queue.symm
      · rw [hsame.multi]
        exact (List.append_nil _).symm
      · rw [hsame.deleted]
        exact (List.append_nil _).symm
      · intro earlier hearlier hne
        exact absurd (List.prefix_nil.mp hearlier) hne
    | other _ hd => cases hd
    | outside _ hd => cases hd
  have hmid := hfirst.run (hreach.step hu) hbody hrun
  cases hunlock with
  | unlock hs ht hsame =>
    obtain ⟨calls, hmid⟩ := hmid
    rw [hs] at hmid
    obtain ⟨hend, hsection⟩ := hmid
    have hlast := hsection.same hsame rfl rfl (a := .drainUnlock)
    refine ⟨calls, ?_, hlast.drained, ?_, hlast.count⟩
    · exact hlast.outcomes.trans (List.append_nil _)
    · rw [hsame.queue]
      exact hend.imp_right fun hle => hsection.drained.length_le.antisymm hle
  | other _ hd => cases hd
  | outside _ hd => cases hd

end Draining

section Terminating
variable {s : State}

/-- Whatever `InitCurl` answers, the loop comes to its end. -/
theorem drain_ends (o : ℕ → InitOutcome) (queue : List Context) :
    ∀ (s : State) (n k : ℕ), s.requestQueue = queue → s.loop = .drainTest n →
      ∃ body t m, machine.run s (body ++ [.drainUnlock]) = some t ∧
        (∀ a ∈ body, a.drains = true ∧ a ≠ .drainUnlock) ∧
        initOutcomes body = (List.range' k m).map o := by
  have hend {s : State} {n : ℕ} (k : ℕ) (hloop : s.loop = .drainTest n)
      (hdone : s.requestQueue = [] ∨ maxProcess ≤ n) :
      ∃ body t m, machine.run s (body ++ [.drainUnlock]) = some t ∧
        (∀ a ∈ body, a.drains = true ∧ a ≠ .drainUnlock) ∧
        initOutcomes body = (List.range' k m).map o := by
    have hunlock : Step { s with loop := .drainUnlock } .drainUnlock
        { s with requestOwner := none, loop := .uv } := .drainUnlock rfl
    have hrun := (Step.drainDone n hloop hdone).run_cons (hunlock.run_cons (machine.run_nil _))
    exact ⟨[.drainTest], _, 0, hrun, by simp [Action.drains], rfl⟩
  induction queue with
  | nil => exact fun s n k hqueue hloop => hend k hloop (.inl hqueue)
  | cons c q ih =>
    intro s n k hqueue hloop
    by_cases hn : n < maxProcess
    · have htake := Step.drainTake c q n hloop hqueue hn
      cases ho : (c.initCurl (o k)).1 with
      | true =>
        have hinit := Step.initSucceeds (s := { s with requestQueue := q, loop := .drainInit c n })
          c n (o k) rfl ho
        obtain ⟨body, t, m, hrun, hbody, hout⟩ := ih
          { s with
            requestQueue := q
            ledger := s.ledger ++ (c.initCurl (o k)).2
            initialised := s.initialised ++ [c]
            multi := s.multi ++ [c]
            handed := s.handed ++ [c]
            loop := .drainTest (n + 1) } (n + 1) (k + 1) rfl rfl
        refine ⟨.drainTest :: .initCurl (o k) :: .addHandle :: body, t, m + 1, ?_, ?_, ?_⟩
        · exact htake.run_cons (hinit.run_cons ((Step.addHandle c n rfl).run_cons hrun))
        · simpa [Action.drains] using hbody
        · rw [List.range'_succ, List.map_cons, ← hout]
          rfl
      | false =>
        have hinit := Step.initFails (s := { s with requestQueue := q, loop := .drainInit c n })
          c n (o k) rfl ho
        obtain ⟨body, t, m, hrun, hbody, hout⟩ := ih
          { State.destroy { s with
              requestQueue := q
              ledger := s.ledger ++ (c.initCurl (o k)).2 } .loop c with
            loop := .drainTest n } n (k + 1) rfl rfl
        refine ⟨.drainTest :: .initCurl (o k) :: .drainDelete :: body, t, m + 1, ?_, ?_, ?_⟩
        · exact htake.run_cons (hinit.run_cons ((Step.drainDelete c n rfl).run_cons hrun))
        · simpa [Action.drains] using hbody
        · rw [List.range'_succ, List.map_cons, ← hout]
          rfl
    · exact hend k hloop (.inr (Nat.le_of_not_lt hn))

/-- Once the mutex is free, one run of `AsyncPerformRequests` can be carried out by itself, for every
sequence of answers of `InitCurl`. -/
theorem drainCall_exists (hloop : s.loop = .drainLock) (hfree : s.requestOwner = none)
    (o : ℕ → InitOutcome) :
    ∃ as t, DrainCall s as t ∧ (∀ a ∈ as, a.drains = true) ∧
      initOutcomes as = (List.range (initOutcomes as).length).map o := by
  have hlock := Step.drainLock hloop hfree
  obtain ⟨body, t, m, hrun, hbody, hout⟩ := drain_ends o s.requestQueue
    { s with requestOwner := some (.loop, .asyncPerformRequests), loop := .drainTest 0 } 0 0 rfl rfl
  have houtcomes : initOutcomes (.drainLock :: body ++ [.drainUnlock]) = (List.range m).map o := by
    rw [initOutcomes_append, List.range_eq_range', ← hout]
    exact List.append_nil _
  refine ⟨.drainLock :: body ++ [.drainUnlock], t, ⟨hlock.run_cons hrun, body, rfl, ?_⟩, ?_, ?_⟩
  · exact fun hmem => (hbody _ hmem).2 rfl
  · intro a ha
    simp only [List.cons_append, List.mem_cons, List.mem_append, List.not_mem_nil, or_false] at ha
    rcases ha with rfl | ha | rfl
    · rfl
    · exact (hbody a ha).1
    · rfl
  · rw [houtcomes, List.length_map, List.length_range]

end Terminating

section Rounds
variable {s t u : State} {a : Action} {n k : ℕ}

/-- The requests that a run of `AsyncPerformRequests` has taken at least. -/
def LoopPc.takenCount : LoopPc → ℕ
  | .drainTest n => n
  | .drainInit _ n | .drainDelete _ n | .drainAdd _ n => n + 1
  | .drainUnlock => maxProcess
  | _ => 0

/-- `k` runs have ended since `n` requests were queued: each took ten of them, unless none is
left. -/
def Shrunk (n k : ℕ) (t : State) : Prop :=
  t.requestQueue = [] ∨ t.requestQueue.length + maxProcess * k + t.loop.takenCount ≤ n

theorem takenCount_of_not_draining {l : LoopPc} (h : l.draining = false) : l.takenCount = 0 := by
  cases l <;> first | rfl | cases h

theorem Shrunk.of_le {k' : ℕ} (h : Shrunk n k s) (hempty : s.requestQueue = [] → t.requestQueue = [])
    (hle : t.requestQueue.length + maxProcess * k' + t.loop.takenCount ≤
      s.requestQueue.length + maxProcess * k + s.loop.takenCount) : Shrunk n k' t :=
  h.imp hempty hle.trans

/-- A step that takes nothing from the queue. -/
theorem Shrunk.same (h : Shrunk n k s) (hqueue : t.requestQueue = s.requestQueue)
    (hcount : t.loop.takenCount ≤ s.loop.takenCount) : Shrunk n k t := by
  refine h.of_le (fun hempty => hqueue.trans hempty) ?_
  rw [hqueue]
  exact Nat.add_le_add_left hcount _

theorem Shrunk.step (h : Shrunk n k s) (ha : a ≠ .addPush) (hstep : RequestStep s t a) :
    Shrunk n (if a = .drainUnlock then k + 1 else k) t := by
  cases hstep with
  | lock hs ht hsame => exact h.same hsame.queue (by rw [hs, ht]; exact le_rfl)
  | take c m hs hm ht hqueue =>
    refine h.of_le (fun hempty => by rw [hqueue] at hempty; cases hempty) ?_
    rw [hs, ht, hqueue, if_neg (by simp), List.length_cons]
    simp only [LoopPc.takenCount]
    omega
  | finish m hs hm ht hsame =>
    rcases hm with hempty | hm
    · exact .inl (hsame.queue.trans hempty)
    · exact h.same hsame.queue (by rw [hs, ht]; exact hm)
  | initOk c m o hs ho ht hsame => exact h.same hsame.queue (by rw [hs, ht]; exact le_rfl)
  | initFail c m o hs ho ht hsame => exact h.same hsame.queue (by rw [hs, ht]; exact le_rfl)
  | delete c m hs ht hqueue => exact h.same hqueue (by rw [hs, ht]; exact Nat.le_succ m)
  | hand c m hs ht hqueue => exact h.same hqueue (by rw [hs, ht]; exact le_rfl)
  | unlock hs ht hsame =>
    refine h.of_le (fun hempty => hsame.queue.trans hempty) ?_
    rw [hs, ht, hsame.queue, if_pos rfl]
    simp only [LoopPc.takenCount, maxProcess]
    omega
  | push => exact absurd rfl ha
  | other _ hd hloop hsame =>
    rw [if_neg (by rintro rfl; cases hd)]
    exact h.same hsame.queue (by rw [hloop])
  | outside _ hd hs ht hqueue =>
    rw [if_neg (by rintro rfl; cases hd)]
    exact h.same hqueue (by rw [takenCount_of_not_draining hs, takenCount_of_not_draining ht])

theorem Shrunk.run {as : List Action} (h : Shrunk n k s) (hquiet : .addPush ∉ as)
    (hrun : machine.run s as = some t) : Shrunk n (k + as.count .drainUnlock) t := by
  have hstep : ∀ k s a t, Shrunk n k s → a ≠ .addPush → machine.step s a = some t →
      Shrunk n (if a = .drainUnlock then k + 1 else k) t :=
    fun k s a t hs ha hstep => hs.step ha (step_requests hstep)
  have hothers : ∀ a ∈ as, a ≠ .addPush := fun a ha => ne_of_mem_of_not_mem ha hquiet
  exact machine.run_counted .drainUnlock hstep h hothers hrun

/-- Rounds without additions: `FrameHook` is called, and `AsyncPerformRequests` runs to its end
before the next round, unless `FrameHook` found the queue empty. -/
inductive Rounds (s : State) : ℕ → State → Prop
  | start : Rounds s 0 s
  | round {k : ℕ} {u t : State} (as : List Action) (hrounds : Rounds s k u)
      (hrun : machine.run u (.frameHook :: as) = some t) (hquiet : .addPush ∉ as)
      (hserved : .drainUnlock ∈ as ∨ u.requestQueue = []) : Rounds s (k + 1) t

theorem Rounds.shrunk (h : Rounds s k t) (hidle : s.loop.draining = false) :
    ∃ j, k ≤ j ∧ Shrunk s.requestQueue.length j t := by
  induction h with
  | start =>
    refine ⟨0, le_rfl, .inr ?_⟩
    rw [takenCount_of_not_draining hidle]
    exact le_rfl
  | @round k u t as hrounds hrun hquiet hserved ih =>
    obtain ⟨j, hj, hshrunk⟩ := ih
    have hquiet' : .addPush ∉ Action.frameHook :: as := by simp [hquiet]
    rcases hserved with hmem | hempty
    · refine ⟨_, ?_, hshrunk.run hquiet' hrun⟩
      have hpos : 0 < (Action.frameHook :: as).count .drainUnlock :=
        List.count_pos_iff.mpr (List.mem_cons_of_mem _ hmem)
      omega
    · have hstart : Shrunk s.requestQueue.length (k + 1) u := .inl hempty
      exact ⟨_, Nat.le_add_right _ _, hstart.run hquiet' hrun⟩

/-- As many rounds as it takes at ten requests a round leave the queue empty. -/
theorem Rounds.empties (h : Rounds s k t) (hidle : s.loop.draining = false)
    (hk : (s.requestQueue.length + 9) / 10 ≤ k) : t.requestQueue = [] := by
  obtain ⟨j, hj, hshrunk⟩ := h.shrunk hidle
  rcases hshrunk with hempty | hle
  · exact hempty
  · apply List.length_eq_zero_iff.mp
    simp only [maxProcess] at hle
    omega

/-- `FrameHook` wakes the loop up as long as a request waits. -/
theorem frameHook_wakes (h : step s .frameHook = some t) (hqueue : s.requestQueue ≠ []) :
    t.performPending = true := by
  cases step_steps h with
  | frameHook hm => simp [List.isEmpty_eq_false_iff.mpr hqueue]

end Rounds

section Delivery

/-- `FrameHook` has been called and has not popped a context yet. -/
def MainPc.waiting : MainPc → ℕ
  | .frameTest | .frameLock | .framePop => 1
  | _ => 0

/-- What a step does to the completed contexts. -/
inductive DeliveryStep (s t : State) : Action → Prop
  | hook (hs : s.main = .game) (ht : t.main = .frameTest)
      (hqueue : t.completedQueue = s.completedQueue) (hdone : t.completions = s.completions) :
      DeliveryStep s t .frameHook
  | skip (hs : s.main = .frameTest) (ht : t.main = .game) (hempty : s.completedQueue = [])
      (hqueue : t.completedQueue = s.completedQueue) (hdone : t.completions = s.completions) :
      DeliveryStep s t .frameTest
  | pop (c : Context) (hs : s.main = .framePop) (ht : t.main = .frameCompleted c)
      (hqueue : s.completedQueue = c :: t.completedQueue) (hdone : t.completions = s.completions) :
      DeliveryStep s t .framePop
  | complete (c : Context) (b : Bool) (hs : s.main = .frameCompleted c)
      (ht : t.main = .frameCallback c ∨ t.main = .frameDelete c)
      (hqueue : t.completedQueue = s.completedQueue)
      (hdone : t.completions = s.completions ++ [c]) : DeliveryStep s t (.onCompleted b)
  | push : DeliveryStep s t .checkPush
  | other (a : Action) (ha : a ≠ .frameHook) (hwaiting : t.main.waiting = s.main.waiting)
      (hpopped : t.main.popped = s.main.popped) (hqueue : t.completedQueue = s.completedQueue)
      (hdone : t.completions = s.completions) : DeliveryStep s t a

variable {s t : State} {a : Action}

theorem step_delivery (h : step s a = some t) : DeliveryStep s t a := by
  cases step_steps h with
  | created k v r hm | addUnlock r hm =>
    rcases r with ⟨_ | d, f⟩ <;>
      exact .other _ (by simp) (by rw [hm]; rfl) (by rw [hm]; rfl) rfl rfl
  | frameHook hm => exact .hook hm rfl rfl rfl
  | frameEmpty hm hempty => exact .skip hm rfl hempty rfl rfl
  | framePop c q hm hq => exact .pop c hm rfl hq rfl
  | onCompleted c b hm =>
    have hc := onCompleted_completes s c b
    exact .complete c b hm hc.main hc.completedQueue hc.completions
  | checkPush => exact .push
  | addLock _ _ hm | addPush _ _ hm | frameFull hm | frameLock hm | callbackReturns _ hm
  | frameDelete _ hm | frameUnlock hm | unload hm | joinThread hm | closeLoop hm | cleanupMulti hm
  | removeTypes hm =>
    exact .other _ (by simp) (by rw [hm]; rfl) (by rw [hm]; rfl) rfl rfl
  | _ => exact .other _ (by simp) rfl rfl rfl rfl

/-- After `j` calls of `FrameHook` the first `j` contexts have been popped and completed, the last
of them unless its call is still under way. -/
structure Delivered (s : State) (j : ℕ) (t : State) : Prop where
  called : t.main.waiting ≤ j
  done : t.completions ++ t.main.popped =
    s.completions ++ s.completedQueue.take (j - t.main.waiting)
  queue : t.completedQueue = s.completedQueue.drop (j - t.main.waiting)

theorem Delivered.step {u : State} {j : ℕ} (h : Delivered s j t) (ha : a ≠ .checkPush)
    (hstep : DeliveryStep t u a) : Delivered s (if a = .frameHook then j + 1 else j) u := by
  obtain ⟨hcalled, hdone, hqueue⟩ := h
  cases hstep with
  | hook hs ht hq hd =>
    rw [hs] at hdone hqueue
    refine ⟨?_, ?_, ?_⟩ <;> rw [ht, if_pos rfl]
    · exact Nat.le_add_left _ _
    · rw [hd]
      exact hdone
    · rw [hq]
      exact hqueue
  | skip hs ht hempty hq hd =>
    simp only [hs, MainPc.waiting, MainPc.popped, List.append_nil] at hdone hqueue
    rw [hqueue] at hempty
    have hlen := List.drop_eq_nil_iff.mp hempty
    have hlen' : s.completedQueue.length ≤ j := hlen.trans (Nat.sub_le _ _)
    rw [if_neg (by simp)]
    refine ⟨?_, ?_, ?_⟩ <;> simp only [ht, MainPc.waiting, MainPc.popped, List.append_nil, Nat.sub_zero]
    · exact Nat.zero_le _
    · rw [hd, hdone, List.take_of_length_le hlen, List.take_of_length_le hlen']
    · rw [hq, hqueue, hempty, List.drop_eq_nil_iff.mpr hlen']
  | pop c hs ht hq hd =>
    simp only [hs, MainPc.waiting, MainPc.popped, List.append_nil] at hcalled hdone hqueue
    obtain ⟨i, rfl⟩ : ∃ i, j = i + 1 := ⟨j - 1, (Nat.sub_add_cancel hcalled).symm⟩
    rw [Nat.add_sub_cancel] at hdone hqueue
    have hdrop : s.completedQueue.drop i = c :: u.completedQueue := hqueue.symm.trans hq
    rw [if_neg (by simp)]
    refine ⟨?_, ?_, ?_⟩ <;> simp only [ht, MainPc.waiting, MainPc.popped, Nat.sub_zero]
    · exact Nat.zero_le _
    · have hhead : s.completedQueue[i]? = some c := by
        rw [← List.head?_drop, hdrop]
        rfl
      rw [hd, hdone, List.append_assoc, List.take_add_one, hhead]
      rfl
    · rw [← List.tail_drop, hdrop]
      rfl
  | complete c b hs ht hq hd =>
    simp only [hs, MainPc.waiting, MainPc.popped] at hdone hqueue
    rw [if_neg (by simp)]
    have hwaiting : u.main.waiting = 0 ∧ u.main.popped = [] := by
      rcases ht with ht | ht <;> rw [ht] <;> exact ⟨rfl, rfl⟩
    refine ⟨?_, ?_, ?_⟩ <;> rw [hwaiting.1]
    · exact Nat.zero_le _
    · rw [hwaiting.2, List.append_nil, hd, hdone]
    · rw [hq, hqueue]
  | push => exact absurd rfl ha
  | other _ hhook hwaiting hpopped hq hd =>
    rw [if_neg hhook]
    refine ⟨?_, ?_, ?_⟩ <;> rw [hwaiting]
    · exact hcalled
    · rw [hd, hpopped]
      exact hdone
    · rw [hq]
      exact hqueue

theorem Delivered.run {u : State} {j : ℕ} {as : List Action} (h : Delivered s j t)
    (hquiet : .checkPush ∉ as) (hrun : machine.run t as = some u) :
    Delivered s (j + as.count .frameHook) u := by
  have hstep : ∀ j t a u, Delivered s j t → a ≠ .checkPush → machine.step t a = some u →
      Delivered s (if a = .frameHook then j + 1 else j) u :=
    fun j t a u ht ha hstep => ht.step ha (step_delivery hstep)
  have hothers : ∀ a ∈ as, a ≠ .checkPush := fun a ha => ne_of_mem_of_not_mem ha hquiet
  exact machine.run_counted .frameHook hstep h hothers hrun

/-- Every call of `FrameHook` delivers one context, as long as there is one. -/
theorem frameHooks_deliver {as : List Action} (hgame : s.main = .game)
    (hrun : machine.run s as = some t) (hquiet : .checkPush ∉ as) (hend : t.main = .game) :
    t.completions = s.completions ++ s.completedQueue.take (as.count .frameHook) ∧
      t.completedQueue = s.completedQueue.drop (as.count .frameHook) := by
  have hstart : Delivered s 0 s := by
    refine ⟨?_, ?_, ?_⟩ <;> rw [hgame]
    · exact Nat.zero_le _
    · rfl
    · rfl
  obtain ⟨-, hdone, hqueue⟩ := hstart.run hquiet hrun
  simp only [hend, MainPc.waiting, MainPc.popped, List.append_nil, Nat.zero_add,
    Nat.sub_zero] at hdone hqueue
  exact ⟨hdone, hqueue⟩

end Delivery

/-- How the queues are emptied from a state on: a run of `AsyncPerformRequests` ends and takes what
it should, `FrameHook` asks for it, rounds of both leave no request, and calls of `FrameHook`
deliver the completed contexts one by one. -/
structure DrainProgress (s : State) : Prop where
  terminates : s.loop = .drainLock → s.requestOwner = none → ∀ o : ℕ → InitOutcome,
    ∃ as t, DrainCall s as t ∧ (∀ a ∈ as, a.drains = true) ∧
      initOutcomes as = (List.range (initOutcomes as).length).map o
  takes : ∀ as t, DrainCall s as t → DrainedExactly s as t
  wakes : ∀ t, step s .frameHook = some t → s.requestQueue ≠ [] → t.performPending = true
  empties : s.loop.draining = false → ∀ k t, Rounds s k t →
    (s.requestQueue.length + 9) / 10 ≤ k → t.requestQueue = []
  delivers : s.main = .game → ∀ as t, machine.run s as = some t → .checkPush ∉ as →
    t.main = .game →
      t.completions = s.completions ++ s.completedQueue.take (as.count .frameHook) ∧
        t.completedQueue = s.completedQueue.drop (as.count .frameHook)

/-- Two requests wait: a download and a POST. -/
def burst : List Action :=
  [.native .created (.file false) 1 true, .addLock, .addPush, .addUnlock,
    .native .created .request 2 true, .addLock, .addPush, .addUnlock]

/-- One round in which the file of the download cannot be opened. -/
def burstRound : List Action :=
  [.frameTest, .asyncPerformRequests, .drainLock, .drainTest, .initCurl ⟨true, false⟩, .drainDelete,
    .drainTest, .initCurl ⟨true, true⟩, .addHandle, .drainTest, .drainUnlock]

end RipExt
