import RipExt.Pipeline.Flow
import RipExt.Pipeline.Steps

/-! The machine refines the flow: forgetting threads, locks and resources turns every step
into at most one move. Conservation and the two orders of the flow then hold of every state
the extension reaches. -/
namespace RipExt

/-- A context on its way into the request queue. -/
@[simp] def MainPc.adding : MainPc → List Context
  | .addLock c _ | .addPush c _ => [c]
  | _ => []

/-- A context popped by `FrameHook` whose `OnCompleted` has not started. -/
@[simp] def MainPc.popped : MainPc → List Context
  | .frameCompleted c => [c]
  | _ => []

/-- The context whose `OnCompleted` has started and that `FrameHook` will delete, also while
its callback is inside a native. -/
@[simp] def MainPc.delivering : MainPc → List Context
  | .frameCallback c | .frameDelete c => [c]
  | .addLock _ r | .addPush _ r | .addUnlock r => r.callback.toList
  | _ => []

/-- A context popped by `AsyncPerformRequests`, before its `InitCurl` or after it failed. -/
@[simp] def LoopPc.taken : LoopPc → List Context
  | .drainInit c _ | .drainDelete c _ => [c]
  | _ => []

@[simp] def LoopPc.ready : LoopPc → List Context
  | .drainAdd c _ => [c]
  | _ => []

/-- A context read from a message and still in the multi handle. -/
@[simp] def LoopPc.removing : LoopPc → List Context
  | .checkRemove c => [c]
  | _ => []

/-- A context out of the multi handle and not yet in the completed queue. -/
@[simp] def LoopPc.carried : LoopPc → List Context
  | .checkLock c | .checkPush c => [c]
  | _ => []

@[simp] def Message.context : Message → Option Context
  | .done c => some c
  | .other => none

/-- The state as the flow sees it. -/
def State.flow (s : State) : Flow.Places Context where
  waiting := s.requestQueue
  taken := s.loop.taken
  ready := s.loop.ready
  active := s.multi
  unread := s.loop.removing ++ s.messages.filterMap Message.context
  carried := s.loop.carried
  completed := s.completedQueue
  popped := s.main.popped
  delivering := s.main.delivering
  destroyed := s.destroyed
  added := s.added
  initialised := s.initialised
  handed := s.handed
  reported := s.reported
  pushed := s.pushed
  completions := s.completions

/-- Contexts are allocated with fresh addresses, and what `FrameHook` saw in the completed
queue before it took the lock is still there when it pops. -/
structure Fresh (s : State) : Prop where
  added : ∀ c ∈ s.added, c.id < s.nextId
  adding : ∀ c ∈ s.main.adding, c.id < s.nextId ∧ ∀ d ∈ s.added, d.id ≠ c.id
  pending : s.main = .frameLock ∨ s.main = .framePop → s.completedQueue ≠ []
  ids : (s.added.map Context.id).Nodup

/-- A step is matched by no move or by one. -/
def Matched (s t : State) : Prop := t.flow = s.flow ∨ ∃ m, Flow.move s.flow m = some t.flow

theorem Caller.resume_adding (r : Caller) : r.resume.adding = [] := by
  rcases r with ⟨_ | d, f⟩ <;> rfl

theorem Caller.resume_ne_frame (r : Caller) : r.resume ≠ .frameLock ∧ r.resume ≠ .framePop := by
  rcases r with ⟨_ | d, f⟩ <;> simp [Caller.resume]

theorem Fresh.of_main {s t : State} (hf : Fresh s) (ha : t.added = s.added)
    (hn : t.nextId = s.nextId) (hm : t.main.adding = [])
    (hl : t.main ≠ .frameLock ∧ t.main ≠ .framePop) : Fresh t where
  added := by rw [ha, hn]; exact hf.added
  adding := by rw [hm]; simp
  pending := by simp [hl]
  ids := by rw [ha]; exact hf.ids

/-- A context that is allocated gets an address above all others. -/
theorem Fresh.bump {s : State} (hf : Fresh s) {c : Context} (hc : c ∈ s.added) :
    c.id < s.nextId + 1 :=
  Nat.lt_succ_of_lt (hf.added c hc)

theorem fresh_loaded : Fresh State.loaded := by
  constructor <;> simp [State.loaded]

theorem step_fresh {s t : State} {a : Action} (hf : Fresh s) (h : step s a = some t) :
    Fresh t := by
  cases step_steps h with
  | addFunctionFails k v r hm =>
    have hadding : s.main.adding = [] := by rw [hm, r.resume_adding]
    have hframe : s.main ≠ .frameLock ∧ s.main ≠ .framePop := by
      rw [hm]
      exact r.resume_ne_frame
    refine ⟨fun c => hf.bump, ?_, by simp [hframe], hf.ids⟩
    change ∀ c ∈ s.main.adding, _
    rw [hadding]
    simp
  | created k v r hm =>
    refine ⟨fun c => hf.bump, ?_, by simp, hf.ids⟩
    simpa using fun d hd => (hf.added d hd).ne
  | addLock c r hm hfree => exact ⟨hf.added, by simpa [hm] using hf.adding, by simp, hf.ids⟩
  | addPush c r hm =>
    have hc := hf.adding c (by simp [hm])
    refine ⟨?_, by simp, by simp, ?_⟩
    · intro d hd
      rcases List.mem_append.mp hd with hd | hd
      · exact hf.added d hd
      · exact (List.mem_singleton.mp hd) ▸ hc.1
    · have hnew : c.id ∉ s.added.map Context.id := by
        simpa using fun d hd => hc.2 d hd
      simpa using List.Nodup.concat hnew hf.ids
  | addUnlock r hm => exact hf.of_main rfl rfl r.resume_adding r.resume_ne_frame
  | frameFull hm hfull => exact ⟨hf.added, by simp, fun _ => hfull, hf.ids⟩
  | frameLock hm hfree => exact ⟨hf.added, by simp, fun _ => hf.pending (.inl hm), hf.ids⟩
  | onCompleted c b hm =>
    obtain ⟨calls, ⟨-, heq⟩ | ⟨-, heq⟩⟩ := onCompleted_cases s c b
    all_goals
      rw [heq]
      exact hf.of_main rfl rfl rfl (by simp)
  | frameHook | frameEmpty | framePop | callbackReturns | frameDelete | frameUnlock | unload
  | joinThread | closeLoop | cleanupMulti | removeTypes =>
    exact hf.of_main rfl rfl rfl (by simp)
  | checkPush c hl =>
    refine ⟨hf.added, hf.adding, fun hp hnil => hf.pending hp ?_, hf.ids⟩
    exact (List.append_eq_nil_iff.mp hnil).1
  | _ => exact ⟨hf.added, hf.adding, hf.pending, hf.ids⟩

theorem step_matched {s t : State} {a : Action} (hf : Fresh s) (h : step s a = some t) :
    Matched s t := by
  cases step_steps h with
  | addPush c r hm =>
    have hc := (hf.adding c (by simp [hm])).2
    have hnew : c ∉ s.added := fun hmem => hc c hmem rfl
    exact .inr ⟨.add c, by simp [Flow.move, State.flow, State.destroyed, hm, hnew]⟩
  | framePop c q hm hq =>
    exact .inr ⟨.pop, by simp [Flow.move, State.flow, State.destroyed, hm, hq]⟩
  | onCompleted c b hm =>
    obtain ⟨calls, ⟨-, heq⟩ | ⟨-, heq⟩⟩ := onCompleted_cases s c b
    all_goals
      rw [heq]
      exact .inr ⟨.complete,
        by simp [Flow.move, State.flow, State.closeFile, State.destroyed, hm]⟩
  | frameDelete c hm =>
    exact .inr ⟨.destroy, by simp [Flow.move, State.flow, State.destroy, State.destroyed, hm]⟩
  | drainTake c q n hl hq hn =>
    exact .inr ⟨.take, by simp [Flow.move, State.flow, State.destroyed, hl, hq]⟩
  | initSucceeds c n o hl ho =>
    exact .inr ⟨.initOk, by simp [Flow.move, State.flow, State.destroyed, hl]⟩
  | drainDelete c n hl =>
    exact .inr ⟨.dropTaken, by simp [Flow.move, State.flow, State.destroy, State.destroyed, hl]⟩
  | addHandle c n hl => exact .inr ⟨.hand, by simp [Flow.move, State.flow, State.destroyed, hl]⟩
  | removeHandle c hl =>
    exact .inr ⟨.remove, by simp [Flow.move, State.flow, State.destroyed, hl]⟩
  | checkPush c hl => exact .inr ⟨.push, by simp [Flow.move, State.flow, State.destroyed, hl]⟩
  | transferDone c r hactive hnew =>
    exact .inr ⟨.report c, by simp [Flow.move, State.flow, State.destroyed, hactive, hnew]⟩
  | created k v r hm | addUnlock r hm =>
    rcases r with ⟨_ | d, f⟩ <;>
      exact .inl (by simp [State.flow, State.destroyed, hm, Caller.resume])
  | skipMessage ms hl hq =>
    exact .inl (by simp [State.flow, State.destroyed, hl, hq, List.filterMap_cons])
  | _ => exact .inl (by simp [State.flow, State.destroyed, *])

theorem reachable_fresh {s : State} (h : machine.Reachable s) : Fresh s :=
  Transition.System.reachable_invariant (I := Fresh) fresh_loaded
    (fun _ _ _ hs ht => step_fresh hs ht) h

/-- The flow simulates the machine. -/
theorem reachable_flow {s : State} (h : machine.Reachable s) :
    (Flow.system Context).Reachable s.flow := by
  refine Transition.System.reachable_simulation State.flow (I := Fresh) rfl fresh_loaded
    (fun _ _ _ hs ht => step_fresh hs ht) ?_ h
  intro s a t hs ht
  rcases step_matched hs ht with he | ⟨m, hm⟩
  · exact ⟨[], by rw [he]; rfl⟩
  · exact ⟨[m], (Flow.system Context).run_cons.mpr ⟨t.flow, hm, rfl⟩⟩

theorem reachable_conserved {s : State} (h : machine.Reachable s) : Flow.Conserved s.flow :=
  Flow.reachable_conserved (reachable_flow h)

/-- Where a context is between two steps. -/
inductive Place where
  | requestQueue | multi | completedQueue | destroyed
  deriving DecidableEq, Repr

namespace State

def contents (s : State) : Place → List Context
  | .requestQueue => s.requestQueue
  | .multi => s.multi
  | .completedQueue => s.completedQueue
  | .destroyed => s.destroyed

/-- The contexts in the hands of the two threads, in the middle of a step: `FrameHook` owns
one while it holds the completed-queue lock, `AsyncPerformRequests` while it holds the
request-queue lock, `CheckCompletedRequests` between `curl_multi_remove_handle` and `Push`. -/
def inHand (s : State) : List Context :=
  s.main.popped ++ s.main.delivering ++ s.loop.taken ++ s.loop.ready ++ s.loop.carried

end State

/-- What holds of every context and both orders. `added`, `handed`, `reported`, `pushed` and
`completions` list the contexts in the order in which `AddRequestToQueue` queued them,
`curl_multi_add_handle` got them, curl reported them, `CheckCompletedRequests` queued them
and `OnCompleted` ran on them. -/
structure Accounted (s : State) : Prop where
  exactlyOne : s.inHand = [] → ∀ c ∈ s.added, ∃! p, c ∈ s.contents p
  notInHand : ∀ c ∈ s.added, c ∉ s.inHand → ∃! p, c ∈ s.contents p
  inHand : ∀ c ∈ s.inHand, c ∈ s.added ∧ s.inHand.count c = 1 ∧ ∀ p, c ∉ s.contents p
  noDuplicate : ∀ p, (s.contents p).Nodup
  noOther : ∀ p, ∀ c ∈ s.contents p, c ∈ s.added
  handedInOrder : s.handed.Sublist s.added
  queuedInOrder : s.pushed <+: s.reported
  deliveredInOrder : s.completions <+: s.pushed
  completedOnce : s.completions.Nodup
  completedAfter : ∀ c ∈ s.completions, c ∈ s.initialised ∧ c ∈ s.handed ∧ c ∈ s.reported
  notDestroyed : ∀ c ∈ s.main.popped, c ∉ s.completions ∧ c ∉ s.destroyed
  popNonempty : s.main = .framePop → s.completedQueue ≠ []

/-- The counting form of conservation, read at the places and hands of the machine. -/
theorem reachable_count {s : State} (h : machine.Reachable s) (c : Context) :
    s.requestQueue.count c + s.multi.count c + s.completedQueue.count c + s.destroyed.count c +
      s.inHand.count c = s.added.count c := by
  have hc := (reachable_conserved h).counted c
  simp only [Flow.Places.occurrences, State.flow] at hc
  simp only [State.inHand, List.count_append]
  omega

/-- Counts that add up to one single out a place. -/
theorem existsUnique_place {s : State} {c : Context}
    (h : s.requestQueue.count c + s.multi.count c + s.completedQueue.count c +
      s.destroyed.count c = 1) : ∃! p, c ∈ s.contents p := by
  have hmem (p : Place) : c ∈ s.contents p ↔ 0 < (s.contents p).count c :=
    List.count_pos_iff.symm
  have hex : ∃ p, c ∈ s.contents p := by
    by_contra hnone
    push Not at hnone
    have h1 := List.count_eq_zero.mpr (hnone .requestQueue)
    have h2 := List.count_eq_zero.mpr (hnone .multi)
    have h3 := List.count_eq_zero.mpr (hnone .completedQueue)
    have h4 := List.count_eq_zero.mpr (hnone .destroyed)
    simp only [State.contents] at h1 h2 h3 h4
    omega
  obtain ⟨p, hp⟩ := hex
  refine ⟨p, hp, fun q hq => ?_⟩
  rw [hmem] at hp hq
  cases p <;> cases q <;> first | rfl | (simp only [State.contents] at hp hq; omega)

theorem count_contents_le {s : State} (h : machine.Reachable s) (c : Context) (p : Place) :
    (s.contents p).count c + s.inHand.count c ≤ s.added.count c := by
  have hc := reachable_count h c
  cases p <;> simp only [State.contents] <;> omega

theorem reachable_added_le {s : State} (h : machine.Reachable s) (c : Context) :
    s.added.count c ≤ 1 :=
  List.nodup_iff_count_le_one.mp (reachable_conserved h).nodup c

/-- A context in the hands of a thread was queued before and is in no place now. -/
theorem inHand_added {s : State} (h : machine.Reachable s) {c : Context} (hc : c ∈ s.inHand) :
    c ∈ s.added := by
  have hcount := reachable_count h c
  have hpos : 0 < s.inHand.count c := List.count_pos_iff.mpr hc
  exact List.count_pos_iff.mp (by omega)

/-- The context `FrameHook` has popped was never completed or destroyed before. -/
theorem popped_untouched {s : State} (h : machine.Reachable s) {c : Context}
    (hmem : c ∈ s.main.popped) : c ∉ s.completions ∧ c ∉ s.destroyed := by
  have hc := reachable_conserved h
  constructor
  · intro hcomp
    have hpushed : s.pushed = s.completions ++ (s.main.popped ++ s.completedQueue) :=
      hc.pushedOrder
    have hqueued : s.pushed <+: s.reported := ⟨_, hc.reportedOrder.symm⟩
    have hnd : (s.completions ++ (s.main.popped ++ s.completedQueue)).Nodup := by
      rw [← hpushed]
      exact hc.reportedOnce.sublist hqueued.sublist
    exact (List.nodup_append.mp hnd).2.2 c hcomp c (List.mem_append_left _ hmem) rfl
  · intro hd
    have hle := count_contents_le h c .destroyed
    have hpos : 0 < s.destroyed.count c := List.count_pos_iff.mpr hd
    have hhand : 0 < s.inHand.count c :=
      List.count_pos_iff.mpr (by simp only [State.inHand, List.mem_append]; tauto)
    have := reachable_added_le h c
    simp only [State.contents] at hle
    omega

/-- A context `AsyncPerformRequests` has taken was never completed before. -/
theorem taken_not_completed {s : State} (h : machine.Reachable s) {c : Context}
    (hmem : c ∈ s.loop.taken) : c ∉ s.completions := by
  intro hcomp
  have hc := reachable_conserved h
  have hpushed : c ∈ s.pushed := by
    have horder : s.pushed = s.completions ++ (s.main.popped ++ s.completedQueue) := hc.pushedOrder
    simp [horder, hcomp]
  have hreported : c ∈ s.reported := by
    have hprefix : s.pushed <+: s.reported := ⟨_, hc.reportedOrder.symm⟩
    exact hprefix.subset hpushed
  have hhanded : c ∈ s.handed := hc.reportedHanded c hreported
  have hnd : (s.handed ++ (s.loop.ready ++ (s.loop.taken ++ s.requestQueue))).Nodup :=
    hc.nodup.sublist hc.handedOrder
  exact (List.nodup_append.mp hnd).2.2 c hhanded c
    (by simp only [List.mem_append]; tauto) rfl

/-- Conservation of requests: in every state the extension can reach, under every
interleaving of the two threads and of curl. -/
theorem reachable_accounted {s : State} (h : machine.Reachable s) : Accounted s := by
  have hc := reachable_conserved h
  have hadded := reachable_added_le h
  have hone (c : Context) (hmem : c ∈ s.added) (hnot : c ∉ s.inHand) :
      ∃! p, c ∈ s.contents p := by
    apply existsUnique_place
    have hcount := reachable_count h c
    have hzero := List.count_eq_zero.mpr hnot
    have hpos : 0 < s.added.count c := List.count_pos_iff.mpr hmem
    have hle := hadded c
    omega
  have hdelivered : s.completions <+: s.pushed := ⟨_, hc.pushedOrder.symm⟩
  have hqueued : s.pushed <+: s.reported := ⟨_, hc.reportedOrder.symm⟩
  have hcompletions : s.completions <+: s.reported := hdelivered.trans hqueued
  exact {
    exactlyOne := fun hnil c hmem => hone c hmem (by simp [hnil])
    notInHand := hone
    inHand := by
      intro c hmem
      have hpos : 0 < s.inHand.count c := List.count_pos_iff.mpr hmem
      have hle := hadded c
      have hp (p : Place) := count_contents_le h c p
      refine ⟨List.count_pos_iff.mp ?_, ?_, fun p hcp => ?_⟩
      · have := hp .multi
        omega
      · have := hp .multi
        omega
      · have hcp : 0 < (s.contents p).count c := List.count_pos_iff.mpr hcp
        have := hp p
        omega
    noDuplicate := by
      intro p
      apply List.nodup_iff_count_le_one.mpr
      intro c
      have hle := count_contents_le h c p
      have := hadded c
      omega
    noOther := by
      intro p c hmem
      have hpos : 0 < (s.contents p).count c := List.count_pos_iff.mpr hmem
      have hle := count_contents_le h c p
      exact List.count_pos_iff.mp (by omega)
    handedInOrder := (List.sublist_append_left _ _).trans hc.handedOrder
    queuedInOrder := hqueued
    deliveredInOrder := hdelivered
    completedOnce := hc.reportedOnce.sublist hcompletions.sublist
    completedAfter := by
      intro c hmem
      have hr := hcompletions.subset hmem
      have hh := hc.reportedHanded c hr
      exact ⟨hc.initialised c (List.mem_append_left _ hh), hh, hr⟩
    notDestroyed := fun c hmem => popped_untouched h hmem
    popNonempty := fun hm => (reachable_fresh h).pending (.inr hm) }

/-- A request that succeeds, whose callback issues a second request that cannot start. -/
def deliveryRun : List Action :=
  [.native .created .request 7 true, .addLock, .addPush, .addUnlock, .frameHook, .frameTest,
    .asyncPerformRequests, .drainLock, .drainTest, .initCurl ⟨true, true⟩, .timeoutCallback 0,
    .addHandle, .drainTest, .drainUnlock, .performRequests,
    .transferDone ⟨0, .request, 7⟩ ⟨200, ""⟩, .socketActionReturns, .readMessage, .removeHandle,
    .checkLock, .checkPush, .checkUnlock, .readMessage, .frameHook, .frameTest, .frameLock,
    .framePop, .onCompleted true, .native .created (.file true) 8 true, .addLock, .addPush,
    .addUnlock, .callbackReturns, .frameDelete, .frameUnlock, .frameHook, .asyncPerformRequests,
    .drainLock, .drainTest, .initCurl ⟨true, false⟩, .drainDelete, .drainTest, .drainUnlock,
    .frameTest]

theorem deliveryRun_accounted : ∃ s, machine.run State.loaded deliveryRun = some s ∧
    s.completions = [⟨0, .request, 7⟩] ∧
    s.destroyed = [⟨0, .request, 7⟩, ⟨1, .file true, 8⟩] ∧ Accounted s := by
  refine ⟨_, rfl, rfl, rfl, reachable_accounted ⟨deliveryRun, rfl⟩⟩

end RipExt
