import RipExt.Pipeline.Conservation

/-! What reaches the plugins and how fast. A callback gets the result of its own transfer, and a
frame starts at most `MAX_PROCESS` requests and delivers at most one. -/
namespace RipExt
open Transition

section Executions
variable {s t : State} {a : Action}

/-- The contexts whose callbacks have run, in that order. -/
def State.called (s : State) : List Context := s.executed.map (·.context)

theorem called_onCompleted (h : s.called.Sublist s.completions) (c : Context) (b : Bool) :
    (s.onCompleted c b).called.Sublist (s.onCompleted c b).completions := by
  rw [(onCompleted_completes s c b).completions]
  obtain ⟨calls, ⟨-, heq⟩ | ⟨-, heq⟩⟩ := onCompleted_cases s c b
  · rw [heq]
    exact h.trans (List.sublist_append_left _ _)
  · have hcalled : (s.onCompleted c b).called = s.called ++ [c] := by
      rw [heq, State.called, List.map_append]
      rfl
    rw [hcalled]
    exact h.append (List.Sublist.refl [c])

theorem step_called (h : s.called.Sublist s.completions) (ht : step s a = some t) :
    t.called.Sublist t.completions := by
  cases step_steps ht with
  | onCompleted c b hm => exact called_onCompleted h c b
  | _ => exact h

/-- Callbacks run in the order of the calls of `OnCompleted`, each of which runs at most one. -/
theorem reachable_called (h : machine.Reachable s) : s.called.Sublist s.completions :=
  System.reachable_invariant (I := fun s => s.called.Sublist s.completions)
    (List.Sublist.refl []) (fun _ _ _ => step_called) h

theorem reachable_completions_nodup (h : machine.Reachable s) : s.completions.Nodup := by
  have hc := reachable_conserved h
  have hdelivered : s.completions <+: s.pushed := ⟨_, hc.pushedOrder.symm⟩
  have hqueued : s.pushed <+: s.reported := ⟨_, hc.reportedOrder.symm⟩
  exact hc.reportedOnce.sublist (hdelivered.trans hqueued).sublist

end Executions

section Results
variable {s t : State} {a : Action} {pre : List Action} {c : Context} {r : Transfer}

/-- Whether curl reports the transfer of this context. -/
def Action.reports (c : Context) : Action → Bool
  | .transferDone d _ => d = c
  | _ => false

theorem reports_iff : a.reports c = true ↔ ∃ r, a = .transferDone c r := by
  cases a with
  | transferDone d r =>
    simp only [Action.reports, decide_eq_true_eq, Action.transferDone.injEq]
    exact ⟨fun hd => ⟨r, hd, rfl⟩, fun ⟨_, hd, _⟩ => hd⟩
  | _ => simp [Action.reports]

/-- A native of the run allocated this context, with its kind and its value. -/
def Created (pre : List Action) (c : Context) : Prop :=
  ∃ before after frees u, pre = before ++ .native .created c.kind c.value frees :: after ∧
    machine.run State.loaded before = some u ∧ u.nextId = c.id

/-- After that, curl finished its transfer. -/
def Finished (pre : List Action) (c : Context) (r : Transfer) : Prop :=
  ∃ before after, pre = before ++ .transferDone c r :: after ∧ Created before c

/-- The values given to a callback are those of its own request: what the native was called with
and what curl reported, in the one report that the run has of this context. -/
structure OwnResult (as : List Action) (e : Execution) : Prop where
  value : e.value = e.context.value
  finished : Finished as e.context ⟨e.status, e.error⟩
  once : as.filter (Action.reports e.context) = [.transferDone e.context ⟨e.status, e.error⟩]

theorem Created.append (h : Created pre c) (rest : List Action) : Created (pre ++ rest) c := by
  obtain ⟨before, after, frees, u, rfl, hrun, hid⟩ := h
  exact ⟨before, after ++ rest, frees, u, by simp, hrun, hid⟩

theorem Finished.append (h : Finished pre c r) (rest : List Action) :
    Finished (pre ++ rest) c r := by
  obtain ⟨before, after, rfl, hcreated⟩ := h
  exact ⟨before, after ++ rest, by simp, hcreated⟩

/-- What the run so far says about the contexts, the transfers and the callbacks of a state. -/
structure Traced (pre : List Action) (s : State) : Prop where
  created : ∀ c ∈ s.main.adding ++ s.added, Created pre c
  finished : ∀ c ∈ s.reported, ∃ r, Finished pre c r
  recorded : ∀ c r, .transferDone c r ∈ pre →
    c ∈ s.reported ∧ s.transfers.lookup c.id = some r
  once : ∀ c, pre.countP (Action.reports c) ≤ 1
  executed : ∀ e ∈ s.executed, e.value = e.context.value ∧ e.context ∈ s.reported ∧
    s.transfers.lookup e.context.id = some ⟨e.status, e.error⟩

theorem traced_loaded : Traced [] State.loaded := by
  constructor <;> simp [State.loaded]

/-- A step that neither creates a context nor ends a transfer nor runs a callback. -/
theorem Traced.keep (h : Traced pre s)
    (hadding : t.main.adding ++ t.added ⊆ s.main.adding ++ s.added)
    (hreported : t.reported = s.reported)
    (htransfers : t.transfers = s.transfers) (hexecuted : t.executed = s.executed)
    (ha : ∀ c r, a ≠ .transferDone c r) :
    Traced (pre ++ [a]) t where
  created c hc := (h.created c (hadding hc)).append [a]
  finished c hc := by
    obtain ⟨r, hr⟩ := h.finished c (hreported ▸ hc)
    exact ⟨r, hr.append [a]⟩
  recorded c r hmem := by
    rw [hreported, htransfers]
    rcases List.mem_append.mp hmem with hmem | hmem
    · exact h.recorded c r hmem
    · exact absurd (List.mem_singleton.mp hmem).symm (ha c r)
  once c := by
    have hquiet : ¬a.reports c = true := fun hreports => by
      obtain ⟨r, hr⟩ := reports_iff.mp hreports
      exact ha c r hr
    rw [List.countP_append, List.countP_singleton, if_neg hquiet]
    exact h.once c
  executed e he := by
    rw [hreported, htransfers]
    exact h.executed e (hexecuted ▸ he)

/-- Curl reports a transfer: no other context has the same address. -/
theorem Traced.transferDone (h : Traced pre s) (hf : Fresh s) (hc : c ∈ s.added)
    (hreported : ∀ d ∈ s.reported, d ∈ s.added) (hnew : c ∉ s.reported) :
    Traced (pre ++ [.transferDone c r])
      { s with
        messages := s.messages ++ [.done c], reported := s.reported ++ [c]
        transfers := (c.id, r) :: s.transfers } := by
  have hlookup (d : Context) (hd : d ∈ s.reported) :
      ((c.id, r) :: s.transfers).lookup d.id = s.transfers.lookup d.id := by
    have hne : d.id ≠ c.id := by
      intro heq
      have hsame := List.inj_on_of_nodup_map hf.ids (hreported d hd) hc heq
      exact hnew (hsame ▸ hd)
    rw [List.lookup_cons, beq_eq_false_iff_ne.mpr hne]
  constructor
  · exact fun d hd => (h.created d hd).append _
  · intro d hd
    rcases List.mem_append.mp hd with hd | hd
    · obtain ⟨r', hr'⟩ := h.finished d hd
      exact ⟨r', hr'.append _⟩
    · rw [List.mem_singleton.mp hd]
      exact ⟨r, pre, [], rfl, h.created c (List.mem_append_right _ hc)⟩
  · intro d r' hmem
    rcases List.mem_append.mp hmem with hmem | hmem
    · obtain ⟨hd, hr'⟩ := h.recorded d r' hmem
      exact ⟨List.mem_append_left _ hd, (hlookup d hd).trans hr'⟩
    · cases List.mem_singleton.mp hmem
      exact ⟨List.mem_append_right _ (List.mem_singleton.mpr rfl), List.lookup_cons_self⟩
  · intro d
    rw [List.countP_append, List.countP_singleton]
    split_ifs with hd
    · have hdc : c = d := of_decide_eq_true hd
      have hnone : pre.countP (Action.reports d) = 0 := by
        rw [List.countP_eq_zero]
        intro a ha hreports
        obtain ⟨r', rfl⟩ := reports_iff.mp hreports
        exact hnew (hdc ▸ (h.recorded d r' ha).1)
      rw [hnone]
    · exact h.once d
  · intro e he
    obtain ⟨hvalue, hmem, hresult⟩ := h.executed e he
    exact ⟨hvalue, List.mem_append_left _ hmem, (hlookup _ hmem).trans hresult⟩

/-- `OnCompleted` hands the plugin what curl reported for this context. -/
theorem Traced.onCompleted (h : Traced pre s) (hc : c ∈ s.reported) (b : Bool) :
    Traced (pre ++ [.onCompleted b]) (s.onCompleted c b) := by
  obtain ⟨r, before, after, hpre, -⟩ := h.finished c hc
  have hr : s.transfers.lookup c.id = some r :=
    (h.recorded c r (hpre ▸ List.mem_append_right _ List.mem_cons_self)).2
  have hmain {x : List Context} : ([] : List Context) ++ x ⊆ s.main.adding ++ x := by simp
  obtain ⟨calls, ⟨-, heq⟩ | ⟨-, heq⟩⟩ := onCompleted_cases s c b
  · rw [heq]
    exact h.keep hmain rfl rfl rfl (by simp)
  · have hkeep : Traced (pre ++ [.onCompleted b]) { s.closeFile c with main := .frameCallback c } :=
      h.keep hmain rfl rfl rfl (by simp)
    rw [heq]
    refine ⟨hkeep.created, hkeep.finished, hkeep.recorded, hkeep.once, fun e he => ?_⟩
    rcases List.mem_append.mp he with he | he
    · exact hkeep.executed e he
    · rw [List.mem_singleton.mp he]
      refine ⟨rfl, hc, ?_⟩
      show s.transfers.lookup c.id = some ⟨(s.transfer c).status, (s.transfer c).error⟩
      rw [State.transfer, hr, Option.getD_some]

theorem step_traced (hreach : machine.Reachable s) (hrun : machine.run State.loaded pre = some s)
    (h : Traced pre s) (ht : step s a = some t) : Traced (pre ++ [a]) t := by
  have hc := reachable_conserved hreach
  have hreported : ∀ d ∈ s.reported, d ∈ s.added := fun d hd =>
    ((List.sublist_append_left _ _).trans hc.handedOrder).subset (hc.reportedHanded d hd)
  cases step_steps ht with
  | created k v r hm =>
    have hkeep : Traced (pre ++ [.native .created k v r.freesRequest]) s :=
      h.keep (List.Subset.refl _) rfl rfl rfl (by simp)
    refine ⟨fun d hd => ?_, hkeep.finished, hkeep.recorded, hkeep.once, hkeep.executed⟩
    rcases List.mem_cons.mp hd with rfl | hd
    · exact ⟨pre, [], r.freesRequest, s, rfl, hrun, rfl⟩
    · exact hkeep.created d (List.mem_append_right _ hd)
  | addPush c r hm => exact h.keep (by simp [hm]) rfl rfl rfl (by simp)
  | onCompleted c b hm =>
    have hpushed : s.pushed = s.completions ++ (s.main.popped ++ s.completedQueue) := hc.pushedOrder
    have hqueued : s.pushed <+: s.reported := ⟨_, hc.reportedOrder.symm⟩
    exact h.onCompleted (hqueued.subset (by simp [hpushed, hm])) b
  | transferDone c r hactive hnew =>
    have hadded := ((List.sublist_append_left _ _).trans hc.handedOrder).subset
      (hc.activeHanded c hactive)
    exact h.transferDone (reachable_fresh hreach) hadded hreported hnew
  | addLock c r hm hfree => exact h.keep (by simp [hm]) rfl rfl rfl (by simp)
  | addUnlock r hm =>
    refine h.keep ?_ rfl rfl rfl (by simp)
    show r.resume.adding ++ s.added ⊆ s.main.adding ++ s.added
    rw [r.resume_adding]
    exact List.subset_append_right _ _
  | frameDelete c hm => exact h.keep (List.subset_append_right _ _) rfl rfl rfl (by simp)
  | drainDelete c n hl => exact h.keep (List.Subset.refl _) rfl rfl rfl (by simp)
  | _ => exact h.keep (by simp [*]) rfl rfl rfl (by simp)

/-- One report at most, and a given one: it is the only one. -/
theorem Traced.reports_eq (h : Traced pre s) (hr : .transferDone c r ∈ pre) :
    pre.filter (Action.reports c) = [.transferDone c r] := by
  have hmem : .transferDone c r ∈ pre.filter (Action.reports c) :=
    List.mem_filter.mpr ⟨hr, reports_iff.mpr ⟨r, rfl⟩⟩
  have hlength := h.once c
  rw [List.countP_eq_length_filter] at hlength
  obtain ⟨a, ha⟩ := List.length_eq_one_iff.mp
    (Nat.le_antisymm hlength (List.length_pos_of_mem hmem))
  rw [ha, List.mem_singleton] at hmem
  rw [ha, hmem]

/-- In every run, each callback gets the value its own native was called with and the status and
the error that curl reported for its own transfer, and no context is called back twice. -/
theorem callbacks_get_own_results {as : List Action} (h : machine.run State.loaded as = some s) :
    (∀ e ∈ s.executed, OwnResult as e) ∧ (s.executed.map (·.context)).Nodup := by
  have hreach : machine.Reachable s := ⟨as, h⟩
  have htraced : Traced as s := by
    refine System.run_history (M := machine) traced_loaded (fun pre a t u _ hrun hI hu => ?_)
      List.prefix_rfl h
    exact step_traced ⟨pre, hrun⟩ hrun hI hu
  refine ⟨fun e he => ?_, (reachable_completions_nodup hreach).sublist (reachable_called hreach)⟩
  obtain ⟨hvalue, hmem, hlookup⟩ := htraced.executed e he
  obtain ⟨r, hr⟩ := htraced.finished _ hmem
  obtain ⟨before, after, rfl, hcreated⟩ := hr
  have hdone : .transferDone e.context r ∈ before ++ .transferDone e.context r :: after :=
    List.mem_append_right _ List.mem_cons_self
  rw [(htraced.recorded _ r hdone).2] at hlookup
  cases hlookup
  exact ⟨hvalue, ⟨before, after, rfl, hcreated⟩, htraced.reports_eq hdone⟩

/-- Two requests of one value, finished in the other order. -/
def crossedRun : List Action :=
  [.native .created .request 7 true, .addLock, .addPush, .addUnlock,
    .native .created .form 7 true, .addLock, .addPush, .addUnlock, .frameHook, .frameTest,
    .asyncPerformRequests, .drainLock, .drainTest, .initCurl ⟨true, true⟩, .addHandle,
    .drainTest, .initCurl ⟨true, true⟩, .timeoutCallback 0, .addHandle, .drainTest, .drainUnlock,
    .performRequests, .transferDone ⟨1, .form, 7⟩ ⟨404, ""⟩,
    .transferDone ⟨0, .request, 7⟩ ⟨0, "timed out"⟩, .socketActionReturns, .readMessage,
    .removeHandle, .checkLock, .checkPush, .checkUnlock, .readMessage, .removeHandle, .checkLock,
    .checkPush, .checkUnlock, .frameHook, .frameTest, .frameLock, .framePop, .onCompleted true,
    .callbackReturns, .frameDelete, .frameUnlock, .frameHook, .frameTest, .frameLock, .framePop,
    .onCompleted true]

theorem crossedRun_own_results : ∃ s, machine.run State.loaded crossedRun = some s ∧
    s.executed = [⟨⟨1, .form, 7⟩, 404, 7, ""⟩, ⟨⟨0, .request, 7⟩, 0, 7, "timed out"⟩] ∧
    (∀ e ∈ s.executed, OwnResult crossedRun e) ∧ (s.executed.map (·.context)).Nodup :=
  ⟨_, rfl, rfl, callbacks_get_own_results rfl⟩

end Results

section Pace
variable {s t : State} {a : Action} {pre : List Action}

/-- How many requests `AsyncPerformRequests` may still start. -/
@[simp] def LoopPc.budget : LoopPc → ℕ
  | .drainLock => maxProcess
  | .drainTest n | .drainInit _ n | .drainDelete _ n | .drainAdd _ n => maxProcess - n
  | _ => 0

/-- The limiter lets a context out of the queue only below `MAX_PROCESS`. -/
@[simp] def LoopPc.Limited : LoopPc → Prop
  | .drainInit _ n | .drainDelete _ n | .drainAdd _ n => n < maxProcess
  | _ => True

/-- Whether `FrameHook` may still complete a context. -/
@[simp] def MainPc.due : MainPc → ℕ
  | .frameTest | .frameLock | .framePop | .frameCompleted _ => 1
  | _ => 0

structure Paced (pre : List Action) (s : State) : Prop where
  limited : s.loop.Limited
  started : s.handed.length + s.loop.budget ≤ maxProcess * pre.count .asyncPerformRequests
  woken : pre.count .asyncPerformRequests + s.performPending.toNat ≤ pre.count .frameHook
  delivered : s.completions.length + s.main.due ≤ pre.count .frameHook

theorem paced_loaded : Paced [] State.loaded := by
  constructor <;> simp [State.loaded]

theorem Caller.resume_due (r : Caller) : r.resume.due = 0 := by
  rcases r with ⟨_ | d, f⟩ <;> rfl

/-- A step of neither `FrameHook` nor `AsyncPerformRequests`, or one that uses nothing up. -/
theorem Paced.keep (h : Paced pre s) (hlimited : s.loop.Limited → t.loop.Limited)
    (hbudget : t.handed.length + t.loop.budget ≤ s.handed.length + s.loop.budget)
    (hpending : t.performPending = s.performPending)
    (hdue : t.completions.length + t.main.due ≤ s.completions.length + s.main.due)
    (hperform : a ≠ .asyncPerformRequests) (hframe : a ≠ .frameHook) : Paced (pre ++ [a]) t := by
  have hperforms : (pre ++ [a]).count .asyncPerformRequests = pre.count .asyncPerformRequests := by
    rw [List.count_append, List.count_singleton, beq_eq_false_iff_ne.mpr hperform]
    rfl
  have hframes : (pre ++ [a]).count .frameHook = pre.count .frameHook := by
    rw [List.count_append, List.count_singleton, beq_eq_false_iff_ne.mpr hframe]
    rfl
  refine ⟨hlimited h.limited, ?_, ?_, ?_⟩
  · rw [hperforms]
    exact hbudget.trans h.started
  · rw [hperforms, hframes, hpending]
    exact h.woken
  · rw [hframes]
    exact hdue.trans h.delivered

theorem step_paced (h : Paced pre s) (ht : step s a = some t) : Paced (pre ++ [a]) t := by
  have hwoken := h.woken
  have hstarted := h.started
  have hdelivered := h.delivered
  cases step_steps ht with
  | frameHook hm =>
    have hlow := Bool.toNat_le (s.performPending || !s.requestQueue.isEmpty)
    refine ⟨h.limited, ?_, ?_, ?_⟩
    · simpa using hstarted
    · simp only [List.count_append, List.count_singleton, reduceCtorEq, beq_iff_eq, if_false,
        beq_self_eq_true, if_true]
      omega
    · simp only [List.count_append, List.count_singleton, beq_self_eq_true, if_true, MainPc.due]
      omega
  | asyncPerformRequests hl hpending =>
    rw [hpending, Bool.toNat_true] at hwoken
    refine ⟨trivial, ?_, ?_, ?_⟩
    · simp only [List.count_append, List.count_singleton, beq_self_eq_true, if_true, LoopPc.budget,
        Nat.mul_add, Nat.mul_one]
      omega
    · simpa using hwoken
    · simpa using hdelivered
  | addHandle c n hl =>
    have hlimited := h.limited
    rw [hl] at hlimited
    refine h.keep (fun _ => trivial) ?_ rfl le_rfl (by simp) (by simp)
    rw [hl]
    simp only [LoopPc.Limited] at hlimited
    simp only [LoopPc.budget, List.length_append, List.length_singleton]
    omega
  | onCompleted c b hm =>
    refine h.keep ?_ ?_ ?_ ?_ (by simp) (by simp)
    all_goals obtain ⟨calls, ⟨-, heq⟩ | ⟨-, heq⟩⟩ := onCompleted_cases s c b
    all_goals simp [heq, hm, State.closeFile]
  | addUnlock r hm =>
    refine h.keep id le_rfl rfl ?_ (by simp) (by simp)
    show s.completions.length + r.resume.due ≤ _
    rw [r.resume_due]
    exact Nat.le_add_right _ _
  | drainTake c q n hl hq hn =>
    exact h.keep (fun _ => hn) (by simp [hl]) rfl le_rfl (by simp) (by simp)
  | initSucceeds c n o hl ho | initFails c n o hl ho =>
    exact h.keep (by simp [hl]) (by simp [hl]) rfl le_rfl (by simp) (by simp)
  | drainDelete c n hl =>
    exact h.keep (fun _ => trivial) (by simp [hl, State.destroy]) rfl le_rfl (by simp) (by simp)
  | drainLock hl hfree | drainDone n hl hdone =>
    exact h.keep (fun _ => trivial) (by simp [hl]) rfl le_rfl (by simp) (by simp)
  | frameDelete c hm => exact h.keep id le_rfl rfl (by simp [State.destroy]) (by simp) (by simp)
  | _ => exact h.keep (by simp [*]) (by simp [*]) rfl (by simp [*]) (by simp) (by simp)

/-- The limiter of the source, "per tick": after any run, ten requests at most were handed to curl,
one context at most was completed and one callback at most was run for each `FrameHook`. -/
theorem paced_by_frames {as : List Action} (h : machine.run State.loaded as = some s) :
    s.handed.length ≤ maxProcess * as.count .frameHook ∧
      s.completions.length ≤ as.count .frameHook ∧ s.executed.length ≤ as.count .frameHook := by
  have hcalled := (reachable_called ⟨as, h⟩).length_le
  rw [State.called, List.length_map] at hcalled
  have hpaced : Paced as s :=
    System.run_history (M := machine) paced_loaded (fun pre a t u _ _ hI hu => step_paced hI hu)
      List.prefix_rfl h
  have hcompleted := (Nat.le_add_right _ _).trans hpaced.delivered
  refine ⟨?_, hcompleted, hcalled.trans hcompleted⟩
  calc s.handed.length ≤ maxProcess * as.count .asyncPerformRequests :=
        (Nat.le_add_right _ _).trans hpaced.started
    _ ≤ maxProcess * as.count .frameHook :=
      Nat.mul_le_mul_left _ ((Nat.le_add_right _ _).trans hpaced.woken)

theorem crossedRun_paced : ∃ s, machine.run State.loaded crossedRun = some s ∧
    s.handed.length = 2 ∧ s.handed.length ≤ maxProcess * crossedRun.count .frameHook ∧
    s.completions.length ≤ crossedRun.count .frameHook ∧
    s.executed.length ≤ crossedRun.count .frameHook :=
  ⟨_, rfl, rfl, paced_by_frames rfl⟩

end Pace

end RipExt
