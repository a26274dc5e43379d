import RipExt.Pipeline.Conservation

/-! What happens to a context whose `InitCurl` fails: `AsyncPerformRequests` deletes it on
the loop thread, without `OnCompleted`. Both promises this breaks, that the plugin hears of
every request and that only the game thread enters the SourceMod API, hold along exactly
those runs in which this does not happen. -/
namespace RipExt

/-- The context whose `InitCurl` has just failed and that is about to be deleted. -/
def LoopPc.failed : LoopPc → Option Context
  | .drainDelete c _ => some c
  | _ => none

@[simp] theorem LoopPc.failed_drainDelete (c : Context) (n : ℕ) :
    (LoopPc.drainDelete c n).failed = some c := rfl

/-- This step runs `InitCurl` and it returns false: `curl_easy_init` or, for a file context,
`fopen` gave a null pointer. -/
def State.initCurlFails (s : State) : Action → Bool
  | .initCurl o =>
    match s.loop with
    | .drainInit c _ => !(c.initCurl o).1
    | _ => false
  | _ => false

def InitCurlSucceeds (s : State) (a : Action) : Prop := s.initCurlFails a = false

instance (s : State) (a : Action) : Decidable (InitCurlSucceeds s a) :=
  inferInstanceAs (Decidable (_ = _))

/-- What one step does to callbacks, deletions and API calls. -/
inductive Effect (s : State) (a : Action) (t : State) : Prop
  | quiet (calls : List ApiCall)
      (hcalls : t.apiCalls = s.apiCalls ++ calls.map (Thread.main, ·))
      (hdeleted : t.deleted = s.deleted) (hexecuted : t.executed = s.executed)
      (hcompletions : t.completions = s.completions) (hemptied : s.emptied ⊆ t.emptied)
      (hdelivering : t.main.delivering ⊆ s.main.delivering)
      (hfailed : t.loop.failed = s.loop.failed) (hinit : InitCurlSucceeds s a)
  | initFails (hs : s.loop.failed = none) (ht : t.loop.failed ≠ none)
      (hcalls : t.apiCalls = s.apiCalls) (hdeleted : t.deleted = s.deleted)
      (hexecuted : t.executed = s.executed) (hcompletions : t.completions = s.completions)
      (hemptied : t.emptied = s.emptied) (hmain : t.main = s.main)
      (hinit : ¬InitCurlSucceeds s a)
  | completes (b : Bool) (c : Context) (ha : a = .onCompleted b) (hs : s.main = .frameCompleted c)
      (ht : t = s.onCompleted c b)
  | delivers (c : Context) (ha : a = .frameDelete) (hs : s.main = .frameDelete c)
      (ht : t = { s.destroy .main c with main := .frameUnlock })
  | drops (c : Context) (n : ℕ) (ha : a = .drainDelete) (hs : s.loop = .drainDelete c n)
      (ht : t = { s.destroy .loop c with loop := .drainTest n })

/-- A step whose statement neither calls the API nor touches the history. -/
theorem Effect.keep {s t : State} {a : Action} (hcalls : t.apiCalls = s.apiCalls)
    (hdeleted : t.deleted = s.deleted) (hexecuted : t.executed = s.executed)
    (hcompletions : t.completions = s.completions) (hemptied : s.emptied ⊆ t.emptied)
    (hdelivering : t.main.delivering ⊆ s.main.delivering)
    (hfailed : t.loop.failed = s.loop.failed) (hinit : InitCurlSucceeds s a) : Effect s a t :=
  .quiet [] (by simpa using hcalls) hdeleted hexecuted hcompletions hemptied hdelivering
    hfailed hinit

theorem step_effect {s t : State} {a : Action} (h : step s a = some t) : Effect s a t := by
  have hkeep {l : LoopPc} {t : State} {a : Action} (hl : s.loop = l) (hs : l.failed = none)
      (ht : t.loop.failed = none) (hmain : t.main = s.main) (hcalls : t.apiCalls = s.apiCalls)
      (hdeleted : t.deleted = s.deleted) (hexecuted : t.executed = s.executed)
      (hcompletions : t.completions = s.completions) (hemptied : t.emptied = s.emptied)
      (hinit : InitCurlSucceeds s a) : Effect s a t :=
    .keep hcalls hdeleted hexecuted hcompletions (by rw [hemptied]; exact fun _ => id)
      (by rw [hmain]; exact fun _ => id) (by rw [ht, hl, hs]) hinit
  cases step_steps h with
  | noForward k v r hm =>
    exact .quiet [.createForwardEx] rfl rfl rfl rfl (fun _ => id) (fun _ => id) rfl rfl
  | addFunctionFails k v r hm =>
    exact .quiet [.createForwardEx, .addFunction] rfl rfl rfl rfl (fun _ => id) (fun _ => id) rfl rfl
  | created k v r hm =>
    refine .quiet [.createForwardEx, .addFunction] rfl rfl rfl rfl (fun _ => id) ?_ rfl rfl
    rcases r with ⟨_ | d, f⟩ <;> simp [hm, Caller.resume]
  | addLock c r hm | addPush c r hm =>
    exact .keep rfl rfl rfl rfl (fun _ => id) (by simp [hm]) rfl rfl
  | addUnlock r hm =>
    rcases r with ⟨_ | d, f⟩
    all_goals
      refine .quiet (if f then [.freeHandle] else []) ?_ rfl rfl rfl (fun _ => id)
        (by simp [hm, Caller.resume]) rfl rfl
      cases f <;> rfl
  | frameHook | frameEmpty | frameFull | frameLock | framePop | frameUnlock | unload | joinThread
  | closeLoop | cleanupMulti | removeTypes =>
    exact .keep rfl rfl rfl rfl (fun _ => id) (List.nil_subset _) rfl rfl
  | onCompleted c b hm => exact .completes b c rfl hm rfl
  | callbackReturns c hm =>
    refine .quiet (if c.isFile then [] else [.freeHandle, .freeHandle]) ?_ rfl rfl rfl
      (fun _ => id) (by simp [hm]) rfl rfl
    cases c.isFile <;> rfl
  | frameDelete c hm => exact .delivers c rfl hm rfl
  | removeFunction i hm =>
    exact .keep rfl rfl rfl rfl (List.subset_cons_self i _) (fun _ => id) rfl rfl
  | initSucceeds c n o hl ho =>
    refine hkeep hl rfl rfl rfl rfl rfl rfl rfl rfl ?_
    simpa [InitCurlSucceeds, State.initCurlFails, hl] using ho
  | initFails c n o hl ho =>
    refine .initFails (by rw [hl]; rfl) (Option.some_ne_none c) rfl rfl rfl rfl rfl rfl ?_
    simpa [InitCurlSucceeds, State.initCurlFails, hl] using ho
  | drainDelete c n hl => exact .drops c n rfl hl rfl
  | loopExit hl | asyncPerformRequests hl | drainLock hl | drainTake _ _ _ hl | drainDone _ hl
  | addHandle _ _ hl | drainUnlock hl | performRequests hl | socketActivity _ hl
  | socketActionReturns hl | noMessage hl | takeMessage _ _ hl | removeHandle _ hl | checkLock _ hl
  | checkPush _ hl | checkUnlock hl =>
    exact hkeep hl rfl rfl rfl rfl rfl rfl rfl rfl rfl
  | _ => exact .keep rfl rfl rfl rfl (fun _ => id) (fun _ => id) rfl rfl

/-- Every call so far into the forward and handle systems was made by the game thread. -/
def MainOnly (s : State) : Prop := ∀ p ∈ s.apiCalls, p.1 = .main

/-- The calls of `OnCompleted` are the game thread's. -/
theorem onCompleted_apiCalls (s : State) (c : Context) (b : Bool) :
    ∃ calls, (s.onCompleted c b).apiCalls = s.apiCalls ++ List.map (Thread.main, ·) calls := by
  obtain ⟨calls, ⟨-, heq⟩ | ⟨-, heq⟩⟩ := onCompleted_cases s c b
  all_goals exact ⟨calls, by rw [heq]⟩

/-- The loop thread has entered the API, or its next statement will. -/
def Strayed (s : State) : Prop := ¬MainOnly s ∨ s.loop.failed ≠ none

theorem mainOnly_append (s t : State) (calls : List ApiCall)
    (h : t.apiCalls = s.apiCalls ++ calls.map (Thread.main, ·)) : MainOnly t ↔ MainOnly s := by
  unfold MainOnly
  rw [h]
  constructor
  · intro ht p hp
    exact ht p (List.mem_append_left _ hp)
  · intro hs p hp
    rcases List.mem_append.mp hp with hp | hp
    · exact hs p hp
    · obtain ⟨c, -, rfl⟩ := List.mem_map.mp hp
      rfl

/-- The loop thread strays into the API exactly in the step in which `InitCurl` fails. -/
theorem step_strayed {s t : State} {a : Action} (h : step s a = some t) :
    Strayed t ↔ Strayed s ∨ ¬InitCurlSucceeds s a := by
  unfold Strayed
  cases step_effect h with
  | quiet calls hcalls _ _ _ _ _ hfailed hinit =>
    rw [mainOnly_append s t calls hcalls, hfailed]
    tauto
  | initFails _ ht _ _ _ _ _ _ hinit => tauto
  | completes b c ha hs ht =>
    subst ha ht
    obtain ⟨calls, hcalls⟩ := onCompleted_apiCalls s c b
    rw [mainOnly_append s _ calls hcalls, (onCompleted_completes s c b).loop]
    have hinit : InitCurlSucceeds s (.onCompleted b) := rfl
    tauto
  | delivers c ha hs ht =>
    subst ha ht
    rw [mainOnly_append s _ [.releaseForward] rfl]
    have hinit : InitCurlSucceeds s .frameDelete := rfl
    simp [State.destroy, hinit]
  | drops c n ha hs ht =>
    subst ha ht
    have hcall : ¬MainOnly { s.destroy .loop c with loop := .drainTest n } := by
      intro hm
      have hl := hm (.loop, .releaseForward) (by simp [State.destroy])
      cases hl
    simp [hs, hcall]

/-- `delete context` on the loop thread. -/
theorem step_drainDelete {s t : State} :
    step s .drainDelete = some t ↔
      ∃ c n, s.loop = .drainDelete c n ∧ t = { s.destroy .loop c with loop := .drainTest n } := by
  rw [step_iff]
  constructor
  · intro h
    cases h with
    | drainDelete c n hl => exact ⟨c, n, hl, rfl⟩
  · rintro ⟨c, n, hl, rfl⟩
    exact .drainDelete c n hl

/-- Along a run, and in the `delete context` that the loop thread may still owe after it,
only the game thread enters the forward and handle systems if and only if every `InitCurl`
of the run succeeded. -/
theorem mainOnly_iff_initCurlSucceeds {as : List Action} {u : State}
    (hr : machine.run State.loaded as = some u) :
    (∀ t, machine.Visits State.loaded as t ∨ step u .drainDelete = some t → MainOnly t) ↔
      machine.Along InitCurlSucceeds State.loaded as := by
  have hloaded : ¬Strayed State.loaded := by simp [Strayed, MainOnly, State.loaded, LoopPc.failed]
  have hiff : (∀ t, machine.Visits State.loaded as t → ¬Strayed t) ↔
      machine.Along InitCurlSucceeds State.loaded as := by
    apply Transition.System.visits_iff_along (I := fun _ => True)
      (A := fun _ _ => True) (Q := fun s => ¬Strayed s) (fun _ _ _ _ _ _ => trivial) _ trivial
      hloaded Transition.System.along_true hr
    intro s a t _ _ hs ht
    have := step_strayed ht
    tauto
  rw [← hiff]
  constructor
  · intro hall t hv hstrayed
    obtain ⟨bs, hb⟩ := hv.exists_run hr
    have hu : Strayed u := Transition.System.run_invariant (I := Strayed)
      (fun s a t hs _ ht => (step_strayed ht).mpr (.inl hs)) hstrayed
      Transition.System.along_true hb
    rcases hu with hu | hu
    · exact hu (hall u (.inl (Transition.System.visits_last hr)))
    · cases hl : u.loop with
      | drainDelete c n =>
        have hmain := hall _ (.inr (step_drainDelete.mpr ⟨c, n, hl, rfl⟩))
        have hcall := hmain (.loop, .releaseForward) (by simp [State.destroy])
        cases hcall
      | _ => simp [hl, LoopPc.failed] at hu
  · intro hall t ht
    rcases ht with hv | ht
    · by_contra hm
      exact hall t hv (.inl hm)
    · obtain ⟨c, n, hl, -⟩ := step_drainDelete.mp ht
      have hu := hall u (Transition.System.visits_last hr)
      exact absurd (.inr (by simp [hl])) hu

/-- A download whose file cannot be opened. -/
def unopenableRun : List Action :=
  [.native .created (.file false) 7 true, .addLock, .addPush, .addUnlock, .frameHook, .frameTest,
    .asyncPerformRequests, .drainLock, .drainTest, .initCurl ⟨true, false⟩, .drainDelete]

/-- A download whose file is opened and handed to curl. -/
def openedRun : List Action :=
  [.native .created (.file false) 7 true, .addLock, .addPush, .addUnlock, .frameHook, .frameTest,
    .asyncPerformRequests, .drainLock, .drainTest, .initCurl ⟨true, true⟩, .addHandle]

theorem openedRun_mainOnly : ∃ s, machine.run State.loaded openedRun = some s ∧
    ∀ t, machine.Visits State.loaded openedRun t ∨ step s .drainDelete = some t → MainOnly t :=
  ⟨_, rfl, (mainOnly_iff_initCurlSucceeds rfl).mpr (by decide)⟩

theorem unopenableRun_releases_on_loop :
    ∃ s, machine.run State.loaded unopenableRun = some s ∧
      (.loop, .releaseForward) ∈ s.apiCalls ∧ ¬MainOnly s := by
  refine ⟨_, rfl, by decide, fun h => ?_⟩
  have := h (.loop, .releaseForward) (by decide)
  cases this

namespace State

/-- The forward of `c` was executed exactly once, with the plugin's value. -/
def CalledBack (s : State) (c : Context) : Prop :=
  ∃ e, s.executed.filter (fun e => e.context = c) = [e] ∧ e.value = c.value

/-- Every context deleted so far had its callback, or no function left to call. -/
def NoSilentEnd (s : State) : Prop :=
  ∀ d ∈ s.deleted, d.functionCount = 0 ∨ s.CalledBack d.context

end State

/-- Callbacks run inside `OnCompleted` only, and a context that `FrameHook` is about to delete
has had its own. -/
structure Heard (s : State) : Prop where
  executed : ∀ e ∈ s.executed, e.context ∈ s.completions
  delivering : ∀ c ∈ s.main.delivering, s.functionCount c = 0 ∨ s.CalledBack c

theorem Heard.filter_eq_nil {s : State} (hs : Heard s) {c : Context} (hc : c ∉ s.completions) :
    s.executed.filter (fun e => e.context = c) = [] := by
  apply List.filter_eq_nil_iff.mpr
  intro e he hce
  simp only [decide_eq_true_eq] at hce
  exact hc (hce ▸ hs.executed e he)

theorem functionCount_eq_zero_of_subset {s t : State} {c : Context} (h : s.emptied ⊆ t.emptied)
    (hc : s.functionCount c = 0) : t.functionCount c = 0 := by
  unfold State.functionCount at hc ⊢
  by_cases hmem : c.id ∈ s.emptied
  · simp [h hmem]
  · simp [hmem] at hc

/-- A step that runs no callback and completes nothing. -/
theorem Heard.keep {s t : State} (hs : Heard s) (hexecuted : t.executed = s.executed)
    (hcompletions : t.completions = s.completions) (hemptied : s.emptied ⊆ t.emptied)
    (hdelivering : t.main.delivering ⊆ s.main.delivering) : Heard t := by
  constructor
  · rw [hexecuted, hcompletions]
    exact hs.executed
  · intro c hc
    rcases hs.delivering c (hdelivering hc) with h | h
    · exact .inl (functionCount_eq_zero_of_subset hemptied h)
    · right
      unfold State.CalledBack
      rw [hexecuted]
      exact h

/-- `OnCompleted` runs the callback of `c` once, unless the forward is empty or the response
handle cannot be created. -/
theorem onCompleted_executed (s : State) (c : Context) (b : Bool) :
    ((s.onCompleted c b).executed = s.executed ∧ (s.functionCount c = 0 ∨ b = false)) ∨
      ∃ e, (s.onCompleted c b).executed = s.executed ++ [e] ∧ e.context = c ∧
        e.value = c.value := by
  obtain ⟨calls, ⟨hsilent, heq⟩ | ⟨-, heq⟩⟩ := onCompleted_cases s c b
  · rw [heq]
    exact .inl ⟨rfl, hsilent.imp_right And.right⟩
  · rw [heq]
    exact .inr ⟨_, rfl, rfl, rfl⟩

theorem Completes.delivering {s t : State} {c : Context} (h : Completes s c t) :
    t.main.delivering = [c] := by
  rcases h.main with hm | hm <;> rw [hm] <;> rfl

theorem Heard.onCompleted {s : State} (hs : Heard s) {c : Context} (hc : c ∉ s.completions)
    {b : Bool} (hb : b ≠ false) : Heard (s.onCompleted c b) := by
  have hcompletes := onCompleted_completes s c b
  have hcompletions := hcompletes.completions
  have hdelivering := hcompletes.delivering
  rcases onCompleted_executed s c b with ⟨hexecuted, hcount⟩ | ⟨e, hexecuted, he, hv⟩
  · constructor
    · intro e he
      rw [hexecuted] at he
      rw [hcompletions]
      exact List.mem_append_left _ (hs.executed e he)
    · intro d hd
      rw [hdelivering, List.mem_singleton] at hd
      subst hd
      left
      exact functionCount_eq_zero_of_subset (by rw [hcompletes.emptied]; exact fun _ => id)
        (hcount.resolve_right hb)
  · constructor
    · intro f hf
      rw [hexecuted, List.mem_append, List.mem_singleton] at hf
      rw [hcompletions]
      rcases hf with hf | rfl
      · exact List.mem_append_left _ (hs.executed f hf)
      · simp [he]
    · intro d hd
      rw [hdelivering, List.mem_singleton] at hd
      subst hd
      right
      refine ⟨e, ?_, hv⟩
      rw [hexecuted, List.filter_append, hs.filter_eq_nil hc]
      simp [he]

/-- Creating the response handle succeeds. -/
def HandleCreated (_ : State) (a : Action) : Prop := a ≠ .onCompleted false

instance (s : State) (a : Action) : Decidable (HandleCreated s a) :=
  inferInstanceAs (Decidable (_ ≠ _))

/-- The loop thread deletes no context whose forward still has its function. -/
def DropsNoFunction (s : State) (a : Action) : Prop :=
  a = .drainDelete → ∀ c ∈ s.loop.failed, s.functionCount c = 0

theorem step_heard {s t : State} {a : Action} (hreach : machine.Reachable s) (hs : Heard s)
    (ha : HandleCreated s a) (h : step s a = some t) : Heard t := by
  cases step_effect h with
  | quiet _ _ _ hexecuted hcompletions hemptied hdelivering =>
    exact hs.keep hexecuted hcompletions hemptied hdelivering
  | initFails _ _ _ _ hexecuted hcompletions hemptied hmain =>
    exact hs.keep hexecuted hcompletions (by rw [hemptied]; exact fun _ => id)
      (by rw [hmain]; exact fun _ => id)
  | completes b c hb hm ht =>
    subst ht
    have hpopped := popped_untouched hreach (c := c) (by simp [hm])
    apply hs.onCompleted hpopped.1
    rintro rfl
    exact ha hb
  | delivers c _ hm ht =>
    subst ht
    exact hs.keep rfl rfl (fun _ => id) (by simp)
  | drops c n _ hl ht =>
    subst ht
    exact hs.keep rfl rfl (fun _ => id) (fun _ => id)

/-- The callbacks of contexts already deleted are not run again. -/
theorem NoSilentEnd.onCompleted {s : State} (hs : s.NoSilentEnd) {c : Context}
    (hc : c ∉ s.destroyed) (b : Bool) : (s.onCompleted c b).NoSilentEnd := by
  have hdeleted := (onCompleted_completes s c b).deleted
  intro d hd
  rw [hdeleted] at hd
  have hne : c ≠ d.context := by
    rintro rfl
    exact hc (List.mem_map_of_mem hd)
  rcases hs d hd with h | ⟨e, he, hv⟩
  · exact .inl h
  · right
    rcases onCompleted_executed s c b with ⟨hexecuted, -⟩ | ⟨f, hexecuted, hf, -⟩
    · exact ⟨e, by rw [hexecuted]; exact he, hv⟩
    · refine ⟨e, ?_, hv⟩
      rw [hexecuted, List.filter_append, he]
      simp [hf, hne]

/-- Deleting one more context keeps the promise exactly if it holds of that context. -/
theorem noSilentEnd_append {s t : State} {d : Deletion} (hdeleted : t.deleted = s.deleted ++ [d])
    (hexecuted : t.executed = s.executed) (hs : s.NoSilentEnd) :
    t.NoSilentEnd ↔ d.functionCount = 0 ∨ s.CalledBack d.context := by
  unfold State.NoSilentEnd State.CalledBack
  rw [hdeleted, hexecuted]
  constructor
  · intro h
    exact h d (by simp)
  · intro h e he
    rcases List.mem_append.mp he with he | he
    · exact hs e he
    · rw [List.mem_singleton] at he
      subst he
      exact h

theorem noSilentEnd_keep {s t : State} (hdeleted : t.deleted = s.deleted)
    (hexecuted : t.executed = s.executed) (hs : s.NoSilentEnd) : t.NoSilentEnd := by
  unfold State.NoSilentEnd State.CalledBack
  rw [hdeleted, hexecuted]
  exact hs

theorem step_noSilentEnd {s t : State} {a : Action} (hreach : machine.Reachable s)
    (hheard : Heard s) (hs : s.NoSilentEnd) (h : step s a = some t) :
    t.NoSilentEnd ↔ DropsNoFunction s a := by
  by_cases ha : a = .drainDelete
  · subst ha
    obtain ⟨c, n, hl, rfl⟩ := step_drainDelete.mp h
    have hnone : ¬s.CalledBack c := by
      rintro ⟨e, he, -⟩
      rw [hheard.filter_eq_nil (taken_not_completed hreach (by simp [hl]))] at he
      cases he
    have happend := noSilentEnd_append (t := { s.destroy .loop c with loop := .drainTest n })
      (d := ⟨c, .loop, s.functionCount c⟩) rfl rfl hs
    rw [happend]
    simp [DropsNoFunction, hl, hnone]
  · have hkeeps : DropsNoFunction s a := fun h => absurd h ha
    refine ⟨fun _ => hkeeps, fun _ => ?_⟩
    cases step_effect h with
    | quiet _ _ hdeleted hexecuted => exact noSilentEnd_keep hdeleted hexecuted hs
    | initFails _ _ _ hdeleted hexecuted => exact noSilentEnd_keep hdeleted hexecuted hs
    | completes b c _ hm ht =>
      subst ht
      exact NoSilentEnd.onCompleted hs (popped_untouched hreach (c := c) (by simp [hm])).2 b
    | delivers c _ hm ht =>
      have happend := noSilentEnd_append (t := t) (d := ⟨c, .main, s.functionCount c⟩)
        (by rw [ht]; rfl) (by rw [ht]; rfl) hs
      exact happend.mpr (hheard.delivering c (by simp [hm]))
    | drops _ _ hdrain => exact absurd hdrain ha

/-- If every `InitCurl` succeeds, no context is ever deleted on the loop thread. -/
theorem dropsNoFunction_of_initCurlSucceeds {s : State} {as : List Action}
    (hs : s.loop.failed = none) (h : machine.Along InitCurlSucceeds s as) :
    machine.Along DropsNoFunction s as := by
  induction as generalizing s with
  | nil => trivial
  | cons a as ih =>
    refine ⟨fun _ c hc => by simp [hs] at hc, fun t ht => ih ?_ (h.2 t ht)⟩
    cases step_effect ht with
    | quiet _ _ _ _ _ _ _ hfailed => rw [hfailed, hs]
    | initFails _ _ _ _ _ _ _ _ hinit => exact absurd h.1 hinit
    | completes b c _ _ ht =>
      subst ht
      rw [(onCompleted_completes s c b).loop, hs]
    | delivers c _ _ ht =>
      subst ht
      exact hs
    | drops c n _ hl => simp [hl] at hs

/-- Provided response handles can be created, no request ends silently along a run if and only
if no context whose `InitCurl` failed is deleted while its forward has a function; in
particular if every `InitCurl` succeeds. -/
theorem noSilentEnd_iff_dropsNoFunction {as : List Action} {u : State}
    (hr : machine.run State.loaded as = some u)
    (hcreated : machine.Along HandleCreated State.loaded as) :
    ((∀ t, machine.Visits State.loaded as t → t.NoSilentEnd) ↔
        machine.Along DropsNoFunction State.loaded as) ∧
      (machine.Along InitCurlSucceeds State.loaded as →
        ∀ t, machine.Visits State.loaded as t → t.NoSilentEnd) := by
  have hloaded : Heard State.loaded := by constructor <;> simp [State.loaded]
  have hiff : (∀ t, machine.Visits State.loaded as t → t.NoSilentEnd) ↔
      machine.Along DropsNoFunction State.loaded as := by
    apply Transition.System.visits_iff_along (I := fun s => machine.Reachable s ∧ Heard s)
      (A := HandleCreated) _ _ ⟨⟨[], rfl⟩, hloaded⟩ _ hcreated hr
    · rintro s a t ⟨hreach, hs⟩ ha ht
      exact ⟨hreach.step ht, step_heard hreach hs ha ht⟩
    · rintro s a t ⟨hreach, hs⟩ - hq ht
      exact step_noSilentEnd hreach hs hq ht
    · intro d hd
      cases hd
  exact ⟨hiff, fun h => hiff.mpr (dropsNoFunction_of_initCurlSucceeds rfl h)⟩

/-- An upload that is sent and whose callback runs. -/
def uploadedRun : List Action :=
  [.native .created (.file true) 7 true, .addLock, .addPush, .addUnlock, .frameHook, .frameTest,
    .asyncPerformRequests, .drainLock, .drainTest, .initCurl ⟨true, true⟩, .timeoutCallback 0,
    .addHandle, .drainTest, .drainUnlock, .performRequests,
    .transferDone ⟨0, .file true, 7⟩ ⟨201, ""⟩, .socketActionReturns, .readMessage, .removeHandle,
    .checkLock, .checkPush, .checkUnlock, .readMessage, .frameHook, .frameTest, .frameLock,
    .framePop, .onCompleted true, .callbackReturns, .frameDelete]

theorem uploadedRun_noSilentEnd : ∃ s, machine.run State.loaded uploadedRun = some s ∧
    s.executed = [⟨⟨0, .file true, 7⟩, 201, 7, ""⟩] ∧ s.deleted.length = 1 ∧
    ∀ t, machine.Visits State.loaded uploadedRun t → t.NoSilentEnd :=
  ⟨_, rfl, rfl, rfl, (noSilentEnd_iff_dropsNoFunction rfl (by decide)).2 (by decide)⟩

/-- An upload whose file cannot be opened. -/
def unreadableRun : List Action :=
  [.native .created (.file true) 7 true, .addLock, .addPush, .addUnlock, .frameHook, .frameTest,
    .asyncPerformRequests, .drainLock, .drainTest, .initCurl ⟨true, false⟩, .drainDelete]

theorem unreadableRun_ends_silently : ∃ s, machine.run State.loaded unreadableRun = some s ∧
    machine.Along HandleCreated State.loaded unreadableRun ∧ s.executed = [] ∧
    s.deleted = [⟨⟨0, .file true, 7⟩, .loop, 1⟩] ∧ ¬s.NoSilentEnd := by
  refine ⟨_, rfl, by decide, rfl, rfl, fun h => ?_⟩
  rcases h ⟨⟨0, .file true, 7⟩, .loop, 1⟩ (by decide) with h | ⟨e, he, -⟩
  · cases h
  · cases he

end RipExt
