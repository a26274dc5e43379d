import RipExt.Foundation.LockOrder
import RipExt.Pipeline.Steps

/-! The two mutexes. The program counters determine who holds which lock and in which
function; the game thread takes the request lock inside the completed lock, never the other
way round, so the completed lock ranks first. -/
namespace RipExt

/-- The mutexes the game thread holds at a statement. A native called from a callback runs
inside the locked section of `FrameHook`. -/
def MainPc.owns : MainPc → Mutex → Option Owner
  | .addPush _ _, .requestQueue | .addUnlock _, .requestQueue => some (.main, .addRequestToQueue)
  | .addLock _ r, .completedRequestQueue | .addPush _ r, .completedRequestQueue
  | .addUnlock r, .completedRequestQueue => r.callback.map fun _ => (.main, .frameHook)
  | .framePop, .completedRequestQueue | .frameCompleted _, .completedRequestQueue
  | .frameCallback _, .completedRequestQueue | .frameDelete _, .completedRequestQueue
  | .frameUnlock, .completedRequestQueue => some (.main, .frameHook)
  | _, _ => none

/-- The mutexes the loop thread holds at a statement. -/
def LoopPc.owns : LoopPc → Mutex → Option Owner
  | .drainTest _, .requestQueue | .drainInit _ _, .requestQueue | .drainDelete _ _, .requestQueue
  | .drainAdd _ _, .requestQueue | .drainUnlock, .requestQueue =>
    some (.loop, .asyncPerformRequests)
  | .checkPush _, .completedRequestQueue | .checkUnlock, .completedRequestQueue =>
    some (.loop, .checkCompletedRequests)
  | _, _ => none

/-- The mutex a thread is about to lock. -/
def MainPc.wants : MainPc → Option Mutex
  | .addLock _ _ => some .requestQueue
  | .frameLock => some .completedRequestQueue
  | _ => none

def LoopPc.wants : LoopPc → Option Mutex
  | .drainLock => some .requestQueue
  | .checkLock _ => some .completedRequestQueue
  | _ => none

namespace State

def owner (s : State) : Mutex → Option Owner
  | .requestQueue => s.requestOwner
  | .completedRequestQueue => s.completedOwner

def wants (s : State) : Thread → Option Mutex
  | .main => s.main.wants
  | .loop => s.loop.wants

def owns (s : State) : Thread → Mutex → Option Owner
  | .main => s.main.owns
  | .loop => s.loop.owns

end State

/-- Each mutex is held exactly by the thread whose program counter is inside the section. -/
structure Locked (s : State) : Prop where
  owner : ∀ m, s.owner m = (s.main.owns m).or (s.loop.owns m)
  exclusive : ∀ m, s.main.owns m = none ∨ s.loop.owns m = none

theorem Locked.free {s : State} (hs : Locked s) {m : Mutex} (h : s.owner m = none) :
    s.main.owns m = none ∧ s.loop.owns m = none := by
  rw [hs.owner m] at h
  simpa using h

theorem Locked.loop_free {s : State} (hs : Locked s) {m : Mutex} {o : Owner}
    (h : s.main.owns m = some o) : s.loop.owns m = none := by
  simpa [h] using hs.exclusive m

theorem Locked.main_free {s : State} (hs : Locked s) {m : Mutex} {o : Owner}
    (h : s.loop.owns m = some o) : s.main.owns m = none := by
  simpa [h] using hs.exclusive m

/-- A step that neither locks nor unlocks. -/
theorem Locked.keep {s t : State} (hs : Locked s) (ho : t.owner = s.owner)
    (hm : t.main.owns = s.main.owns) (hl : t.loop.owns = s.loop.owns) : Locked t := by
  constructor <;> intro m
  · rw [ho, hm, hl, hs.owner m]
  · rw [hm, hl]
    exact hs.exclusive m

/-- The game thread locks or unlocks `m`. -/
theorem Locked.mainSets {s t : State} (hs : Locked s) (m : Mutex) (v : Option Owner)
    (hfree : s.loop.owns m = none) (ho : t.owner = Function.update s.owner m v)
    (hm : t.main.owns = Function.update s.main.owns m v) (hl : t.loop.owns = s.loop.owns) :
    Locked t := by
  constructor <;> intro k
  · rw [ho, hm, hl]
    by_cases hk : k = m
    · subst hk
      simp [hfree]
    · simp only [Function.update_of_ne hk, hs.owner k]
  · rw [hm, hl]
    by_cases hk : k = m
    · exact .inr (hk ▸ hfree)
    · simpa only [Function.update_of_ne hk] using hs.exclusive k

/-- The loop thread locks or unlocks `m`. -/
theorem Locked.loopSets {s t : State} (hs : Locked s) (m : Mutex) (v : Option Owner)
    (hfree : s.main.owns m = none) (ho : t.owner = Function.update s.owner m v)
    (hm : t.main.owns = s.main.owns) (hl : t.loop.owns = Function.update s.loop.owns m v) :
    Locked t := by
  constructor <;> intro k
  · rw [ho, hm, hl]
    by_cases hk : k = m
    · subst hk
      simp [hfree]
    · simp only [Function.update_of_ne hk, hs.owner k]
  · rw [hm, hl]
    by_cases hk : k = m
    · exact .inl (hk ▸ hfree)
    · simpa only [Function.update_of_ne hk] using hs.exclusive k

theorem locked_loaded : Locked State.loaded := by
  constructor <;> intro m <;> cases m <;> simp [State.loaded, State.owner, MainPc.owns, LoopPc.owns]

theorem step_locked {s t : State} {a : Action} (hs : Locked s) (h : step s a = some t) :
    Locked t := by
  cases step_steps h with
  | created k v r hm =>
    refine hs.keep rfl ?_ rfl
    rw [hm]
    funext m
    rcases r with ⟨_ | d, f⟩ <;> cases m <;> rfl
  | addLock c r hm hfree =>
    refine hs.mainSets .requestQueue (some (.main, .addRequestToQueue))
      (hs.free (m := .requestQueue) hfree).2 ?_ ?_ rfl
    · funext m
      cases m <;> rfl
    · rw [hm]
      funext m
      cases m <;> rfl
  | addUnlock r hm =>
    refine hs.mainSets .requestQueue none (hs.loop_free (by rw [hm]; rfl)) ?_ ?_ rfl
    · funext m
      cases m <;> rfl
    · rw [hm]
      funext m
      rcases r with ⟨_ | d, f⟩ <;> cases m <;> rfl
  | frameLock hm hfree =>
    refine hs.mainSets .completedRequestQueue (some (.main, .frameHook))
      (hs.free (m := .completedRequestQueue) hfree).2 ?_ ?_ rfl
    · funext m
      cases m <;> rfl
    · rw [hm]
      funext m
      cases m <;> rfl
  | frameUnlock hm =>
    refine hs.mainSets .completedRequestQueue none (hs.loop_free (by rw [hm]; rfl)) ?_ ?_ rfl
    · funext m
      cases m <;> rfl
    · rw [hm]
      funext m
      cases m <;> rfl
  | drainLock hl hfree =>
    refine hs.loopSets .requestQueue (some (.loop, .asyncPerformRequests))
      (hs.free (m := .requestQueue) hfree).1 ?_ rfl ?_
    · funext m
      cases m <;> rfl
    · rw [hl]
      funext m
      cases m <;> rfl
  | drainUnlock hl =>
    refine hs.loopSets .requestQueue none (hs.main_free (by rw [hl]; rfl)) ?_ rfl ?_
    · funext m
      cases m <;> rfl
    · rw [hl]
      funext m
      cases m <;> rfl
  | checkLock c hl hfree =>
    refine hs.loopSets .completedRequestQueue (some (.loop, .checkCompletedRequests))
      (hs.free (m := .completedRequestQueue) hfree).1 ?_ rfl ?_
    · funext m
      cases m <;> rfl
    · rw [hl]
      funext m
      cases m <;> rfl
  | checkUnlock hl =>
    refine hs.loopSets .completedRequestQueue none (hs.main_free (by rw [hl]; rfl)) ?_ rfl ?_
    · funext m
      cases m <;> rfl
    · rw [hl]
      funext m
      cases m <;> rfl
  | onCompleted c b hm =>
    obtain ⟨calls, ⟨-, heq⟩ | ⟨-, heq⟩⟩ := onCompleted_cases s c b
    all_goals
      rw [heq]
      exact hs.keep rfl (by rw [hm]; funext m; cases m <;> rfl) rfl
  | addPush _ _ hm | frameHook hm | frameEmpty hm | frameFull hm | framePop _ _ hm
  | callbackReturns _ hm | frameDelete _ hm | unload hm | joinThread hm | closeLoop hm
  | cleanupMulti hm | removeTypes hm =>
    exact hs.keep rfl (by rw [hm]; funext m; cases m <;> rfl) rfl
  | loopExit hl | asyncPerformRequests hl | drainTake _ _ _ hl | drainDone _ hl
  | initSucceeds _ _ _ hl | initFails _ _ _ hl | drainDelete _ _ hl | addHandle _ _ hl
  | performRequests hl | socketActivity _ hl | socketActionReturns hl | noMessage hl
  | takeMessage _ _ hl | removeHandle _ hl | checkPush _ hl =>
    exact hs.keep rfl rfl (by rw [hl]; funext m; cases m <;> rfl)
  | _ => exact hs.keep rfl rfl rfl

theorem reachable_locked {s : State} (h : machine.Reachable s) : Locked s :=
  Transition.System.reachable_invariant (I := Locked) locked_loaded
    (fun _ _ _ hs ht => step_locked hs ht) h

/-- The `Unlock` statements, with the function each belongs to. -/
def Action.unlocks : Action → Option (Mutex × Owner)
  | .addUnlock => some (.requestQueue, .main, .addRequestToQueue)
  | .frameUnlock => some (.completedRequestQueue, .main, .frameHook)
  | .drainUnlock => some (.requestQueue, .loop, .asyncPerformRequests)
  | .checkUnlock => some (.completedRequestQueue, .loop, .checkCompletedRequests)
  | _ => none

/-- What a step can do to the owners: nothing, lock a free mutex, or run the `Unlock` of a
function inside its own section. -/
def OwnerStep (s t : State) (a : Action) : Prop :=
  t.owner = s.owner ∨
  (∃ m o, s.owner m = none ∧ t.owner = Function.update s.owner m (some o)) ∨
  ∃ m o, a.unlocks = some (m, o) ∧ (s.main.owns m = some o ∨ s.loop.owns m = some o) ∧
    t.owner = Function.update s.owner m none

theorem step_owner {s t : State} {a : Action} (h : step s a = some t) : OwnerStep s t a := by
  cases step_steps h with
  | addLock c r hm hfree | drainLock hl hfree =>
    exact .inr (.inl ⟨.requestQueue, _, hfree, by funext m; cases m <;> rfl⟩)
  | frameLock hm hfree | checkLock c hl hfree =>
    exact .inr (.inl ⟨.completedRequestQueue, _, hfree, by funext m; cases m <;> rfl⟩)
  | addUnlock r hm =>
    exact .inr (.inr ⟨.requestQueue, _, rfl, .inl (by rw [hm]; rfl), by funext m; cases m <;> rfl⟩)
  | frameUnlock hm =>
    exact .inr (.inr ⟨.completedRequestQueue, _, rfl, .inl (by rw [hm]; rfl),
      by funext m; cases m <;> rfl⟩)
  | drainUnlock hl =>
    exact .inr (.inr ⟨.requestQueue, _, rfl, .inr (by rw [hl]; rfl), by funext m; cases m <;> rfl⟩)
  | checkUnlock hl =>
    exact .inr (.inr ⟨.completedRequestQueue, _, rfl, .inr (by rw [hl]; rfl),
      by funext m; cases m <;> rfl⟩)
  | onCompleted c b hm =>
    obtain ⟨calls, ⟨-, heq⟩ | ⟨-, heq⟩⟩ := onCompleted_cases s c b
    all_goals
      rw [heq]
      exact .inl rfl
  | _ => exact .inl rfl

/-- A mutex that is held stays held until the `Unlock` of the function that locked it. -/
theorem owner_released {s t : State} {a : Action} (hs : Locked s) (h : step s a = some t)
    {m : Mutex} {o : Owner} (ho : s.owner m = some o) :
    t.owner m = some o ∨ t.owner m = none ∧ a.unlocks = some (m, o) := by
  rcases step_owner h with he | ⟨k, p, hfree, he⟩ | ⟨k, p, ha, hp, he⟩
  · exact .inl (by rw [he, ho])
  · have hk : m ≠ k := by
      rintro rfl
      simp [hfree] at ho
    exact .inl (by rw [he, Function.update_of_ne hk, ho])
  · by_cases hk : m = k
    · subst hk
      have howner := hs.owner m
      have hpo : p = o := by
        rcases hp with hp | hp
        · simpa [ho, hp] using howner.symm
        · simpa [ho, hp, hs.main_free hp] using howner.symm
      exact .inr ⟨by rw [he, Function.update_self], hpo ▸ ha⟩
    · exact .inl (by rw [he, Function.update_of_ne hk, ho])

/-- The thread that holds a mutex. -/
def State.holder (s : State) (m : Mutex) : Option Thread := (s.owner m).map Prod.fst

/-- The completed lock is taken before the request lock. -/
def Mutex.rank : Mutex → ℕ
  | .completedRequestQueue => 0
  | .requestQueue => 1

theorem MainPc.owns_thread {p : MainPc} {m : Mutex} {o : Owner} (h : p.owns m = some o) :
    o.1 = .main := by
  unfold MainPc.owns at h
  split at h <;> simp_all <;> grind

theorem LoopPc.owns_thread {l : LoopPc} {m : Mutex} {o : Owner} (h : l.owns m = some o) :
    o.1 = .loop := by
  unfold LoopPc.owns at h
  split at h <;> simp_all <;> grind

/-- The holder's own program counter is inside the section. -/
theorem Locked.owns_iff {s : State} (hs : Locked s) {m : Mutex} {p : Thread} {f : Function} :
    s.owner m = some (p, f) ↔ s.owns p m = some (p, f) := by
  rw [hs.owner m, Option.or_eq_some_iff]
  cases p with
  | main =>
    refine ⟨?_, .inl⟩
    rintro (h | ⟨-, h⟩)
    · exact h
    · exact absurd (LoopPc.owns_thread h) (by simp)
  | loop =>
    constructor
    · rintro (h | ⟨-, h⟩)
      · exact absurd (MainPc.owns_thread h) (by simp)
      · exact h
    · exact fun h => .inr ⟨hs.main_free h, h⟩

theorem locked_ordered {s : State} (hs : Locked s) :
    LockOrder.Ordered s.wants s.holder Mutex.rank := by
  intro p m k hw hk
  obtain ⟨⟨q, f⟩, ho, rfl⟩ := Option.map_eq_some_iff.mp hk
  have howns := hs.owns_iff.mp ho
  cases q with
  | main =>
    simp only [State.wants, MainPc.wants] at hw
    split at hw
    next c r hm =>
      cases hw
      cases k with
      | requestQueue => simp [State.owns, hm, MainPc.owns] at howns
      | completedRequestQueue => exact Nat.zero_lt_one
    next hm => simp [State.owns, hm, MainPc.owns] at howns
    next => contradiction
  | loop =>
    simp only [State.wants, LoopPc.wants] at hw
    split at hw
    next hl => simp [State.owns, hl, LoopPc.owns] at howns
    next c hl => simp [State.owns, hl, LoopPc.owns] at howns
    next => contradiction

/-- The locking discipline in one state, and across the next step: `sections` says that a
mutex is held exactly while its holder is between the `Lock` and the `Unlock` of the function
that took it, `returned` that a thread outside these functions holds nothing. -/
structure DeadlockFree (s : State) : Prop where
  noRelock : ∀ p m f, s.wants p = some m → s.owner m ≠ some (p, f)
  sections : ∀ m p f, s.owner m = some (p, f) ↔ s.owns p m = some (p, f)
  released : ∀ a t m o, step s a = some t → s.owner m = some o →
    t.owner m = some o ∨ t.owner m = none ∧ a.unlocks = some (m, o)
  returned : (s.main = .game → ∀ m f, s.owner m ≠ some (.main, f)) ∧
    (s.loop = .uv → ∀ m f, s.owner m ≠ some (.loop, f))
  noDeadlock : ¬ ∃ m k f g, s.wants .main = some m ∧ s.owner m = some (.loop, f) ∧
    s.wants .loop = some k ∧ s.owner k = some (.main, g)
  noCycle : ∀ p, ¬ Relation.TransGen (LockOrder.Waits s.wants s.holder) p p

/-- No interleaving of the two threads deadlocks, whatever the callback requests while
`FrameHook` holds the completed lock and whatever curl calls back while
`AsyncPerformRequests` holds the request lock. -/
theorem reachable_deadlockFree {s : State} (h : machine.Reachable s) : DeadlockFree s := by
  have hs := reachable_locked h
  have hcycle := LockOrder.not_transGen_self (locked_ordered hs)
  have hwaits {p q : Thread} {m : Mutex} {f : Function} (hw : s.wants p = some m)
      (ho : s.owner m = some (q, f)) : LockOrder.Waits s.wants s.holder p q :=
    ⟨m, hw, by simp [State.holder, ho]⟩
  exact {
    noRelock := fun p m f hw ho => hcycle p (.single (hwaits hw ho))
    sections := fun m p f => hs.owns_iff
    released := fun a t m o ht ho => owner_released hs ht ho
    returned := by
      constructor
      · intro hm m f ho
        have howns := hs.owns_iff.mp ho
        simp [State.owns, hm, MainPc.owns] at howns
      · intro hl m f ho
        have howns := hs.owns_iff.mp ho
        simp [State.owns, hl, LoopPc.owns] at howns
    noDeadlock := by
      rintro ⟨m, k, f, g, hm, hom, hk, hok⟩
      exact hcycle .main ((Relation.TransGen.single (hwaits hm hom)).tail (hwaits hk hok))
    noCycle := hcycle }

/-- The callback waits for the request lock while the loop thread drains: the game thread
holds the completed lock and `AsyncPerformRequests` the request lock. -/
def contendedRun : List Action :=
  [.native .created .request 7 true, .addLock, .addPush, .addUnlock, .frameHook, .frameTest,
    .asyncPerformRequests, .drainLock, .drainTest, .initCurl ⟨true, true⟩, .timeoutCallback 0,
    .addHandle, .drainTest, .drainUnlock, .performRequests,
    .transferDone ⟨0, .request, 7⟩ ⟨200, ""⟩, .socketActionReturns, .readMessage, .removeHandle,
    .checkLock, .checkPush, .checkUnlock, .readMessage,
    .native .created .form 8 true, .addLock, .addPush, .addUnlock, .frameHook, .frameTest,
    .frameLock, .framePop, .onCompleted true, .asyncPerformRequests, .drainLock,
    .native .created .request 9 false]

theorem contendedRun_deadlockFree : ∃ s, machine.run State.loaded contendedRun = some s ∧
    s.wants .main = some .requestQueue ∧
    s.owner .requestQueue = some (.loop, .asyncPerformRequests) ∧
    s.owner .completedRequestQueue = some (.main, .frameHook) ∧ DeadlockFree s :=
  ⟨_, rfl, rfl, rfl, rfl, reachable_deadlockFree ⟨contendedRun, rfl⟩⟩

end RipExt
