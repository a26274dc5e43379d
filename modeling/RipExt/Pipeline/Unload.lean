import RipExt.Pipeline.Conservation

/-! What `SDK_OnUnload` leaves behind. The ledger of live resources is followed from load to
unload: nothing on the unload path closes a libuv handle or destroys a context, and
`curl_multi_cleanup` is given the address of `g_Curl` in place of its value. -/
namespace RipExt

/-- The resources known to be live: those of `SDK_OnLoad`, the polls, and what each context
acquired and has not given back. -/
structure Held (s : State) : Prop where
  loaded : ∀ r ∈ State.loaded.ledger, r ∈ s.ledger
  distinct : s.polls.Nodup
  polls : ∀ i ∈ s.polls, .poll i ∈ s.ledger
  owned : ∀ c, c ∈ s.main.adding ∨ c ∈ s.added → c ∉ s.destroyed →
    .forward c.id ∈ s.ledger ∧ .headers c.id ∈ s.ledger
  initialised : ∀ c ∈ s.initialised, c ∈ s.added
  easy : ∀ c ∈ s.initialised, c ∉ s.destroyed → .easy c.id ∈ s.ledger
  file : ∀ c ∈ s.initialised, c.isFile → c ∉ s.completions → .file c.id ∈ s.ledger

/-- Contexts with different addresses: no two that were added share one. -/
theorem Fresh.id_ne {s : State} (hf : Fresh s) {c d : Context} (hc : c ∈ s.added)
    (hd : d ∈ s.main.adding ∨ d ∈ s.added) (hne : d ≠ c) : d.id ≠ c.id := by
  rcases hd with hd | hd
  · exact ((hf.adding d hd).2 c hc).symm
  · intro hid
    exact hne (List.inj_on_of_nodup_map hf.ids hd hc hid)

/-- A step that gives nothing back and acquires nothing for a context. -/
theorem Held.keep {s t : State} (hs : Held s) (hledger : s.ledger ⊆ t.ledger)
    (hpolls : t.polls = s.polls)
    (hadding : ∀ c, c ∈ t.main.adding ∨ c ∈ t.added → c ∈ s.main.adding ∨ c ∈ s.added)
    (hadded : s.added ⊆ t.added) (hdeleted : t.deleted = s.deleted)
    (hinitialised : t.initialised = s.initialised) (hcompletions : s.completions ⊆ t.completions) :
    Held t := by
  have hdestroyed : t.destroyed = s.destroyed := by rw [State.destroyed, hdeleted]; rfl
  refine ⟨fun r hr => hledger (hs.loaded r hr), ?_, ?_, ?_, ?_, ?_, ?_⟩
  · rw [hpolls]
    exact hs.distinct
  · rw [hpolls]
    exact fun i hi => hledger (hs.polls i hi)
  · intro c hc hd
    rw [hdestroyed] at hd
    have hown := hs.owned c (hadding c hc) hd
    exact ⟨hledger hown.1, hledger hown.2⟩
  · rw [hinitialised]
    exact fun c hc => hadded (hs.initialised c hc)
  · rw [hinitialised, hdestroyed]
    exact fun c hc hd => hledger (hs.easy c hc hd)
  · rw [hinitialised]
    exact fun c hc hfile hcomp => hledger (hs.file c hc hfile (fun h => hcomp (hcompletions h)))

/-- A step that leaves the ledger and the history alone. -/
theorem Held.same {s t : State} (hs : Held s) (hledger : t.ledger = s.ledger)
    (hpolls : t.polls = s.polls) (hadding : t.main.adding ⊆ s.main.adding)
    (hadded : t.added = s.added) (hdeleted : t.deleted = s.deleted)
    (hinitialised : t.initialised = s.initialised) (hcompletions : t.completions = s.completions) :
    Held t := by
  apply hs.keep _ hpolls _ _ hdeleted hinitialised
  · rw [hcompletions]
    exact fun _ => id
  · rw [hledger]
    exact fun _ => id
  · intro c hc
    rw [hadded] at hc
    exact hc.imp_left (fun h => hadding h)
  · rw [hadded]
    exact fun _ => id

/-- `delete context` gives back the resources of `c` only. -/
theorem Held.destroy {s t : State} (hs : Held s) (hf : Fresh s) {c : Context} (hc : c ∈ s.added)
    (hledger : t.ledger = s.ledger.filter (fun r => !c.releases r)) (hpolls : t.polls = s.polls)
    (hadding : t.main.adding ⊆ s.main.adding) (hadded : t.added = s.added)
    (hdestroyed : t.destroyed = s.destroyed ++ [c]) (hinitialised : t.initialised = s.initialised)
    (hcompletions : t.completions = s.completions) : Held t := by
  have hmem {r : Resource} (hr : r ∈ s.ledger) (hkeep : c.releases r = false) : r ∈ t.ledger := by
    rw [hledger]
    exact List.mem_filter.mpr ⟨hr, by simp [hkeep]⟩
  have hother {d : Context} (hd : d ∉ t.destroyed) : d ∉ s.destroyed ∧ d ≠ c := by
    rw [hdestroyed] at hd
    simpa [not_or] using hd
  refine ⟨?_, ?_, ?_, ?_, ?_, ?_, ?_⟩
  · intro r hr
    apply hmem (hs.loaded r hr)
    simp only [State.loaded, List.mem_cons, List.not_mem_nil, or_false] at hr
    rcases hr with rfl | rfl | rfl | rfl <;> rfl
  · rw [hpolls]
    exact hs.distinct
  · rw [hpolls]
    exact fun i hi => hmem (hs.polls i hi) rfl
  · intro d hd hnot
    rw [hadded] at hd
    have hd' : d ∈ s.main.adding ∨ d ∈ s.added := hd.imp_left (fun h => hadding h)
    obtain ⟨hds, hne⟩ := hother hnot
    have hid := hf.id_ne hc hd' hne
    have hown := hs.owned d hd' hds
    exact ⟨hmem hown.1 (by simp [Context.releases, hid]),
      hmem hown.2 (by simp [Context.releases, hid])⟩
  · rw [hinitialised, hadded]
    exact hs.initialised
  · intro d hd hnot
    rw [hinitialised] at hd
    obtain ⟨hds, hne⟩ := hother hnot
    have hid := hf.id_ne hc (.inr (hs.initialised d hd)) hne
    exact hmem (hs.easy d hd hds) (by simp [Context.releases, hid])
  · intro d hd hfile hcomp
    rw [hinitialised] at hd
    rw [hcompletions] at hcomp
    exact hmem (hs.file d hd hfile hcomp) rfl

/-- `OnCompleted` closes the file of `c` only. -/
theorem Held.closeFile {s : State} (hs : Held s) (hf : Fresh s) {c : Context} (hc : c ∈ s.added) :
    Held (s.closeFile c) := by
  have hmem {r : Resource} (hr : r ∈ s.ledger) (hne : r ≠ .file c.id) :
      r ∈ (s.closeFile c).ledger := by
    unfold State.closeFile
    split_ifs
    · exact (List.mem_erase_of_ne hne).mpr hr
    · exact hr
  refine ⟨?_, hs.distinct, ?_, ?_, hs.initialised, ?_, ?_⟩
  · intro r hr
    apply hmem (hs.loaded r hr)
    rintro rfl
    simp [State.loaded] at hr
  · exact fun i hi => hmem (hs.polls i hi) (by simp)
  · intro d hd hnot
    have hown := hs.owned d hd hnot
    exact ⟨hmem hown.1 (by simp), hmem hown.2 (by simp)⟩
  · exact fun d hd hnot => hmem (hs.easy d hd hnot) (by simp)
  · intro d hd hfile hcomp
    obtain ⟨hcomp, hne⟩ : d ∉ s.completions ∧ d ≠ c := by
      simpa [State.closeFile, not_or] using hcomp
    have hid := hf.id_ne hc (.inr (hs.initialised d hd)) hne
    exact hmem (hs.file d hd hfile hcomp) (by simp [hid])

theorem Held.onCompleted {s : State} (hs : Held s) (hf : Fresh s) {c : Context}
    (hc : c ∈ s.added) (b : Bool) : Held (s.onCompleted c b) := by
  have hclose := hs.closeFile hf hc
  have hadding (p : MainPc) (hp : p.adding = []) (d : Context) (hd : d ∈ p.adding ∨ d ∈ s.added) :
      d ∈ (s.closeFile c).main.adding ∨ d ∈ (s.closeFile c).added := by
    rw [hp] at hd
    exact .inr (hd.resolve_left List.not_mem_nil)
  unfold State.onCompleted
  split_ifs
  all_goals
    exact hclose.keep (fun _ => id) rfl (hadding _ rfl) (fun _ => id) rfl rfl (fun _ => id)

/-- A successful `InitCurl` of `c`. -/
theorem Held.initCurl {s : State} (hs : Held s) {c : Context} (hc : c ∈ s.added)
    (o : InitOutcome) (hok : (c.initCurl o).1 = true) (l : LoopPc) :
    Held { s with
      ledger := s.ledger ++ (c.initCurl o).2, initialised := s.initialised ++ [c], loop := l } := by
  have hnew : .easy c.id ∈ (c.initCurl o).2 ∧ (c.isFile → .file c.id ∈ (c.initCurl o).2) := by
    rw [Context.initCurl_fst] at hok
    unfold Context.initCurl
    cases ho : o.easyInit <;> cases hfile : c.isFile <;> cases hopen : o.fopen <;> simp_all
  refine ⟨fun r hr => List.mem_append_left _ (hs.loaded r hr), hs.distinct,
    fun i hi => List.mem_append_left _ (hs.polls i hi), ?_, ?_, ?_, ?_⟩
  · intro d hd hnot
    have hown := hs.owned d hd hnot
    exact ⟨List.mem_append_left _ hown.1, List.mem_append_left _ hown.2⟩
  · intro d hd
    rcases List.mem_append.mp hd with hd | hd
    · exact hs.initialised d hd
    · rw [List.mem_singleton.mp hd]
      exact hc
  · intro d hd hnot
    rcases List.mem_append.mp hd with hd | hd
    · exact List.mem_append_left _ (hs.easy d hd hnot)
    · rw [List.mem_singleton.mp hd]
      exact List.mem_append_right _ hnew.1
  · intro d hd hfile hcomp
    rcases List.mem_append.mp hd with hd | hd
    · exact List.mem_append_left _ (hs.file d hd hfile hcomp)
    · rw [List.mem_singleton.mp hd] at hfile ⊢
      exact List.mem_append_right _ (hnew.2 hfile)

/-- The forward and the headers of a new context. -/
theorem Held.created {s t : State} (hs : Held s) (k : Kind) (v : ℤ)
    (hledger : t.ledger = s.ledger ++ [.forward s.nextId, .headers s.nextId])
    (hpolls : t.polls = s.polls) (hadding : t.main.adding = [⟨s.nextId, k, v⟩])
    (hadded : t.added = s.added) (hdestroyed : t.destroyed = s.destroyed)
    (hinitialised : t.initialised = s.initialised) (hcompletions : t.completions = s.completions) :
    Held t := by
  have hmem {r : Resource} (hr : r ∈ s.ledger) : r ∈ t.ledger := by
    rw [hledger]
    exact List.mem_append_left _ hr
  refine ⟨fun r hr => hmem (hs.loaded r hr), ?_, ?_, ?_, ?_, ?_, ?_⟩
  · rw [hpolls]
    exact hs.distinct
  · rw [hpolls]
    exact fun i hi => hmem (hs.polls i hi)
  · intro c hc hd
    rw [hadding, hadded] at hc
    rw [hdestroyed] at hd
    rcases hc with hc | hc
    · obtain rfl := List.mem_singleton.mp hc
      simp [hledger]
    · have hown := hs.owned c (.inr hc) hd
      exact ⟨hmem hown.1, hmem hown.2⟩
  · rw [hinitialised, hadded]
    exact hs.initialised
  · rw [hinitialised, hdestroyed]
    exact fun c hc hd => hmem (hs.easy c hc hd)
  · rw [hinitialised, hcompletions]
    exact fun c hc hfile hd => hmem (hs.file c hc hfile hd)

/-- `uv_loop_close` is always refused: the timer is still open. -/
theorem Held.uvLoopClose {s : State} (hs : Held s) : s.uvLoopClose = s := by
  have htimer : s.ledger.any Resource.isUv = true :=
    List.any_eq_true.mpr ⟨.timer, hs.loaded .timer (by simp [State.loaded]), rfl⟩
  unfold State.uvLoopClose
  rw [if_pos htimer]

/-- `CURL_POLL_REMOVE` closes the poll of its own socket only. -/
theorem Held.closePoll {s : State} (hs : Held s) (i : ℕ) :
    Held { s with polls := s.polls.erase i, ledger := s.ledger.erase (.poll i) } := by
  have hmem {r : Resource} (hr : r ∈ s.ledger) (hne : r ≠ .poll i) :
      r ∈ s.ledger.erase (.poll i) := (List.mem_erase_of_ne hne).mpr hr
  refine ⟨?_, hs.distinct.erase i, ?_, ?_, hs.initialised, ?_, ?_⟩
  · intro r hr
    apply hmem (hs.loaded r hr)
    rintro rfl
    simp [State.loaded] at hr
  · intro j hj
    have hj := (hs.distinct.mem_erase_iff).mp hj
    exact hmem (hs.polls j hj.2) (by simpa using hj.1)
  · intro c hc hd
    have hown := hs.owned c hc hd
    exact ⟨hmem hown.1 (by simp), hmem hown.2 (by simp)⟩
  · exact fun c hc hd => hmem (hs.easy c hc hd) (by simp)
  · exact fun c hc hfile hd => hmem (hs.file c hc hfile hd) (by simp)

theorem Held.openPoll {s : State} (hs : Held s) {i : ℕ} (hi : i ∉ s.polls) :
    Held { s with polls := i :: s.polls, ledger := s.ledger ++ [.poll i] } := by
  refine ⟨fun r hr => List.mem_append_left _ (hs.loaded r hr),
    List.nodup_cons.mpr ⟨hi, hs.distinct⟩, ?_, ?_, hs.initialised,
    fun c hc hd => List.mem_append_left _ (hs.easy c hc hd),
    fun c hc hfile hd => List.mem_append_left _ (hs.file c hc hfile hd)⟩
  · intro j hj
    rcases List.mem_cons.mp hj with rfl | hj
    · simp
    · exact List.mem_append_left _ (hs.polls j hj)
  · intro c hc hd
    have hown := hs.owned c hc hd
    exact ⟨List.mem_append_left _ hown.1, List.mem_append_left _ hown.2⟩

theorem step_held {s t : State} {a : Action} (hreach : machine.Reachable s) (hs : Held s)
    (h : step s a = some t) : Held t := by
  have hf := reachable_fresh hreach
  cases step_steps h with
  | addFunctionFails k v r hm =>
    exact hs.keep (List.subset_append_left _ _) rfl (fun _ => id) (fun _ => id) rfl rfl
      (fun _ => id)
  | created k v r hm => exact hs.created k v rfl rfl rfl rfl rfl rfl rfl
  | addLock c r hm => exact hs.same rfl rfl (by rw [hm]; exact fun _ => id) rfl rfl rfl rfl
  | addPush c r hm =>
    refine hs.keep (fun _ => id) rfl ?_ (List.subset_append_left _ _) rfl rfl (fun _ => id)
    intro d hd
    rw [hm]
    simpa [or_comm] using hd
  | addUnlock r hm =>
    refine hs.same rfl rfl ?_ rfl rfl rfl rfl
    rw [r.resume_adding]
    exact List.nil_subset _
  | onCompleted c b hm =>
    exact hs.onCompleted hf (inHand_added hreach (by simp [State.inHand, hm])) b
  | frameDelete c hm =>
    exact hs.destroy hf (inHand_added hreach (by simp [State.inHand, hm])) rfl rfl
      (List.nil_subset _) rfl (by simp [State.destroyed, State.destroy]) rfl rfl
  | closeLoop hm =>
    rw [hs.uvLoopClose]
    exact hs.same rfl rfl (List.nil_subset _) rfl rfl rfl rfl
  | frameHook | frameEmpty | frameFull | frameLock | framePop | callbackReturns | frameUnlock
  | unload | joinThread | cleanupMulti | removeTypes =>
    exact hs.same rfl rfl (List.nil_subset _) rfl rfl rfl rfl
  | initSucceeds c n o hl ho =>
    exact hs.initCurl (inHand_added hreach (by simp [State.inHand, hl])) o ho _
  | initFails c n o hl ho =>
    exact hs.keep (List.subset_append_left _ _) rfl (fun _ => id) (fun _ => id) rfl rfl
      (fun _ => id)
  | drainDelete c n hl =>
    exact hs.destroy hf (inHand_added hreach (by simp [State.inHand, hl])) rfl rfl
      (fun _ => id) rfl (by simp [State.destroyed, State.destroy]) rfl rfl
  | closePoll i => exact hs.closePoll i
  | openPoll i hl hpoll => exact hs.openPoll hpoll
  | _ => exact hs.same rfl rfl (fun _ => id) rfl rfl rfl rfl

theorem reachable_held {s : State} (h : machine.Reachable s) : Held s := by
  have hloaded : Held State.loaded := by constructor <;> simp [State.loaded, State.destroyed]
  have hboth : machine.Reachable s ∧ Held s := by
    apply Transition.System.reachable_invariant (I := fun s => machine.Reachable s ∧ Held s) _ _ h
    · exact ⟨⟨[], rfl⟩, hloaded⟩
    · rintro s a t ⟨hreach, hs⟩ ht
      exact ⟨hreach.step ht, step_held hreach hs ht⟩
  exact hboth.2

/-- The state a full undo of `SDK_OnLoad` would leave: nothing is live and every context was
destroyed exactly once. -/
structure Undone (s : State) : Prop where
  ledger : s.ledger = []
  destroyed : ∀ c ∈ s.added, s.destroyed.count c = 1

/-- What is still live: the curl multi handle, every libuv handle, and every context that was
queued, in flight or undelivered, with all it had acquired. -/
structure Leaked (s : State) : Prop where
  loaded : ∀ r ∈ [.multi, .timer, .asyncPerformRequests, .asyncStopLoop], r ∈ s.ledger
  polls : ∀ i ∈ s.polls, .poll i ∈ s.ledger
  contexts : ∀ c ∈ s.requestQueue ++ s.multi ++ s.completedQueue,
    c ∉ s.destroyed ∧ .forward c.id ∈ s.ledger ∧ .headers c.id ∈ s.ledger
  started : ∀ c ∈ s.multi ++ s.completedQueue, .easy c.id ∈ s.ledger
  files : ∀ c ∈ s.multi ++ s.completedQueue, c.isFile → .file c.id ∈ s.ledger

/-- A context that waits in one of the three places has not been destroyed or completed. -/
theorem waiting_untouched {s : State} (h : machine.Reachable s) {c : Context}
    (hc : c ∈ s.requestQueue ++ s.multi ++ s.completedQueue) :
    c ∈ s.added ∧ c ∉ s.destroyed ∧ c ∉ s.completions := by
  have hcount := reachable_count h c
  have hle := reachable_added_le h c
  have hpos : 0 < s.requestQueue.count c + s.multi.count c + s.completedQueue.count c := by
    have := List.count_pos_iff.mpr hc
    simpa only [List.count_append] using this
  have hdestroyed : s.destroyed.count c = 0 := by omega
  have hhand : s.inHand.count c = 0 := by omega
  refine ⟨List.count_pos_iff.mp (by omega), List.count_eq_zero.mp hdestroyed, fun hcomp => ?_⟩
  rcases (reachable_conserved h).completedGone c hcomp with hd | hd
  · apply List.count_eq_zero.mp hhand
    have hd : c ∈ s.main.delivering := hd
    simp only [State.inHand, List.mem_append]
    tauto
  · exact List.count_eq_zero.mp hdestroyed hd

theorem started_initialised {s : State} (h : machine.Reachable s) {c : Context}
    (hc : c ∈ s.multi ++ s.completedQueue) : c ∈ s.initialised := by
  have hcons := reachable_conserved h
  have hhanded : c ∈ s.handed := by
    rcases List.mem_append.mp hc with hc | hc
    · exact hcons.activeHanded c hc
    · apply hcons.reportedHanded
      have hpushed : s.pushed = s.completions ++ (s.main.popped ++ s.completedQueue) :=
        hcons.pushedOrder
      have hqueued : s.pushed <+: s.reported := ⟨_, hcons.reportedOrder.symm⟩
      apply hqueued.subset
      rw [hpushed]
      exact List.mem_append_right _ (List.mem_append_right _ hc)
  exact hcons.initialised c (List.mem_append_left _ hhanded)

theorem reachable_leaked {s : State} (h : machine.Reachable s) : Leaked s := by
  have hs := reachable_held h
  refine ⟨hs.loaded, hs.polls, ?_, ?_, ?_⟩
  · intro c hc
    obtain ⟨hadded, hdestroyed, -⟩ := waiting_untouched h hc
    exact ⟨hdestroyed, hs.owned c (.inr hadded) hdestroyed⟩
  · intro c hc
    have hw := waiting_untouched h (c := c) (by rw [List.append_assoc]; simp [List.mem_append.mp hc])
    exact hs.easy c (started_initialised h hc) hw.2.1
  · intro c hc hfile
    have hw := waiting_untouched h (c := c) (by rw [List.append_assoc]; simp [List.mem_append.mp hc])
    exact hs.file c (started_initialised h hc) hfile hw.2.2

/-- `uv_thread_join` has returned. -/
def MainPc.joined : MainPc → Bool
  | .unloadClose | .unloadCleanup | .unloadRemove | .unloaded => true
  | _ => false

/-- Once the loop thread has been joined it stays stopped. -/
theorem step_joined {s t : State} {a : Action} (hs : s.main.joined = true → s.loop = .stopped)
    (h : step s a = some t) (ht : t.main.joined = true) : t.loop = .stopped := by
  have hmoves {l : LoopPc} (hm : t.main = s.main) (hl : s.loop = l) (hne : l ≠ .stopped) :
      t.loop = .stopped := by
    rw [hm] at ht
    exact absurd (hl.symm.trans (hs ht)) hne
  cases step_steps h with
  | addUnlock r hm => rcases r with ⟨_ | d, f⟩ <;> cases ht
  | onCompleted c b hm =>
    obtain ⟨calls, ⟨-, heq⟩ | ⟨-, heq⟩⟩ := onCompleted_cases s c b
    all_goals
      rw [heq] at ht
      cases ht
  | created | addLock | addPush | frameHook | frameEmpty | frameFull | frameLock | framePop
  | callbackReturns | frameDelete | frameUnlock | unload => cases ht
  | joinThread hm hl => exact hl
  | closeLoop hm | cleanupMulti hm | removeTypes hm => exact hs (by rw [hm]; rfl)
  | loopExit => rfl
  | asyncPerformRequests hl | drainLock hl | drainTake _ _ _ hl | drainDone _ hl
  | initSucceeds _ _ _ hl | initFails _ _ _ hl | drainDelete _ _ hl | addHandle _ _ hl
  | drainUnlock hl | performRequests hl | socketActivity _ hl | socketActionReturns hl
  | noMessage hl | takeMessage _ _ hl | removeHandle _ hl | checkLock _ hl | checkPush _ hl
  | checkUnlock hl => exact hmoves rfl hl (by simp)
  | _ => exact hs ht

theorem reachable_joined {s : State} (h : machine.Reachable s) (hm : s.main.joined = true) :
    s.loop = .stopped :=
  Transition.System.reachable_invariant (I := fun s => s.main.joined = true → s.loop = .stopped)
    (fun h => by cases h) (fun _ _ _ hs ht => step_joined hs ht) h hm

/-- After `SDK_OnUnload`, from every state it can be called in, load has not been undone: the
multi handle and all libuv handles are still live, and so is every context that no thread
destroyed before, each still waiting where it was. -/
theorem unloaded_leaked {s : State} (h : machine.Reachable s) (hm : s.main = .unloaded) :
    ¬Undone s ∧ Leaked s ∧
      ∀ c ∈ s.added, c ∈ s.destroyed ∨ c ∈ s.requestQueue ++ s.multi ++ s.completedQueue := by
  have hleaked := reachable_leaked h
  refine ⟨fun hundone => ?_, hleaked, fun c hc => ?_⟩
  · have hmulti := hleaked.loaded .multi (by simp)
    rw [hundone.ledger] at hmulti
    cases hmulti
  · have hstopped : s.loop = .stopped := reachable_joined h (by rw [hm]; rfl)
    have hhand : s.inHand = [] := by simp [State.inHand, hm, hstopped]
    have hcount := reachable_count h c
    have hpos : 0 < s.added.count c := List.count_pos_iff.mpr hc
    rw [hhand, List.count_nil] at hcount
    by_cases hd : c ∈ s.destroyed
    · exact .inl hd
    · right
      have hzero := List.count_eq_zero.mpr hd
      apply List.count_pos_iff.mp
      simp only [List.count_append]
      omega

/-- Unload with one upload in flight and one request still queued. -/
def unloadRun : List Action :=
  [.native .created (.file true) 7 true, .addLock, .addPush, .addUnlock, .frameHook, .frameTest,
    .asyncPerformRequests, .drainLock, .drainTest, .initCurl ⟨true, true⟩, .timeoutCallback 0,
    .addHandle, .drainTest, .drainUnlock, .performRequests, .socketCallback 5 false,
    .socketActionReturns, .readMessage, .native .created .request 8 false, .addLock, .addPush,
    .addUnlock, .unload, .asyncStopLoop, .loopExit, .joinThread, .closeLoop, .cleanupMulti,
    .removeTypes]

theorem unloadRun_leaked : ∃ s, machine.run State.loaded unloadRun = some s ∧
    s.main = .unloaded ∧ s.requestQueue = [⟨1, .request, 8⟩] ∧ s.multi = [⟨0, .file true, 7⟩] ∧
    ¬Undone s ∧ Leaked s ∧
      ∀ c ∈ s.added, c ∈ s.destroyed ∨ c ∈ s.requestQueue ++ s.multi ++ s.completedQueue :=
  ⟨_, rfl, rfl, rfl, rfl, unloaded_leaked ⟨unloadRun, rfl⟩ rfl⟩

theorem unloadRun_not_undone : ∃ s, machine.run State.loaded unloadRun = some s ∧
    s.main = .unloaded ∧ s.destroyed = [] ∧
    s.ledger = [.multi, .timer, .asyncPerformRequests, .asyncStopLoop, .forward 0, .headers 0,
      .easy 0, .file 0, .poll 5, .forward 1, .headers 1] ∧ ¬Undone s := by
  refine ⟨_, rfl, rfl, rfl, rfl, fun h => ?_⟩
  cases h.ledger

end RipExt
