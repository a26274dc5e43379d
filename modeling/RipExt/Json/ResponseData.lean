import RipExt.Json.Accept
import RipExt.Json.Handles
import RipExt.Json.Tables

/-! `HTTPResponse.Data` in a callback. The response remembers the handle that the first read
opened, and returns it from then on, also after the plugin has closed it. -/
namespace RipExt.Json

section Numbers

/-- What a call does to the open JSON handles. -/
inductive HandlesStep (s s' : State) : Prop
  | same (h : s'.handles = s.handles) (hnext : s.nextHandle ≤ s'.nextHandle)
  | opened (json : Ref) (h : s'.handles = (s.nextHandle, json) :: s.handles)
      (hnext : s'.nextHandle = s.nextHandle + 1)
  | closed (hndl : ℕ) (json : Ref) (h : takeHandle hndl s.handles = some (json, s'.handles))
      (hnext : s'.nextHandle = s.nextHandle)

/-- The open JSON handles have different numbers, all of which were given out. -/
structure State.Numbered (s : State) : Prop where
  given : ∀ x ∈ s.handles, x.1 < s.nextHandle
  nodup : (s.handles.map (·.1)).Nodup

variable {E : Host} {s s' : State} {c : Call} {o : Outcome} {hndl : ℕ} {json : Ref}

theorem Tabled.handlesStep (h : Tabled s s' o) : HandlesStep s s' := by
  cases h with
  | same h =>
    rw [h]
    exact .same rfl le_rfl
  | opened json h ho =>
    rw [h]
    exact .opened json rfl rfl

theorem call_handlesStep (h : call E s c = some (s', o)) : HandlesStep s s' := by
  by_cases hplain : c.isPlain = true
  · exact (call_tabled hplain h).handlesStep
  · cases call_table hplain h with
    | keysCreated | responseOpened => exact .same rfl (Nat.le_succ _)
    | handleClosed hndl json handles heap htake => exact .closed hndl json htake rfl
    | dataClosed hndl hndlData response responses json handles heap htake hdata =>
      exact .closed hndlData json hdata rfl
    | dataRead hndl refused hread =>
      cases hread with
      | opened response json => exact .opened json rfl rfl
      | _ => exact .same rfl le_rfl
    | _ => exact .same rfl le_rfl

theorem State.Numbered.step (hs : s.Numbered) (h : HandlesStep s s') : s'.Numbered := by
  cases h with
  | same h hnext =>
    refine ⟨fun x hx => ?_, h ▸ hs.nodup⟩
    exact (hs.given x (h ▸ hx)).trans_le hnext
  | opened json h hnext =>
    constructor
    · intro x hx
      rw [h] at hx
      rcases List.mem_cons.mp hx with rfl | hx
      · rw [hnext]
        exact Nat.lt_succ_self _
      · rw [hnext]
        exact (hs.given x hx).trans (Nat.lt_succ_self _)
    · rw [h, List.map_cons]
      refine List.nodup_cons.mpr ⟨fun hmem => ?_, hs.nodup⟩
      obtain ⟨x, hx, heq⟩ := List.mem_map.mp hmem
      exact (hs.given x hx).ne heq
  | closed hndl json h hnext =>
    have hperm := takeHandle_perm h
    constructor
    · intro x hx
      rw [hnext]
      exact hs.given x (hperm.mem_iff.mpr (List.mem_cons_of_mem _ hx))
    · exact (List.nodup_cons.mp ((hperm.map (·.1)).nodup_iff.mp hs.nodup)).2

theorem reachable_numbered (h : (system E).Reachable s) : s.Numbered := by
  refine Transition.System.reachable_invariant ⟨by simp [system, State.empty], List.nodup_nil⟩ ?_ h
  intro s c t hs ht
  obtain ⟨⟨t, o⟩, hcall, rfl⟩ := Option.map_eq_some_iff.mp ht
  exact hs.step (call_handlesStep hcall)

theorem readHandle_iff_mem {α : Type*} {table : List (ℕ × α)} {x : α}
    (hnodup : (table.map (·.1)).Nodup) :
    readHandle hndl table = some x ↔ (hndl, x) ∈ table := by
  refine ⟨mem_of_readHandle, fun hmem => ?_⟩
  induction table with
  | nil => cases hmem
  | cons y ys ih =>
    rw [List.map_cons, List.nodup_cons] at hnodup
    rw [readHandle_cons]
    rcases List.mem_cons.mp hmem with rfl | hmem
    · exact if_pos rfl
    · have hne : y.1 ≠ hndl := by
        rintro rfl
        exact hnodup.1 (List.mem_map.mpr ⟨_, hmem, rfl⟩)
      rw [if_neg hne]
      exact ih hnodup.2 hmem

/-- A number that was given out before is never given to another value. -/
theorem State.Numbered.read_of_step (hs : s.Numbered) (h : HandlesStep s s')
    (hgiven : hndl < s.nextHandle) (hread : readHandle hndl s'.handles = some json) :
    readHandle hndl s.handles = some json := by
  cases h with
  | same h hnext => rwa [h] at hread
  | opened json' h hnext => rwa [h, readHandle_cons, if_neg hgiven.ne'] at hread
  | closed hndl' json' h hnext =>
    rw [readHandle_iff_mem hs.nodup]
    exact (takeHandle_perm h).mem_iff.mpr (List.mem_cons_of_mem _ (mem_of_readHandle hread))

theorem State.Numbered.read_of_not_given (hs : s.Numbered) (h : s.nextHandle ≤ hndl) :
    readHandle hndl s.handles = none := by
  by_contra hsome
  obtain ⟨json, hread⟩ := Option.ne_none_iff_exists'.mp hsome
  exact (hs.given _ (mem_of_readHandle hread)).not_ge h

end Numbers

section Callback

/-- What a plugin does in the callback: anything but opening and freeing the response. -/
def Call.inCallback : Call → Bool
  | .openResponse _ | .closeResponse _ => false
  | _ => true

def Call.readsData (hndlResponse : ℕ) : Call → Bool
  | .getResponseData hndl _ => hndl = hndlResponse
  | _ => false

variable (E : Host) (hndlResponse : ℕ) (s₁ : State) (calls : List Call)

/-- A read of `Data` in the run, with what came before it, the states around it and what it
returns. -/
structure ReadsData (before : List Call) (refused : Option ℕ) (s s' : State) (o : Outcome) :
    Prop where
  place : before ++ [.getResponseData hndlResponse refused] <+: calls
  run : (system E).run s₁ before = some s
  returns : getResponseData E s hndlResponse refused = some (s', o)

/-- A value is the body as the first read of `Data` decoded it. -/
def DecodedBody (d : Document) (json : Ref) : Prop :=
  ∃ before refused s s' o heap,
    ReadsData E hndlResponse s₁ calls before refused s s' o ∧
      (∀ c ∈ before, c.readsData hndlResponse = false) ∧
      jsonLoads E.toHashing s.heap d = some (some json, heap)

/-- A handle was opened by a read of `Data`. -/
def OpenedByData (hndl : ℕ) : Prop :=
  ∃ before refused s s' o, ReadsData E hndlResponse s₁ calls before refused s s' o ∧
    readHandle hndl s.handles = none ∧ (readHandle hndl s'.handles).isSome

/-- Every read returns an open handle that names the decoded body; two reads return the same
handle unless it is closed between them; and the end of `OnCompleted`, after the state `t`,
closes no handle but one that `Data` opened. -/
structure DataUsable (d : Document) (t : State) : Prop where
  usable : ∀ before refused s s' o, ReadsData E hndlResponse s₁ calls before refused s s' o →
    ∃ hndl json, o = .handle hndl ∧ readHandle hndl s'.handles = some json ∧
      DecodedBody E hndlResponse s₁ calls d json
  same : ∀ before between refused refused' s s' u u' hndl hndl',
    ReadsData E hndlResponse s₁ calls before refused s s' (.handle hndl) →
    ReadsData E hndlResponse s₁ calls
      (before ++ .getResponseData hndlResponse refused :: between) refused' u u' (.handle hndl') →
    .closeHandle hndl ∉ between → hndl' = hndl
  cleanup : ∀ t' o hndl, closeResponse E t hndlResponse = some (t', o) →
    (readHandle hndl t.handles).isSome → readHandle hndl t'.handles = none →
    OpenedByData E hndlResponse s₁ calls hndl

end Callback

/-- The host grants the handle of the first read, and the plugin does not read `Data` once it has
closed that handle. -/
def Call.sparesData (hndlResponse : ℕ) (s : State) : Call → Bool
  | .getResponseData hndl refused =>
    hndl ≠ hndlResponse ||
      match (readHandle hndlResponse s.responses).bind (·.hndlData) with
      | none => refused.isNone
      | some hndlData => (readHandle hndlData s.handles).isSome
  | _ => true

section Steps
variable {E : Host} {s s' s₁ t : State} {c : Call} {o : Outcome} {hndl hndlResponse : ℕ}
  {response : HTTPResponse} {calls before : List Call} {refused : Option ℕ} {d : Document}

/-- Only a read of `Data` changes a response during the callback. -/
theorem call_responses (hc : c.inCallback = true) (hread : c.readsData hndlResponse = false)
    (h : call E s c = some (s', o)) :
    readHandle hndlResponse s'.responses = readHandle hndlResponse s.responses := by
  by_cases hplain : c.isPlain = true
  · cases call_tabled hplain h with
    | same hsame => rw [hsame]
    | opened json hopened => rw [hopened]; rfl
  · cases call_table hplain h with
    | responseOpened | responseClosed | dataClosed => cases hc
    | dataRead hndl refused hdata =>
      have hne : hndlResponse ≠ hndl := by
        rintro rfl
        simp [Call.readsData] at hread
      cases hdata with
      | opened | refused => exact readHandle_updateHandle_of_ne hne
      | _ => rfl
    | _ => rfl

theorem eq_of_readsData (h : c.readsData hndlResponse = true) :
    ∃ refused, c = .getResponseData hndlResponse refused := by
  cases c with
  | getResponseData hndl refused =>
    obtain rfl : hndl = hndlResponse := by simpa [Call.readsData] using h
    exact ⟨refused, rfl⟩
  | _ => cases h

theorem sparesData_of_not_readsData (h : ¬c.readsData hndlResponse = true) :
    c.sparesData hndlResponse s = true := by
  cases c with
  | getResponseData hndl refused =>
    have hne : hndl ≠ hndlResponse := by simpa [Call.readsData] using h
    simp [Call.sparesData, hne]
  | _ => rfl

/-- The response has been read, and remembers the handle. -/
def Remembers (hndlResponse hndl : ℕ) (s : State) : Prop :=
  ∃ response, readHandle hndlResponse s.responses = some response ∧ response.hndlData = some hndl

theorem Remembers.read (h : Remembers hndlResponse hndl s) (refused : Option ℕ) :
    getResponseData E s hndlResponse refused = some (s, .handle hndl) := by
  obtain ⟨response, hresponse, hdata⟩ := h
  simp [getResponseData, hresponse, hdata]

theorem Remembers.call (h : Remembers hndlResponse hndl s) (hc : c.inCallback = true)
    (hcall : Json.call E s c = some (s', o)) : Remembers hndlResponse hndl s' := by
  by_cases hread : c.readsData hndlResponse = true
  · obtain ⟨refused, rfl⟩ := eq_of_readsData hread
    cases (h.read refused).symm.trans hcall
    exact h
  · rw [Bool.not_eq_true] at hread
    obtain ⟨response, hresponse, hdata⟩ := h
    exact ⟨response, (call_responses hc hread hcall).trans hresponse, hdata⟩

theorem remembers_of_read (h : getResponseData E s hndlResponse refused = some (s', .handle hndl)) :
    Remembers hndlResponse hndl s' := by
  generalize ho : Outcome.handle hndl = o at h
  cases getResponseData_read h with
  | closed => cases ho
  | cached response hndlData hresponse hdata =>
    cases ho
    exact ⟨response, hresponse, hdata⟩
  | invalid => cases ho
  | opened response json heap hresponse =>
    cases ho
    exact ⟨_, readHandle_updateHandle_self (by rw [hresponse]; rfl), rfl⟩
  | refused => cases ho

theorem Remembers.run (h : Remembers hndlResponse hndl s) (hc : ∀ c ∈ calls, c.inCallback = true)
    (hrun : (system E).run s calls = some t) : Remembers hndlResponse hndl t := by
  induction calls generalizing s with
  | nil =>
    cases hrun
    exact h
  | cons c calls ih =>
    obtain ⟨u, hu, hrun⟩ := (system E).run_cons.mp hrun
    obtain ⟨⟨u, o⟩, hcall, rfl⟩ := Option.map_eq_some_iff.mp hu
    rw [List.forall_mem_cons] at hc
    exact ih (h.call hc.1 hcall) hc.2 hrun

theorem system_step (h : call E s c = some (s', o)) : (system E).step s c = some s' := by
  show (Json.call E s c).map (·.1) = some s'
  rw [h]
  rfl

end Steps

section Runs
variable {E : Host} {s s' s₁ t : State} {c : Call} {o : Outcome} {hndl hndlResponse : ℕ}
  {calls before : List Call} {refused : Option ℕ} {d : Document}

/-- What the response remembers after some calls of a run that spares `Data`. -/
inductive Caches (E : Host) (hndlResponse : ℕ) (s₁ : State) (calls : List Call) (d : Document)
    (before : List Call) (s : State) : Prop
  | unread (h : readHandle hndlResponse s.responses = some ⟨d, none⟩)
      (hbefore : ∀ c ∈ before, c.readsData hndlResponse = false)
  | read (hndl : ℕ) (h : readHandle hndlResponse s.responses = some ⟨d, some hndl⟩)
      (hgiven : hndl < s.nextHandle) (hopened : OpenedByData E hndlResponse s₁ calls hndl)
      (hnames : ∀ json, readHandle hndl s.handles = some json →
        DecodedBody E hndlResponse s₁ calls d json)

/-- A call that does not read `Data` leaves what the response remembers. -/
theorem Caches.other (h : Caches E hndlResponse s₁ calls d before s)
    (hreach : (system E).Reachable s) (hc : c.inCallback = true)
    (hread : c.readsData hndlResponse = false) (hcall : call E s c = some (s', o)) :
    Caches E hndlResponse s₁ calls d (before ++ [c]) s' := by
  have hresponses := call_responses hc hread hcall
  cases h with
  | unread h hbefore =>
    refine .unread (hresponses.trans h) fun c' hc' => ?_
    rcases List.mem_append.mp hc' with hc' | hc'
    · exact hbefore c' hc'
    · rw [List.mem_singleton.mp hc']
      exact hread
  | read hndl h hgiven hopened hnames =>
    refine .read hndl (hresponses.trans h) (hgiven.trans_le (call_advances E s c s' o hcall))
      hopened fun json hjson => ?_
    exact hnames json
      ((reachable_numbered hreach).read_of_step (call_handlesStep hcall) hgiven hjson)

/-- The first read opens a handle for the decoded body. -/
theorem Caches.first (h : readHandle hndlResponse s.responses = some ⟨d, none⟩)
    (hbefore : ∀ c ∈ before, c.readsData hndlResponse = false)
    (hreach : (system E).Reachable s) (hd : d.Accepted)
    (hread : ReadsData E hndlResponse s₁ calls before none s s' o) :
    o = .handle s.nextHandle ∧ readHandle hndlResponse s'.responses = some ⟨d, some s.nextHandle⟩ ∧
      s.nextHandle < s'.nextHandle ∧ OpenedByData E hndlResponse s₁ calls s.nextHandle ∧
      ∃ json, readHandle s.nextHandle s'.handles = some json ∧
        DecodedBody E hndlResponse s₁ calls d json := by
  cases hdata : getResponseData_read hread.returns with
  | closed hclosed =>
    rw [h] at hclosed
    cases hclosed
  | cached response hndlData hresponse hsome =>
    obtain rfl := Option.some.inj (h.symm.trans hresponse)
    cases hsome
  | invalid response heap hresponse hnone hloads =>
    obtain rfl := Option.some.inj (h.symm.trans hresponse)
    have hsome := (jsonLoads_isSome_iff (reachable_balanced hreach) hloads).mpr hd
    cases hsome
  | opened response json heap hresponse hnone hloads =>
    obtain rfl := Option.some.inj (h.symm.trans hresponse)
    have hnew : readHandle s.nextHandle ((s.nextHandle, json) :: s.handles) = some json := by
      rw [readHandle_cons, if_pos rfl]
    refine ⟨rfl, readHandle_updateHandle_self (by rw [h]; rfl), Nat.lt_succ_self _,
      ⟨before, none, s, _, _, hread, ?_, ?_⟩, json, hnew,
      ⟨before, none, s, _, _, heap, hread, hbefore, hloads⟩⟩
    · exact (reachable_numbered hreach).read_of_not_given le_rfl
    · show (readHandle s.nextHandle ((s.nextHandle, json) :: s.handles)).isSome = true
      rw [hnew]
      rfl
  | refused response json heap heap' err hresponse hnone hloads hrefused => cases hrefused

/-- The property of a read, from what the response remembers before it. -/
theorem Caches.data (h : Caches E hndlResponse s₁ calls d before s)
    (hreach : (system E).Reachable s) (hd : d.Accepted)
    (hspares : (Call.getResponseData hndlResponse refused).sparesData hndlResponse s = true)
    (hread : ReadsData E hndlResponse s₁ calls before refused s s' o) :
    Caches E hndlResponse s₁ calls d (before ++ [.getResponseData hndlResponse refused]) s' ∧
      ∃ hndl json, o = .handle hndl ∧ readHandle hndl s'.handles = some json ∧
        DecodedBody E hndlResponse s₁ calls d json := by
  cases h with
  | unread h hbefore =>
    obtain rfl : refused = none := by simpa [Call.sparesData, h] using hspares
    obtain ⟨ho, hresponse, hgiven, hopened, json, hjson, hdecoded⟩ :=
      Caches.first h hbefore hreach hd hread
    refine ⟨.read s.nextHandle hresponse hgiven hopened fun json' hjson' => ?_,
      s.nextHandle, json, ho, hjson, hdecoded⟩
    rw [hjson] at hjson'
    cases hjson'
    exact hdecoded
  | read hndl h hgiven hopened hnames =>
    obtain ⟨json, hjson⟩ : ∃ json, readHandle hndl s.handles = some json := by
      rw [← Option.isSome_iff_exists]
      simpa [Call.sparesData, h] using hspares
    have hsame : getResponseData E s hndlResponse refused = some (s, .handle hndl) :=
      Remembers.read ⟨_, h, rfl⟩ refused
    cases hsame.symm.trans hread.returns
    exact ⟨.read hndl h hgiven hopened hnames, hndl, json, rfl, hjson, hnames json hjson⟩

/-- The step of the induction over the run. -/
theorem Caches.step (h : Caches E hndlResponse s₁ calls d before s)
    (hreach : (system E).Reachable s) (hd : d.Accepted) (hplace : before ++ [c] <+: calls)
    (hrun : (system E).run s₁ before = some s) (hc : c.inCallback = true)
    (hspares : c.sparesData hndlResponse s = true) (hcall : call E s c = some (s', o)) :
    Caches E hndlResponse s₁ calls d (before ++ [c]) s' := by
  by_cases hread : c.readsData hndlResponse = true
  · obtain ⟨refused, rfl⟩ := eq_of_readsData hread
    exact (h.data hreach hd hspares ⟨hplace, hrun, hcall⟩).1
  · exact h.other hreach hc (Bool.not_eq_true _ ▸ hread) hcall

theorem reachable_run (hreach : (system E).Reachable s₁) (hrun : (system E).run s₁ before = some s) :
    (system E).Reachable s := by
  obtain ⟨first, hfirst⟩ := hreach
  exact ⟨first ++ before, (system E).run_append.mpr ⟨s₁, hfirst, hrun⟩⟩

theorem caches_of_along (hreach : (system E).Reachable s₁) (hd : d.Accepted)
    (hopened : readHandle hndlResponse s₁.responses = some ⟨d, none⟩)
    (hcallback : ∀ c ∈ calls, c.inCallback = true)
    (halong : (system E).Along (fun s c => c.sparesData hndlResponse s = true) s₁ calls)
    (hplace : before <+: calls) (hrun : (system E).run s₁ before = some s) :
    Caches E hndlResponse s₁ calls d before s := by
  refine Transition.System.run_history (I := Caches E hndlResponse s₁ calls d) ?_ ?_ hplace hrun
  · exact .unread hopened (by simp)
  · intro before c t u hplace hrun h hstep
    obtain ⟨⟨u, o⟩, hcall, rfl⟩ := Option.map_eq_some_iff.mp hstep
    have hc : c ∈ calls := hplace.subset (List.mem_append_right _ (List.mem_singleton_self c))
    exact h.step (reachable_run hreach hrun) hd hplace hrun (hcallback c hc)
      (Transition.System.along_iff.mp halong before c t hplace hrun) hcall

theorem closeHandle_other {hndl' : ℕ} (hne : hndl ≠ hndl')
    (h : closeHandle E s hndl' = some (s', o)) :
    readHandle hndl s'.handles = readHandle hndl s.handles := by
  unfold closeHandle at h
  split at h
  · cases h
    rfl
  · next json handles htake =>
    obtain ⟨heap, -, heq⟩ := Option.map_eq_some_iff.mp h
    cases heq
    exact readHandle_of_takeHandle htake hne

/-- A read that returns an open handle was spared. -/
theorem sparesData_of_usable
    (hread : getResponseData E s hndlResponse refused = some (s', .handle hndl))
    (hopen : (readHandle hndl s'.handles).isSome) :
    (Call.getResponseData hndlResponse refused).sparesData hndlResponse s = true := by
  generalize ho : Outcome.handle hndl = o at hread
  cases getResponseData_read hread with
  | closed => cases ho
  | cached response hndlData hresponse hdata =>
    cases ho
    simp [Call.sparesData, hresponse, hdata, hopen]
  | invalid => cases ho
  | opened response json heap hresponse hdata hloads hgranted =>
    simp [Call.sparesData, hresponse, hdata, hgranted]
  | refused => cases ho

/-- Two reads return the same handle. -/
theorem readsData_same {between : List Call} {refused' : Option ℕ} {u u' : State} {hndl' : ℕ}
    (hcallback : ∀ c ∈ calls, c.inCallback = true)
    (hfirst : ReadsData E hndlResponse s₁ calls before refused s s' (.handle hndl))
    (hsecond : ReadsData E hndlResponse s₁ calls
      (before ++ .getResponseData hndlResponse refused :: between) refused' u u' (.handle hndl')) :
    hndl' = hndl := by
  obtain ⟨v, hv, hrest⟩ := (system E).run_append.mp hsecond.run
  obtain rfl := Option.some.inj (hfirst.run.symm.trans hv)
  obtain ⟨w, hw, hbetween⟩ := (system E).run_cons.mp hrest
  obtain rfl : w = s' := by
    rw [system_step (c := .getResponseData hndlResponse refused) hfirst.returns] at hw
    exact (Option.some.inj hw).symm
  have hmem (c : Call) (hc : c ∈ between) : c.inCallback = true := by
    refine hcallback c (hsecond.place.subset ?_)
    simp [hc]
  have hremembers := (remembers_of_read hfirst.returns).run hmem hbetween
  have hagain := hremembers.read (E := E) refused'
  rw [hsecond.returns] at hagain
  cases hagain
  rfl

/-- What `OnCompleted` closes at its end is the handle that the response remembers. -/
theorem Caches.cleanup {t' : State} (h : Caches E hndlResponse s₁ calls d before t)
    (hclose : closeResponse E t hndlResponse = some (t', o))
    (hopen : (readHandle hndl t.handles).isSome) (hclosed : readHandle hndl t'.handles = none) :
    OpenedByData E hndlResponse s₁ calls hndl := by
  cases h with
  | unread h hbefore =>
    obtain ⟨⟨response, responses⟩, htake, rfl⟩ := Option.map_eq_some_iff.mp h
    simp only [closeResponse, htake] at hclose
    cases hclose
    rw [hclosed] at hopen
    cases hopen
  | read hndlData h hgiven hopened hnames =>
    obtain ⟨⟨response, responses⟩, htake, rfl⟩ := Option.map_eq_some_iff.mp h
    simp only [closeResponse, htake] at hclose
    by_cases hne : hndl = hndlData
    · rw [hne]
      exact hopened
    · rw [closeHandle_other hne hclose] at hclosed
      rw [hclosed] at hopen
      cases hopen

/-- `Data` is usable throughout a callback exactly when the host grants its handle and the plugin
stops reading it once it has closed it. -/
theorem dataUsable_iff (E : Host) {s s₁ t : State} {d : Document} {hndlResponse : ℕ}
    {calls : List Call} (hreach : (system E).Reachable s) (hd : d.Accepted)
    (hopen : openResponse s d = some (s₁, .handle hndlResponse))
    (hcallback : ∀ c ∈ calls, c.inCallback = true)
    (hrun : (system E).run s₁ calls = some t) :
    DataUsable E hndlResponse s₁ calls d t ↔
      (system E).Along (fun s c => c.sparesData hndlResponse s = true) s₁ calls := by
  have hreach₁ : (system E).Reachable s₁ := hreach.step (system_step (c := .openResponse d) hopen)
  have hopened : readHandle hndlResponse s₁.responses = some ⟨d, none⟩ := by
    cases hopen
    rw [readHandle_cons, if_pos rfl]
  constructor
  · intro h
    refine Transition.System.along_iff.mpr fun before c u hplace hu => ?_
    by_cases hc : c.readsData hndlResponse = true
    · obtain ⟨refused, rfl⟩ := eq_of_readsData hc
      obtain ⟨v, hv⟩ := Transition.System.enabled_of_run hrun hplace hu
      obtain ⟨⟨v, o⟩, hcall, rfl⟩ := Option.map_eq_some_iff.mp hv
      obtain ⟨hndl, json, rfl, hjson, -⟩ := h.usable before refused u v o ⟨hplace, hu, hcall⟩
      exact sparesData_of_usable hcall (Option.isSome_iff_exists.mpr ⟨json, hjson⟩)
    · exact sparesData_of_not_readsData hc
  · intro halong
    have hcaches {before : List Call} {u : State} (hplace : before <+: calls)
        (hu : (system E).run s₁ before = some u) :=
      caches_of_along hreach₁ hd hopened hcallback halong hplace hu
    refine ⟨fun before refused u u' o hread => ?_, ?_, fun t' o hndl hclose hopen hclosed => ?_⟩
    · have hspares := Transition.System.along_iff.mp halong before _ u hread.place hread.run
      have hplace := (List.prefix_append before _).trans hread.place
      exact ((hcaches hplace hread.run).data (reachable_run hreach₁ hread.run) hd hspares hread).2
    · intro before between refused refused' u u' v v' hndl hndl' hfirst hsecond _
      exact readsData_same hcallback hfirst hsecond
    · exact (hcaches List.prefix_rfl hrun).cleanup hclose hopen hclosed

end Runs

section Inputs

/-- The body `[]`. -/
def emptyArrayBody : Document := ⟨.array .closed, true, ⟨0, 0, []⟩⟩

/-- `Data` is read, put into an object of the plugin, read again, and closed. -/
def dataRun : List Call :=
  [.getResponseData 1 none, .createObject none, .setObject 3 [97] (.handle 2),
    .getResponseData 1 none, .closeHandle 3, .closeHandle 2]

theorem dataRun_usable : ∃ s₁ t, openResponse .empty emptyArrayBody = some (s₁, .handle 1) ∧
    (system plainHost).run s₁ dataRun = some t ∧
    DataUsable plainHost 1 s₁ dataRun emptyArrayBody t := by
  obtain ⟨s₁, hopen⟩ : ∃ s₁, openResponse .empty emptyArrayBody = some (s₁, .handle 1) := ⟨_, rfl⟩
  have hs₁ := congrArg (Option.map Prod.fst) hopen
  have hrun : ((system plainHost).run s₁ dataRun).isSome = true := by
    cases hs₁
    decide
  have halong : decide ((system plainHost).Along
      (fun s c => c.sparesData 1 s = true) s₁ dataRun) = true := by
    cases hs₁
    decide
  obtain ⟨t, ht⟩ := Option.isSome_iff_exists.mp hrun
  exact ⟨s₁, t, hopen, ht, (dataUsable_iff plainHost ⟨[], rfl⟩ (by decide) hopen
    (List.all_eq_true.mp rfl) ht).mpr (of_decide_eq_true halong)⟩

/-- `Data` is read, closed, and read again. -/
def closedDataRun : List Call := [.getResponseData 1 none, .closeHandle 2, .getResponseData 1 none]

/-- The second read returns the closed handle. -/
theorem closedData_not_usable : ∃ s₁ t, emptyArrayBody.Accepted ∧
    openResponse .empty emptyArrayBody = some (s₁, .handle 1) ∧
    (∀ c ∈ closedDataRun, c.inCallback = true) ∧
    (system plainHost).run s₁ closedDataRun = some t ∧
    ¬DataUsable plainHost 1 s₁ closedDataRun emptyArrayBody t := by
  obtain ⟨s₁, hopen⟩ : ∃ s₁, openResponse .empty emptyArrayBody = some (s₁, .handle 1) := ⟨_, rfl⟩
  have hs₁ := congrArg (Option.map Prod.fst) hopen
  have hclosed : (((system plainHost).run s₁ [.getResponseData 1 none, .closeHandle 2]).bind
      fun s => (getResponseData plainHost s 1 none).map
        fun r => (r.2, readHandle 2 r.1.handles)) = some (.handle 2, none) := by
    cases hs₁
    decide
  obtain ⟨s, hs, hmap⟩ := Option.bind_eq_some_iff.mp hclosed
  obtain ⟨⟨s', o⟩, hread, heq⟩ := Option.map_eq_some_iff.mp hmap
  obtain ⟨rfl, hnone⟩ := Prod.mk.inj heq
  refine ⟨s₁, s', by decide, hopen, List.all_eq_true.mp rfl, ?_, fun h => ?_⟩
  · exact (system plainHost).run_append.mpr ⟨s, hs, (system plainHost).run_cons.mpr
      ⟨s', system_step (c := .getResponseData 1 none) hread, rfl⟩⟩
  · obtain ⟨hndl, json, ho, hjson, -⟩ := h.usable _ none s s' _ ⟨List.prefix_rfl, hs, hread⟩
    cases ho
    rw [hnone] at hjson
    cases hjson

end Inputs

end RipExt.Json
