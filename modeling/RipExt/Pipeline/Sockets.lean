import RipExt.Foundation.Transition
import Mathlib.Tactic

/-! The sockets of curl on the libuv loop. curl keeps one pointer for each socket it has
registered, `CurlSocketCallback` stores a `CurlContext` there, and libuv deletes the context
some time after its poll handle has been closed. -/
namespace RipExt.Sockets

/-- `CURL_POLL_IN`, `CURL_POLL_OUT`, `CURL_POLL_INOUT` and `CURL_POLL_REMOVE`. -/
inductive PollAction where
  | input | output | inout | remove
  deriving DecidableEq, Repr

/-- A mask of `UV_READABLE` and `UV_WRITABLE`, or of `CURL_CSELECT_IN` and
`CURL_CSELECT_OUT`. -/
structure Events where
  readable : Bool
  writable : Bool
  deriving DecidableEq, Repr

/-- The mask curl asks for. -/
def PollAction.mask : PollAction → Events
  | .input => ⟨true, false⟩
  | .output => ⟨false, true⟩
  | .inout => ⟨true, true⟩
  | .remove => ⟨false, false⟩

/-- A context in memory, with the state of its poll handle: what it was last started for, and
whether `uv_close` has been called on it. -/
structure CurlContext where
  socket : ℕ
  events : Option Events
  closing : Bool
  deriving DecidableEq, Repr

/-- What the extension does with a context. -/
inductive Op where
  | create
  | pollStart (events : Events)
  | activity (socket : ℕ) (flags : Events)
  | destroy
  | delete
  deriving DecidableEq, Repr

/-- curl's entry of a registered socket: the pointer of `curl_multi_assign` and the latest
action. -/
structure Registration where
  socketp : Option ℕ
  action : PollAction
  deriving DecidableEq, Repr

/-- The sockets curl has registered and the contexts in memory, followed by everything that
was done with them. The address of a context is never given out twice. -/
structure State where
  sockets : ℕ → Option Registration
  contexts : ℕ → Option CurlContext
  next : ℕ
  history : List (ℕ × Op)

namespace State
variable (s : State)

def record (c : ℕ) (op : Op) : State := { s with history := s.history ++ [(c, op)] }

/-- `curl_multi_assign`, which knows registered sockets only. -/
def curlMultiAssign (socket : ℕ) (p : Option ℕ) : State :=
  { s with
    sockets := Function.update s.sockets socket
      ((s.sockets socket).map fun r => { r with socketp := p }) }

/-- `new CurlContext(socket)`. -/
def newCurlContext (socket : ℕ) : ℕ × State :=
  (s.next, { s with
    contexts := Function.update s.contexts s.next (some ⟨socket, none, false⟩)
    next := s.next + 1
    history := s.history ++ [(s.next, .create)] })

def uvPollStart (c : ℕ) (events : Events) : State :=
  { s with
    contexts := Function.update s.contexts c
      ((s.contexts c).map fun x => { x with events := some events })
    history := s.history ++ [(c, .pollStart events)] }

/-- `CurlContext::Destroy`. -/
def destroy (c : ℕ) : State :=
  { s with
    contexts := Function.update s.contexts c
      ((s.contexts c).map fun x => { x with events := none, closing := true })
    history := s.history ++ [(c, .destroy)] }

/-- `CurlContext::OnClosed`. -/
def onClosed (c : ℕ) : State :=
  { s with
    contexts := Function.update s.contexts c none
    history := s.history ++ [(c, .delete)] }

/-- The mask that the callback computes. -/
def events (action : PollAction) : Events := ⟨action ≠ .output, action ≠ .input⟩

def curlSocketCallback (socket : ℕ) (action : PollAction) (socketdata : Option ℕ) : State :=
  match action with
  | .input | .output | .inout =>
    let (c, s) := match socketdata with
      | some c => (c, s)
      | none => s.newCurlContext socket
    (s.curlMultiAssign socket (some c)).uvPollStart c (events action)
  | .remove =>
    match socketdata with
    | some c => (s.destroy c).curlMultiAssign socket none
    | none => s

/-- `CurlSocketActivity`, up to the call of `curl_multi_socket_action` for the socket it reads
in its context. -/
def curlSocketActivity (c : ℕ) (context : CurlContext) (events : Events) : State :=
  s.record c (.activity context.socket ⟨events.readable, events.writable⟩)

/-- curl's own entry, made before the first callback and kept up to date. -/
def register (socket : ℕ) (action : PollAction) : State :=
  { s with
    sockets := Function.update s.sockets socket
      (some ⟨(s.sockets socket).bind (·.socketp), action⟩) }

def unregister (socket : ℕ) : State :=
  { s with sockets := Function.update s.sockets socket none }

end State

/-- What curl and libuv call. -/
inductive Action where
  | socketCallback (socket : ℕ) (action : PollAction)
  | socketActivity (c : ℕ) (events : Events)
  | onClosed (c : ℕ)
  deriving DecidableEq, Repr

/-- curl hands over the pointer of the socket's current registration, none for a new one, and
drops the registration after `CURL_POLL_REMOVE`. libuv reports activity on a started handle
that is not closing, and runs `OnClosed` for one that is. -/
def step (s : State) : Action → Option State
  | .socketCallback socket .remove =>
    (s.sockets socket).map fun r =>
      (s.curlSocketCallback socket .remove r.socketp).unregister socket
  | .socketCallback socket action =>
    let s := s.register socket action
    some (s.curlSocketCallback socket action ((s.sockets socket).bind (·.socketp)))
  | .socketActivity c events =>
    (s.contexts c).bind fun x =>
      if x.closing = false ∧ x.events.isSome then some (s.curlSocketActivity c x events) else none
  | .onClosed c =>
    (s.contexts c).bind fun x => if x.closing then some (s.onClosed c) else none

/-- No socket is registered. -/
def State.loaded : State := ⟨fun _ => none, fun _ => none, 0, []⟩

def system : Transition.System State Action := ⟨.loaded, step⟩

section Lifetime

/-- Where a context is in its life. -/
inductive Stage where
  | absent | open | closing | deleted
  deriving DecidableEq, Repr

/-- A context is used between its creation and its `Destroy` only, and deleted after that. -/
def Stage.advance : Stage → Op → Option Stage
  | .absent, .create => some .open
  | .open, .pollStart _ => some .open
  | .open, .activity _ _ => some .open
  | .open, .destroy => some .closing
  | .closing, .delete => some .deleted
  | _, _ => none

/-- The stage that a sequence of operations leads to, if it is a life. -/
def lifetime (ops : List Op) : Option Stage := ops.foldlM Stage.advance .absent

theorem lifetime_append (ops ops' : List Op) :
    lifetime (ops ++ ops') = (lifetime ops).bind fun st => ops'.foldlM Stage.advance st := by
  unfold lifetime
  rw [List.foldlM_append]
  rfl

/-- The number of times a context has been closed and deleted. -/
theorem lifetime_count {ops : List Op} {st : Stage} (h : lifetime ops = some st) :
    ops.count .destroy = (if st = .closing ∨ st = .deleted then 1 else 0) ∧
      ops.count .delete = (if st = .deleted then 1 else 0) := by
  induction ops using List.reverseRecOn generalizing st with
  | nil =>
    obtain rfl := Option.some.inj h
    simp
  | append_singleton ops op ih =>
    rw [lifetime_append] at h
    obtain ⟨st', hst', hop⟩ := Option.bind_eq_some_iff.mp h
    obtain ⟨hdestroy, hdelete⟩ := ih hst'
    have hadvance : st'.advance op = some st := by simpa using hop
    cases st' <;> cases op <;> first | cases hadvance; simp_all | cases hadvance

/-- After its `Destroy` a context is deleted, once, and nothing else is done with it. -/
theorem lifetime_after_destroy {pre post : List Op} {op : Op} {st : Stage}
    (h : lifetime (pre ++ op :: post) = some st) (hdestroy : .destroy ∈ pre) :
    op = .delete ∧ .delete ∉ pre ∧ post = [] := by
  rw [lifetime_append] at h
  obtain ⟨st₁, hpre, hrest⟩ := Option.bind_eq_some_iff.mp h
  obtain ⟨st₂, hop, hpost⟩ := Option.bind_eq_some_iff.mp hrest
  obtain ⟨hcount, hdelete⟩ := lifetime_count hpre
  have hclosed : st₁ = .closing ∨ st₁ = .deleted := by
    by_contra hst
    rw [if_neg hst] at hcount
    exact List.count_eq_zero.mp hcount hdestroy
  rcases hclosed with rfl | rfl
  · cases op <;> cases hop
    refine ⟨rfl, List.count_eq_zero.mp (by simpa using hdelete), ?_⟩
    cases post with
    | nil => rfl
    | cons op' post =>
      rw [List.foldlM_cons, Option.bind_eq_bind] at hpost
      obtain ⟨st₃, hop', -⟩ := Option.bind_eq_some_iff.mp hpost
      cases op' <;> cases hop'
  · cases op <;> cases hop

end Lifetime

section Invariant
variable {s t : State}

def State.ops (s : State) (c : ℕ) : List Op := (s.history.filter (·.1 = c)).map (·.2)

/-- The stage of a context as the memory shows it. -/
def State.stage (s : State) (c : ℕ) : Stage :=
  match s.contexts c with
  | some x => if x.closing then .closing else .open
  | none => if c < s.next then .deleted else .absent

/-- Sockets and contexts that are not closing belong to each other one to one, and each context
is polled for the latest action of its socket. -/
structure Paired (sockets : ℕ → Option Registration) (contexts : ℕ → Option CurlContext) :
    Prop where
  registered : ∀ socket r, sockets socket = some r → r.action ≠ .remove ∧
    ∃ c, r.socketp = some c ∧ contexts c = some ⟨socket, some r.action.mask, false⟩
  owned : ∀ c x, contexts c = some x → x.closing = false →
    ∃ r, sockets x.socket = some r ∧ r.socketp = some c

structure State.Tracked (s : State) : Prop where
  paired : Paired s.sockets s.contexts
  fresh : ∀ c, s.next ≤ c → s.contexts c = none
  lived : ∀ c, lifetime (s.ops c) = some (s.stage c)

section Pairing
variable {S : ℕ → Option Registration} {C : ℕ → Option CurlContext} {socket c : ℕ}
  {r : Registration}

theorem Paired.context (h : Paired S C) (hr : S socket = some r) (hp : r.socketp = some c) :
    C c = some ⟨socket, some r.action.mask, false⟩ := by
  obtain ⟨-, d, hd, hctx⟩ := h.registered socket r hr
  obtain rfl := Option.some.inj (hp.symm.trans hd)
  exact hctx

/-- A context that belongs to `socket` or to no socket is started for it. -/
theorem Paired.start (h : Paired S C) {action : PollAction} (ha : action ≠ .remove)
    (hsocket : ∀ socket' r', S socket' = some r' → r'.socketp = some c → socket' = socket)
    (hcontext : ∀ r', S socket = some r' → r'.socketp = some c) :
    Paired (Function.update S socket (some ⟨some c, action⟩))
      (Function.update C c (some ⟨socket, some action.mask, false⟩)) := by
  refine ⟨fun socket' r' hr' => ?_, fun d x hd hx => ?_⟩
  · by_cases hsame : socket' = socket
    · subst hsame
      rw [Function.update_self] at hr'
      obtain rfl := Option.some.inj hr'
      exact ⟨ha, c, rfl, Function.update_self ..⟩
    · rw [Function.update_of_ne hsame] at hr'
      obtain ⟨ha', d, hp', hd⟩ := h.registered socket' r' hr'
      have hne : d ≠ c := by
        rintro rfl
        exact hsame (hsocket socket' r' hr' hp')
      exact ⟨ha', d, hp', by rw [Function.update_of_ne hne]; exact hd⟩
  · by_cases hsame : d = c
    · subst hsame
      rw [Function.update_self] at hd
      obtain rfl := Option.some.inj hd
      exact ⟨⟨some d, action⟩, Function.update_self .., rfl⟩
    · rw [Function.update_of_ne hsame] at hd
      obtain ⟨r', hr', hp'⟩ := h.owned d x hd hx
      have hne : x.socket ≠ socket := by
        intro heq
        rw [heq] at hr'
        exact hsame (Option.some.inj (hp'.symm.trans (hcontext r' hr')))
      exact ⟨r', by rw [Function.update_of_ne hne]; exact hr', hp'⟩

/-- The socket is dropped, and its context starts to close. -/
theorem Paired.close (h : Paired S C) (hr : S socket = some r) (hp : r.socketp = some c) :
    Paired (Function.update S socket none)
      (Function.update C c (some ⟨socket, none, true⟩)) := by
  refine ⟨fun socket' r' hr' => ?_, fun d x hd hx => ?_⟩
  · have hne : socket' ≠ socket := by
      rintro rfl
      rw [Function.update_self] at hr'
      cases hr'
    rw [Function.update_of_ne hne] at hr'
    obtain ⟨ha, d, hp', hd⟩ := h.registered socket' r' hr'
    have hdc : d ≠ c := by
      rintro rfl
      rw [h.context hr hp] at hd
      exact hne (CurlContext.mk.inj (Option.some.inj hd)).1.symm
    exact ⟨ha, d, hp', by rw [Function.update_of_ne hdc]; exact hd⟩
  · have hdc : d ≠ c := by
      rintro rfl
      rw [Function.update_self] at hd
      obtain rfl := Option.some.inj hd
      cases hx
    rw [Function.update_of_ne hdc] at hd
    obtain ⟨r', hr', hp'⟩ := h.owned d x hd hx
    have hne : x.socket ≠ socket := by
      intro heq
      rw [heq, hr] at hr'
      obtain rfl := Option.some.inj hr'
      exact hdc (Option.some.inj (hp'.symm.trans hp))
    exact ⟨r', by rw [Function.update_of_ne hne]; exact hr', hp'⟩

theorem Paired.delete (h : Paired S C) {x : CurlContext} (hc : C c = some x)
    (hx : x.closing = true) : Paired S (Function.update C c none) := by
  refine ⟨fun socket r hr => ?_, fun d y hd hy => ?_⟩
  · obtain ⟨ha, d, hp, hd⟩ := h.registered socket r hr
    have hne : d ≠ c := by
      rintro rfl
      rw [hc] at hd
      obtain rfl := Option.some.inj hd
      cases hx
    exact ⟨ha, d, hp, by rw [Function.update_of_ne hne]; exact hd⟩
  · have hne : d ≠ c := by
      rintro rfl
      rw [Function.update_self] at hd
      cases hd
    rw [Function.update_of_ne hne] at hd
    exact h.owned d y hd hy

end Pairing

theorem ops_of_history {c : ℕ} {ops : List Op}
    (h : t.history = s.history ++ ops.map fun op => (c, op)) (d : ℕ) :
    t.ops d = s.ops d ++ if d = c then ops else [] := by
  simp only [State.ops, h, List.filter_append, List.map_append]
  congr 1
  split_ifs with hd
  · simp [hd, List.filter_map, Function.comp_def]
  · simp [Ne.symm hd, List.filter_map, Function.comp_def]

/-- Operations on one context continue its life and leave those of the others alone. -/
theorem lived_of_ops {c : ℕ} (ops : List Op) (hs : ∀ d, lifetime (s.ops d) = some (s.stage d))
    (hhistory : t.history = s.history ++ ops.map fun op => (c, op))
    (hother : ∀ d, d ≠ c → t.stage d = s.stage d)
    (hops : ops.foldlM Stage.advance (s.stage c) = some (t.stage c)) (d : ℕ) :
    lifetime (t.ops d) = some (t.stage d) := by
  rw [ops_of_history hhistory, lifetime_append, hs d, Option.bind_some]
  split_ifs with hd
  · rw [hd]
    exact hops
  · rw [hother d hd]
    rfl

/-- `socket` is polled for `action` through the context `c`. -/
def State.started (s : State) (socket c : ℕ) (action : PollAction) (next : ℕ) (ops : List Op) :
    State where
  sockets := Function.update s.sockets socket (some ⟨some c, action⟩)
  contexts := Function.update s.contexts c (some ⟨socket, some action.mask, false⟩)
  next := next
  history := s.history ++ ops.map fun op => (c, op)

/-- `socket` is dropped and its context `c` is closing. -/
def State.closed (s : State) (socket c : ℕ) : State where
  sockets := Function.update s.sockets socket none
  contexts := Function.update s.contexts c (some ⟨socket, none, true⟩)
  next := s.next
  history := s.history ++ [(c, .destroy)]

/-- The callback for a socket that has a context: the handle is started anew. -/
theorem step_known {socket c : ℕ} {r : Registration} {action : PollAction}
    (hr : s.sockets socket = some r) (hp : r.socketp = some c)
    (hc : s.contexts c = some ⟨socket, some r.action.mask, false⟩) (ha : action ≠ .remove) :
    step s (.socketCallback socket action) =
      some (s.started socket c action s.next [.pollStart action.mask]) := by
  cases action with
  | remove => exact absurd rfl ha
  | input | output | inout =>
    simp [step, State.register, State.curlSocketCallback, State.curlMultiAssign,
      State.uvPollStart, State.events, PollAction.mask, State.started, hr, hp, hc]

/-- The callback for a new socket: it gets a context of its own. -/
theorem step_new {socket : ℕ} {action : PollAction} (hr : s.sockets socket = none)
    (ha : action ≠ .remove) :
    step s (.socketCallback socket action) =
      some (s.started socket s.next action (s.next + 1) [.create, .pollStart action.mask]) := by
  cases action with
  | remove => exact absurd rfl ha
  | input | output | inout =>
    simp [step, State.register, State.curlSocketCallback, State.curlMultiAssign,
      State.newCurlContext, State.uvPollStart, State.events, PollAction.mask, State.started, hr]

theorem step_remove {socket c : ℕ} {r : Registration} (hr : s.sockets socket = some r)
    (hp : r.socketp = some c) (hc : s.contexts c = some ⟨socket, some r.action.mask, false⟩) :
    step s (.socketCallback socket .remove) = some (s.closed socket c) := by
  simp [step, State.curlSocketCallback, State.destroy, State.curlMultiAssign, State.unregister,
    State.closed, hr, hp, hc]

/-- Everything the callback can do. -/
theorem callback_cases {socket : ℕ} {action : PollAction} (hs : s.Tracked)
    (h : step s (.socketCallback socket action) = some t) :
    (∃ r c, s.sockets socket = some r ∧ r.socketp = some c ∧
      ((action = .remove ∧ t = s.closed socket c) ∨
        (action ≠ .remove ∧ t = s.started socket c action s.next [.pollStart action.mask]))) ∨
    (s.sockets socket = none ∧ action ≠ .remove ∧
      t = s.started socket s.next action (s.next + 1) [.create, .pollStart action.mask]) := by
  cases hr : s.sockets socket with
  | some r =>
    obtain ⟨-, c, hp, hc⟩ := hs.paired.registered socket r hr
    refine .inl ⟨r, c, rfl, hp, ?_⟩
    by_cases ha : action = .remove
    · subst ha
      exact .inl ⟨rfl, Option.some.inj (h.symm.trans (step_remove hr hp hc))⟩
    · exact .inr ⟨ha, Option.some.inj (h.symm.trans (step_known hr hp hc ha))⟩
  | none =>
    have ha : action ≠ .remove := by
      rintro rfl
      simp [step, hr] at h
    exact .inr ⟨rfl, ha, Option.some.inj (h.symm.trans (step_new hr ha))⟩

/-- Activity and the end of a close. -/
theorem activity_cases {c : ℕ} {events : Events}
    (h : step s (.socketActivity c events) = some t) :
    ∃ x, s.contexts c = some x ∧ x.closing = false ∧ t = s.curlSocketActivity c x events := by
  obtain ⟨x, hc, hx⟩ := Option.bind_eq_some_iff.mp h
  split_ifs at hx with hopen
  exact ⟨x, hc, hopen.1, (Option.some.inj hx).symm⟩

theorem closed_cases {c : ℕ} (h : step s (.onClosed c) = some t) :
    ∃ x, s.contexts c = some x ∧ x.closing = true ∧ t = s.onClosed c := by
  obtain ⟨x, hc, hx⟩ := Option.bind_eq_some_iff.mp h
  split_ifs at hx with hclosing
  exact ⟨x, hc, hclosing, (Option.some.inj hx).symm⟩

theorem State.stage_open {c : ℕ} {x : CurlContext} (h : s.contexts c = some x)
    (hx : x.closing = false) : s.stage c = .open := by
  simp [State.stage, h, hx]

theorem State.stage_closing {c : ℕ} {x : CurlContext} (h : s.contexts c = some x)
    (hx : x.closing = true) : s.stage c = .closing := by
  simp [State.stage, h, hx]

theorem State.stage_congr {c : ℕ} (hcontexts : t.contexts c = s.contexts c)
    (hnext : c < t.next ↔ c < s.next) : t.stage c = s.stage c := by
  simp only [State.stage, hcontexts, hnext]

/-- Addresses that were not given out stay unused. -/
theorem fresh_update {C : ℕ → Option CurlContext} {c n m : ℕ} {y : Option CurlContext}
    (hfresh : ∀ d, n ≤ d → C d = none) (hc : c < m) (hnm : n ≤ m) (d : ℕ) (hd : m ≤ d) :
    Function.update C c y d = none := by
  rw [Function.update_of_ne (by omega)]
  exact hfresh d (by omega)

theorem State.Tracked.lt_next (hs : s.Tracked) {c : ℕ} {x : CurlContext}
    (hc : s.contexts c = some x) : c < s.next := by
  by_contra hle
  rw [hs.fresh c (by omega)] at hc
  cases hc

theorem started_tracked (hs : s.Tracked) {socket c n : ℕ} {action : PollAction} {ops : List Op}
    (ha : action ≠ .remove)
    (hsocket : ∀ socket' r', s.sockets socket' = some r' → r'.socketp = some c → socket' = socket)
    (hcontext : ∀ r', s.sockets socket = some r' → r'.socketp = some c)
    (hc : c < n) (hn : s.next ≤ n) (hother : ∀ d, d ≠ c → (d < n ↔ d < s.next))
    (hops : ops.foldlM Stage.advance (s.stage c) = some .open) :
    (s.started socket c action n ops).Tracked := by
  refine ⟨hs.paired.start ha hsocket hcontext, fresh_update hs.fresh hc hn, ?_⟩
  refine lived_of_ops ops hs.lived rfl (fun d hd => ?_) ?_
  · exact State.stage_congr (Function.update_of_ne hd ..) (hother d hd)
  · have hopen : (s.started socket c action n ops).stage c = .open :=
      State.stage_open (Function.update_self ..) rfl
    rw [hopen]
    exact hops

theorem callback_tracked {socket : ℕ} {action : PollAction} (hs : s.Tracked)
    (h : step s (.socketCallback socket action) = some t) : t.Tracked := by
  rcases callback_cases hs h with ⟨r, c, hr, hp, ⟨-, rfl⟩ | ⟨ha, rfl⟩⟩ | ⟨hr, ha, rfl⟩
  · have hc := hs.paired.context hr hp
    refine ⟨hs.paired.close hr hp, fresh_update hs.fresh (hs.lt_next hc) le_rfl, ?_⟩
    refine lived_of_ops [.destroy] hs.lived rfl (fun d hd => ?_) ?_
    · exact State.stage_congr (Function.update_of_ne hd ..) Iff.rfl
    · rw [State.stage_open hc rfl, State.stage_closing (Function.update_self ..) rfl]
      rfl
  · have hc := hs.paired.context hr hp
    refine started_tracked hs ha (fun socket' r' hr' hp' => ?_) (fun r' hr' => ?_)
      (hs.lt_next hc) le_rfl (fun _ _ => Iff.rfl) ?_
    · have hc' := hs.paired.context hr' hp'
      rw [hc] at hc'
      exact (CurlContext.mk.inj (Option.some.inj hc')).1.symm
    · rw [hr] at hr'
      obtain rfl := Option.some.inj hr'
      exact hp
    · rw [State.stage_open hc rfl]
      rfl
  · have hnone := hs.fresh s.next le_rfl
    refine started_tracked hs ha (fun socket' r' hr' hp' => ?_) (fun r' hr' => ?_)
      (Nat.lt_succ_self _) (Nat.le_succ _) (fun d hd => ?_) ?_
    · rw [hs.paired.context hr' hp'] at hnone
      cases hnone
    · rw [hr] at hr'
      cases hr'
    · omega
    · have habsent : s.stage s.next = .absent := by simp [State.stage, hnone]
      rw [habsent]
      rfl

theorem step_tracked {a : Action} (hs : s.Tracked) (h : step s a = some t) : t.Tracked := by
  cases a with
  | socketCallback socket action => exact callback_tracked hs h
  | socketActivity c events =>
    obtain ⟨x, hc, hx, rfl⟩ := activity_cases h
    refine ⟨hs.paired, hs.fresh, ?_⟩
    refine lived_of_ops [.activity x.socket events] hs.lived rfl (fun d _ => rfl) ?_
    have hopen : s.stage c = .open := State.stage_open hc hx
    have hopen' : (s.curlSocketActivity c x events).stage c = .open := State.stage_open hc hx
    rw [hopen, hopen']
    rfl
  | onClosed c =>
    obtain ⟨x, hc, hx, rfl⟩ := closed_cases h
    have hlt := hs.lt_next hc
    refine ⟨hs.paired.delete hc hx, fresh_update hs.fresh hlt le_rfl, ?_⟩
    refine lived_of_ops [.delete] hs.lived rfl (fun d hd => ?_) ?_
    · exact State.stage_congr (Function.update_of_ne hd ..) Iff.rfl
    · have hdeleted : (s.onClosed c).stage c = .deleted := by
        simp [State.stage, State.onClosed, hlt]
      rw [State.stage_closing hc hx, hdeleted]
      rfl

theorem tracked_loaded : State.loaded.Tracked := by
  refine ⟨⟨fun _ _ h => ?_, fun _ _ h => ?_⟩, fun _ _ => rfl, fun c => ?_⟩
  · cases h
  · cases h
  · simp [State.ops, State.stage, State.loaded, lifetime]

theorem reachable_tracked (h : system.Reachable s) : s.Tracked :=
  Transition.System.reachable_invariant tracked_loaded (fun _ _ _ => step_tracked) h

end Invariant

section Runs
variable {s t : State}

/-- The latest action of curl for a socket. -/
def latestAction (socket : ℕ) (run : List Action) : Option PollAction :=
  (run.filterMap fun a => match a with
    | .socketCallback k action => if k = socket then some action else none
    | .socketActivity .. | .onClosed _ => none).getLast?

/-- A socket is registered from its first action until `CURL_POLL_REMOVE`. -/
def Registered (run : List Action) (socket : ℕ) (action : PollAction) : Prop :=
  latestAction socket run = some action ∧ action ≠ .remove

/-- The context of a socket: in memory, and not closing. -/
def State.OpenContext (s : State) (socket c : ℕ) : Prop :=
  ∃ x, s.contexts c = some x ∧ x.socket = socket ∧ x.closing = false

theorem latestAction_append (socket : ℕ) (run : List Action) (a : Action) :
    latestAction socket (run ++ [a]) =
      match a with
      | .socketCallback k action => if k = socket then some action else latestAction socket run
      | .socketActivity .. | .onClosed _ => latestAction socket run := by
  cases a with
  | socketCallback k action =>
    by_cases hk : k = socket
    · simp [latestAction, hk]
    · simp [latestAction, hk]
  | socketActivity c events => simp [latestAction]
  | onClosed c => simp [latestAction]

/-- curl's table agrees with the latest actions. -/
theorem run_registered {run : List Action} (h : system.run .loaded run = some s) (socket : ℕ) :
    (s.sockets socket).map (·.action) =
      (latestAction socket run).filter fun action => action ≠ .remove := by
  induction run using List.reverseRecOn generalizing s with
  | nil =>
    obtain rfl := Option.some.inj h
    rfl
  | append_singleton run a ih =>
    obtain ⟨u, hu, hlast⟩ := system.run_append.mp h
    obtain ⟨t, ha, ht⟩ := system.run_cons.mp hlast
    obtain rfl := Option.some.inj ht
    have hbefore := ih hu
    rw [latestAction_append]
    cases a with
    | socketActivity c events =>
      obtain ⟨x, -, -, rfl⟩ := activity_cases ha
      exact hbefore
    | onClosed c =>
      obtain ⟨x, -, -, rfl⟩ := closed_cases ha
      exact hbefore
    | socketCallback k action =>
      by_cases hk : k = socket
      · subst hk
        rcases callback_cases (reachable_tracked ⟨run, hu⟩) ha with
          ⟨r, c, -, -, ⟨rfl, rfl⟩ | ⟨haction, rfl⟩⟩ | ⟨-, haction, rfl⟩
        · simp [State.closed, Option.filter]
        · simp [State.started, Option.filter, haction]
        · simp [State.started, Option.filter, haction]
      · have hsame : t.sockets socket = u.sockets socket := by
          rcases callback_cases (reachable_tracked ⟨run, hu⟩) ha with
            ⟨r, c, -, -, ⟨rfl, rfl⟩ | ⟨haction, rfl⟩⟩ | ⟨-, haction, rfl⟩
          · exact Function.update_of_ne (Ne.symm hk) ..
          · exact Function.update_of_ne (Ne.symm hk) ..
          · exact Function.update_of_ne (Ne.symm hk) ..
        rw [hsame, hbefore]
        simp [hk]

/-- What a step records, and when it closes a context. -/
theorem step_history {a : Action} (hs : s.Tracked) (h : step s a = some t) :
    ∃ (c : ℕ) (ops : List Op), t.history = s.history ++ ops.map (fun op => (c, op)) ∧
      (.destroy ∈ ops → ∃ socket r, a = .socketCallback socket .remove ∧
        s.sockets socket = some r ∧ r.socketp = some c) := by
  cases a with
  | socketActivity c events =>
    obtain ⟨x, -, -, rfl⟩ := activity_cases h
    exact ⟨c, [.activity x.socket events], rfl, by simp⟩
  | onClosed c =>
    obtain ⟨x, -, -, rfl⟩ := closed_cases h
    exact ⟨c, [.delete], rfl, by simp⟩
  | socketCallback socket action =>
    rcases callback_cases hs h with ⟨r, c, hr, hp, ⟨rfl, rfl⟩ | ⟨-, rfl⟩⟩ | ⟨-, -, rfl⟩
    · exact ⟨c, [.destroy], rfl, fun _ => ⟨socket, r, rfl, hr, hp⟩⟩
    · exact ⟨c, [.pollStart action.mask], rfl, by simp⟩
    · exact ⟨s.next, [.create, .pollStart action.mask], rfl, by simp⟩

/-- What holds of the contexts after a run of callbacks. -/
structure Sound (run : List Action) (s : State) : Prop where
  /-- A registered socket has exactly one context, polled for the latest action. -/
  context : ∀ socket action, Registered run socket action →
    ∃! c, s.OpenContext socket c ∧
      s.contexts c = some ⟨socket, some action.mask, false⟩
  /-- Only registered sockets have one, and no two share it. -/
  registered : ∀ socket c, s.OpenContext socket c → ∃ action, Registered run socket action
  distinct : ∀ socket socket' c, s.OpenContext socket c → s.OpenContext socket' c →
    socket = socket'
  /-- A context that was created is open, or closing with its `OnClosed` still to come, or
  deleted; it has been closed and deleted as often as that says. -/
  stages : ∀ c, c < s.next →
    ((∃ socket, s.OpenContext socket c) ∧ (s.ops c).count .destroy = 0 ∧
      (s.ops c).count .delete = 0) ∨
    ((step s (.onClosed c)).isSome ∧ (s.ops c).count .destroy = 1 ∧
      (s.ops c).count .delete = 0) ∨
    (s.contexts c = none ∧ (s.ops c).count .destroy = 1 ∧ (s.ops c).count .delete = 1)
  /-- After its `Destroy` a context is deleted, and nothing else is done with it. -/
  untouched : ∀ c pre op post, s.ops c = pre ++ op :: post → .destroy ∈ pre →
    op = .delete ∧ .delete ∉ pre ∧ post = []
  /-- A context is closed by the removal of its socket, and by nothing else. -/
  removal : ∀ c pre a post, run = pre ++ a :: post → ∀ u v, system.run .loaded pre = some u →
    step u a = some v → (v.ops c).count .destroy ≠ (u.ops c).count .destroy →
      ∃ socket, a = .socketCallback socket .remove ∧ u.OpenContext socket c

/-- A descriptor is used again before the context of its first use has been deleted. -/
def reuseRun : List Action :=
  [.socketCallback 5 .input, .socketCallback 7 .inout, .socketActivity 0 ⟨true, false⟩,
    .socketCallback 5 .remove, .socketCallback 5 .output, .onClosed 0, .socketCallback 7 .input]

end Runs

end RipExt.Sockets
