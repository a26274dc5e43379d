import RipExt.Http.Configured

/-! Tables of open handles beside the history of the calls: what a call has to do so that every
object goes on to be what its own log says. The two classes of handles are told as one. -/
namespace RipExt.Http
open Json (readHandle takeHandle updateHandle)

section Tables
variable {α β : Type*} {table : List (ℕ × α)} {view : β → α} {log log' : ℕ → Option β} {hndl : ℕ}
  {x : α} {l : β}

/-- A table of open handles, and what each of them stands for. -/
structure Holds (table : List (ℕ × α)) (view : β → α) (log : ℕ → Option β) : Prop where
  nodup : (table.map (·.1)).Nodup
  read : ∀ hndl, readHandle hndl table = (log hndl).map view

/-- The table after the handle is freed, if it is open. -/
def dropHandle (hndl : ℕ) (table : List (ℕ × α)) : List (ℕ × α) :=
  ((takeHandle hndl table).map (·.2)).getD table

theorem readHandle_eq_none : readHandle hndl table = none ↔ hndl ∉ table.map (·.1) := by
  induction table with
  | nil => simp [readHandle, takeHandle]
  | cons y ys ih =>
    rw [Json.readHandle_cons, List.map_cons, List.mem_cons, not_or, ← ih]
    split_ifs with h
    · simp [h]
    · simp [Ne.symm h]

theorem updateHandle_keys (hndl : ℕ) (x : α) (table : List (ℕ × α)) :
    (updateHandle hndl x table).map (·.1) = table.map (·.1) := by
  induction table with
  | nil => rfl
  | cons y ys ih =>
    unfold updateHandle
    split_ifs with h
    · simp [h]
    · simp [ih]

theorem Holds.same (h : Holds table view log) (hlog : ∀ n, log' n = log n) :
    Holds table view log' :=
  ⟨h.nodup, fun n => by rw [h.read, hlog]⟩

theorem Holds.opened (h : Holds table view log) (hclosed : log hndl = none)
    (hl : log' hndl = some l) (hother : ∀ n, n ≠ hndl → log' n = log n) : Holds ((hndl, view l) :: table) view log' := by
  have hnew : hndl ∉ table.map (·.1) := by
    rw [← readHandle_eq_none, h.read, hclosed]
    rfl
  refine ⟨List.nodup_cons.mpr ⟨hnew, h.nodup⟩, fun n => ?_⟩
  rw [Json.readHandle_cons]
  split_ifs with heq
  · rw [← heq, hl]
    rfl
  · rw [h.read, hother n (Ne.symm heq)]

theorem Holds.changed (h : Holds table view log) (hopen : (log hndl).isSome)
    (hl : log' hndl = some l) (hother : ∀ n, n ≠ hndl → log' n = log n) :
    Holds (updateHandle hndl (view l) table) view log' := by
  refine ⟨(updateHandle_keys hndl (view l) table).symm ▸ h.nodup, fun n => ?_⟩
  by_cases heq : n = hndl
  · rw [heq, hl]
    exact Json.readHandle_updateHandle_self (by rw [h.read, Option.isSome_map, hopen])
  · rw [Json.readHandle_updateHandle_of_ne heq, h.read, hother n heq]

theorem Holds.dropped (h : Holds table view log) (hl : log' hndl = none)
    (hother : ∀ n, n ≠ hndl → log' n = log n) : Holds (dropHandle hndl table) view log' := by
  unfold dropHandle
  cases htake : takeHandle hndl table with
  | none =>
    have hclosed : (log hndl).map view = none := by rw [← h.read, readHandle, htake]; rfl
    refine h.same fun n => ?_
    by_cases heq : n = hndl
    · rw [heq, hl, Option.map_eq_none_iff.mp hclosed]
    · exact hother n heq
  | some r =>
    have hperm := (Json.takeHandle_perm htake).map (·.1)
    have hnodup : (((hndl, r.1) :: r.2).map (·.1)).Nodup := hperm.nodup_iff.mp h.nodup
    rw [List.map_cons, List.nodup_cons] at hnodup
    refine ⟨hnodup.2, fun n => ?_⟩
    by_cases heq : n = hndl
    · rw [heq, hl]
      exact readHandle_eq_none.mpr hnodup.1
    · exact (Json.readHandle_of_takeHandle htake heq).trans (by rw [h.read, hother n heq])

theorem Holds.taken (h : Holds table view log) (created : Except ℕ ℕ) :
    (created.toOption.all fun hndl => (readHandle hndl table).isNone) =
      !created.toOption.any fun hndl => (log hndl).isSome := by
  cases created with
  | error err => rfl
  | ok hndl =>
    show (readHandle hndl table).isNone = !(log hndl).isSome
    rw [h.read]
    cases log hndl <;> rfl

/-- The object of a log goes through the changes that are added to it. -/
theorem view_adds {δ : Type*} {add : β → List δ → β} {apply : α → δ → α} (hnil : ∀ l, add l [] = l)
    (hcons : ∀ l x xs, add l (x :: xs) = add (add l [x]) xs)
    (hview : ∀ l x, view (add l [x]) = apply (view l) x) (l : β) (changes : List δ) :
    view (add l changes) = changes.foldl apply (view l) := by
  induction changes generalizing l with
  | nil => rw [hnil]; rfl
  | cons x changes ih => rw [hcons, ih, hview]; rfl

end Tables

section Steps
variable {V : Env} {w u : World} {h : History} {c : NativeCall} {e : NativeCall × Output} {hndl : ℕ}
  {a : Answer} {queued : List HTTPContext} {logged : List String}

/-- The tables of a world are what the history tells. -/
structure Remembers (V : Env) (w : World) (h : History) : Prop where
  requests : Holds w.requests RequestLog.request (requestLog · h)
  clients : Holds w.clients ClientLog.client (clientLog · h)
  json : w.json = jsonAfter V.host h
  forwards : w.nextForward = forwardsMade h

theorem requestLog_concat (hndl : ℕ) (h : History) (e : NativeCall × Output) :
    requestLog hndl (h ++ [e]) = requestStep hndl (requestLog hndl h) e := by
  simp [requestLog]

theorem clientLog_concat (hndl : ℕ) (h : History) (e : NativeCall × Output) :
    clientLog hndl (h ++ [e]) = clientStep hndl (clientLog hndl h) e := by
  simp [clientLog]

theorem forwardsMade_concat (h : History) (e : NativeCall × Output) :
    forwardsMade (h ++ [e]) = forwardsMade h + if allocatesForward e then 1 else 0 := by
  simp [forwardsMade, List.countP_append, List.countP_singleton]

/-- A call is answered as the history tells, and the tables are right after it. -/
structure Keeps (V : Env) (w : World) (h : History) (c : NativeCall) : Prop where
  answer : ((natives V).step w c).map (·.1) = expected V h c
  remembers : ∀ o u, (natives V).step w c = some (o, u) → Remembers V u (h ++ [(c, o)])

theorem Keeps.of_none (hnative : w.native V c = none) (hexpected : expected V h c = none) :
    Keeps V w h c := by
  have hstep : (natives V).step w c = none := by simp [natives, hnative]
  refine ⟨by rw [hstep, hexpected]; rfl, fun o u hsome => ?_⟩
  rw [hstep] at hsome
  cases hsome

theorem Keeps.of_some (hnative : w.native V c = some (a, u)) (hqueue : u.queue = w.queue ++ queued)
    (hlog : u.log = w.log ++ logged) (hexpected : expected V h c = some ⟨a, queued, logged⟩)
    (hremembers : Remembers V u (h ++ [(c, ⟨a, queued, logged⟩)])) : Keeps V w h c := by
  have hstep : (natives V).step w c = some (⟨a, queued, logged⟩, u) := by
    simp [natives, hnative, hqueue, hlog]
  refine ⟨by rw [hstep, hexpected]; rfl, fun o t hsome => ?_⟩
  obtain ⟨rfl, rfl⟩ := Prod.mk.inj (Option.some.inj (hstep.symm.trans hsome))
  exact hremembers

theorem Remembers.concat (hw : Remembers V w h)
    (hrequests : Holds u.requests RequestLog.request fun n => requestStep n (requestLog n h) e)
    (hclients : Holds u.clients ClientLog.client fun n => clientStep n (clientLog n h) e)
    (hjson : u.json = jsonStep V.host w.json e)
    (hforwards : u.nextForward = w.nextForward + if allocatesForward e then 1 else 0) :
    Remembers V u (h ++ [e]) where
  requests := by simpa only [requestLog_concat] using hrequests
  clients := by simpa only [clientLog_concat] using hclients
  json := by rw [hjson, hw.json, jsonAfter, jsonAfter, List.foldl_append]; rfl
  forwards := by rw [hforwards, hw.forwards, forwardsMade_concat]

theorem RequestLog.add_nil (l : RequestLog) : l.add [] = l := by simp [add]

theorem ClientLog.add_nil (l : ClientLog) : l.add [] = l := by simp [add]

/-- A call that neither opens nor changes nor ends a request. -/
theorem requestStep_same {o : Output} {log : Option RequestLog} {hndl' : ℕ}
    (hc : requestStep hndl' log (c, o) = log.map (·.add [])) :
    requestStep hndl' log (c, o) = log := by
  rw [hc]
  simp [RequestLog.add_nil]

theorem clientStep_same {o : Output} {log : Option ClientLog} {hndl' : ℕ}
    (hc : clientStep hndl' log (c, o) = log.map (·.add [])) :
    clientStep hndl' log (c, o) = log := by
  rw [hc]
  simp [ClientLog.add_nil]

/-- A call that neither sends nor goes to the JSON store. -/
def NativeCall.isPlain : NativeCall → Bool
  | .send .. | .json _ => false
  | _ => true

/-- A send that throws changes nothing. -/
theorem Keeps.sendThrows (hw : Remembers V w h) {n : Send} {value : Int32} {o : ForwardOutcome}
    {error : SendError} (herror : error ≠ .noForward)
    (hsend : send V w n hndl value o = some (w, .thrown error))
    (hexpected : expected V h (.send n hndl value o) = some (.throws (.send error))) :
    Keeps V w h (.send n hndl value o) := by
  refine .of_some (a := .thrown (.send error)) (u := w) ?_ (List.append_nil _).symm
    (List.append_nil _).symm hexpected (hw.concat (hw.requests.same fun m => ?_)
      (hw.clients.same fun m => clientStep_same rfl) rfl ?_)
  · simp [World.native, hsend, SendOutcome.answer]
  · simp [requestStep]
  · simp [allocatesForward, herror]

end Steps

section Sides
variable {V : Env} {w u : World} {h : History} {c : NativeCall} {e : NativeCall × Output} {hndl : ℕ}
  {a : Answer} {queued : List HTTPContext} {logged : List String}

/-- One class of handles: its table in the world, the object that a log stands for, and how a call
is told in a log. A call that the class owns is not told in the logs of the other class. -/
structure Side (V : Env) (α β : Type) where
  table : World → List (ℕ × α)
  put : World → List (ℕ × α) → World
  view : β → α
  step : ℕ → Option β → NativeCall × Output → Option β
  Owns : NativeCall → Prop
  put_table (w : World) : put w (table w) = w
  put_queue (w : World) (t : List (ℕ × α)) : (put w t).queue = w.queue
  put_log (w : World) (t : List (ℕ × α)) : (put w t).log = w.log
  holds {w : World} {h : History} (hw : Remembers V w h) :
    Holds (table w) view fun hndl => h.foldl (step hndl) none
  remembers {w v : World} {h : History} {e : NativeCall × Output} {t : List (ℕ × α)}
    (hw : Remembers V w h) (howns : Owns e.1)
    (hsame : v.requests = w.requests ∧ v.clients = w.clients)
    (hholds : Holds t view fun hndl => step hndl (h.foldl (step hndl) none) e)
    (hjson : v.json = jsonStep V.host w.json e)
    (hforwards : v.nextForward = w.nextForward + if allocatesForward e then 1 else 0) :
    Remembers V (put v t) (h ++ [e])

namespace Side
variable {α β : Type} (K : Side V α β)

def log (hndl : ℕ) (h : History) : Option β := h.foldl (K.step hndl) none

theorem read (hw : Remembers V w h) (hndl : ℕ) :
    readHandle hndl (K.table w) = (K.log hndl h).map K.view := (K.holds hw).read hndl

/-- A call of the class that leaves the JSON store and the forwards as they are. -/
theorem keeps_plain {t : List (ℕ × α)} (hw : Remembers V w h) (howns : K.Owns c)
    (hplain : c.isPlain = true) (hnative : w.native V c = some (a, K.put w t))
    (hexpected : expected V h c = some ⟨a, [], []⟩)
    (hholds : Holds t K.view fun n => K.step n (K.log n h) (c, ⟨a, [], []⟩)) : Keeps V w h c := by
  have hrest : jsonStep V.host w.json (c, ⟨a, [], []⟩) = w.json ∧
      allocatesForward (c, ⟨a, [], []⟩) = false := by
    cases c <;> first | exact ⟨rfl, rfl⟩ | cases hplain
  refine .of_some hnative (by rw [K.put_queue, List.append_nil])
    (by rw [K.put_log, List.append_nil]) hexpected (K.remembers hw howns ⟨rfl, rfl⟩ hholds hrest.1.symm ?_)
  rw [hrest.2]
  rfl

/-- A call that answers from one object alone, and changes it by what it adds to the log. -/
theorem changes (answer : α → Answer) (change : α → α) (add : ℕ → β → β) (error : NativeError)
    (hw : Remembers V w h) (howns : K.Owns c) (hplain : c.isPlain = true)
    (hnative : w.native V c = some ((readHandle hndl (K.table w)).elim (.thrown error, w) fun x =>
      (answer x, K.put w (updateHandle hndl (change x) (K.table w)))))
    (hexpected : expected V h c = some ((K.log hndl h).elim (.throws error) fun l =>
      ⟨answer (K.view l), [], []⟩))
    (hstep : ∀ n log o, K.step n log (c, o) = log.map (add n))
    (hview : ∀ l, K.view (add hndl l) = change (K.view l))
    (hother : ∀ n l, n ≠ hndl → add n l = l) : Keeps V w h c := by
  have hsame (o : Output) (n : ℕ) (hne : n ≠ hndl) : K.step n (K.log n h) (c, o) = K.log n h := by
    rw [hstep]
    cases K.log n h with
    | none => rfl
    | some l => exact congrArg some (hother n l hne)
  rw [K.read hw] at hnative
  cases hlog : K.log hndl h with
  | none =>
    rw [hlog] at hnative hexpected
    refine K.keeps_plain hw howns hplain (t := K.table w) ?_ hexpected
      ((K.holds hw).same fun n => ?_)
    · rw [K.put_table]
      exact hnative
    · by_cases hn : n = hndl
      · rw [hn, hstep, hlog]
        exact hlog.symm
      · exact hsame _ n hn
  | some l =>
    rw [hlog] at hnative hexpected
    simp only [Option.map_some, Option.elim_some, ← hview] at hnative
    refine K.keeps_plain hw howns hplain hnative hexpected
      ((K.holds hw).changed (Option.isSome_iff_exists.mpr ⟨l, hlog⟩) ?_ (hsame _))
    rw [hstep, hlog]
    rfl

/-- A constructor with its object, if there is one, and with the result of `CreateHandleEx`. -/
def create (w : World) (made : Except CollectError α) (refused : ℕ → NativeError)
    (created : Except ℕ ℕ) : Answer × World :=
  match made, created with
  | .error error, _ => (.thrown (.collect error), w)
  | .ok _, .error err => (.thrown (refused err), w)
  | .ok x, .ok hndl => (.handle hndl, K.put w ((hndl, x) :: K.table w))

theorem creates (fresh : β) {url : Bytes} {created : Except ℕ ℕ} {made : Except CollectError α}
    {empty : CollectError} {refused : ℕ → NativeError} (hw : Remembers V w h) (howns : K.Owns c)
    (hplain : c.isPlain = true)
    (hnative : w.native V c =
      if created.toOption.all fun hndl => (readHandle hndl (K.table w)).isNone then
        some (K.create w made refused created)
      else none)
    (hexpected : expected V h c =
      expectedCreation empty refused url (fun hndl => (K.log hndl h).isSome) created)
    (hmade : made = if url = [] then .error empty else .ok (K.view fresh))
    (hstep : ∀ n log o, K.step n log (c, o) = if o.answer = .handle n then some fresh else log) :
    Keeps V w h c := by
  have htaken : _ = !created.toOption.any fun hndl => (K.log hndl h).isSome :=
    (K.holds hw).taken created
  rw [htaken] at hnative
  have hthrows (error : NativeError) : Holds (K.table w) K.view fun n =>
      K.step n (K.log n h) (c, ⟨.thrown error, [], []⟩) :=
    (K.holds hw).same fun n => (hstep n _ _).trans (if_neg (by simp))
  unfold expectedCreation at hexpected
  cases hany : created.toOption.any fun hndl => (K.log hndl h).isSome with
  | true =>
    rw [hany] at hnative hexpected
    exact .of_none hnative hexpected
  | false =>
    rw [hany] at hnative hexpected
    simp only [Bool.not_false, if_true, Bool.false_eq_true, if_false] at hnative hexpected
    by_cases hurl : url = []
    · rw [if_pos hurl] at hexpected hmade
      refine K.keeps_plain hw howns hplain (t := K.table w) ?_ hexpected (hthrows _)
      rw [hnative, hmade, K.put_table]
      rfl
    · rw [if_neg hurl] at hexpected hmade
      cases created with
      | error err =>
        refine K.keeps_plain hw howns hplain (t := K.table w) ?_ hexpected (hthrows _)
        rw [hnative, hmade, K.put_table]
        rfl
      | ok hndl =>
        have hclosed : K.log hndl h = none := by simpa [Except.toOption] using hany
        refine K.keeps_plain hw howns hplain (t := (hndl, K.view fresh) :: K.table w) ?_ hexpected
          ((K.holds hw).opened hclosed ((hstep _ _ _).trans (if_pos rfl)) fun n hne => ?_)
        · rw [hnative, hmade]
          rfl
        · exact (hstep _ _ _).trans (if_neg (by simpa using hne.symm))

theorem closes (hw : Remembers V w h) (howns : K.Owns c) (hplain : c.isPlain = true)
    (hnative : w.native V c = some (.closed, K.put w (dropHandle hndl (K.table w))))
    (hexpected : expected V h c = some ⟨.closed, [], []⟩)
    (hstep : ∀ n log o, K.step n log (c, o) = if hndl = n then none else log) : Keeps V w h c := by
  refine K.keeps_plain hw howns hplain hnative hexpected
    ((K.holds hw).dropped ((hstep _ _ _).trans (if_pos rfl)) fun n hne => ?_)
  exact (hstep _ _ _).trans (if_neg hne.symm)

/-- A native that sends, when its handles are read: without a forward it ends with `failed` and logs
`logged`, and with one it leaves `used` of its table. -/
def dispatch (w : World) (o : ForwardOutcome) (failed : SendOutcome) (logged : List String)
    (used : List (ℕ × α)) (context : ℕ → Option HTTPContext) : SendResult :=
  match (w.createForward o).1 with
  | none => some (K.put { (w.createForward o).2 with log := w.log ++ logged } (K.table w), failed)
  | some forward => (context forward).map fun context =>
      (K.put ((w.createForward o).2.addRequestToQueue context) used, .returned)

/-- A native that sends: `context` makes what is sent of the forward, of the JSON value and of the
object. -/
theorem sends (context : ℕ → Json.Store → Json.Pointer → α → Option HTTPContext) {n : Send}
    {value : Int32} {o : ForwardOutcome} {invalid missing : SendError} {failed : SendOutcome} {logged : List String}
    {used : List (ℕ × α)} (hw : Remembers V w h) (howns : K.Owns (.send n hndl value o))
    (herrors : invalid ≠ .noForward ∧ missing ≠ .noForward)
    (hfailed : failed = .returned ∨ failed = .thrown .noForward)
    (hsend : send V w n hndl value o =
      (readHandle hndl (K.table w)).elim (some (w, .thrown invalid)) fun x =>
        (n.pointer w.json.handles).elim (some (w, .thrown missing)) fun data =>
          K.dispatch w o failed logged used fun forward => context forward w.json.heap data x)
    (hexpected : expected V h (.send n hndl value o) =
      (K.log hndl h).elim (some (.throws (.send invalid))) fun l =>
        (n.pointer (jsonAfter V.host h).handles).elim (some (.throws (.send missing))) fun data =>
          if o = .created then
            (context (forwardsMade h) (jsonAfter V.host h).heap data (K.view l)).map
              Output.ofContext
          else some ⟨failed.answer, [], logged⟩)
    (hkept : ∀ m, K.step m (K.log m h) (.send n hndl value o, ⟨failed.answer, [], logged⟩) =
      K.log m h)
    (hused : ∀ context, Holds used K.view fun m =>
      K.step m (K.log m h) (.send n hndl value o, .ofContext context)) :
    Keeps V w h (.send n hndl value o) := by
  rw [K.read hw, hw.json] at hsend
  cases hlog : K.log hndl h with
  | none =>
    rw [hlog] at hsend hexpected
    exact .sendThrows hw herrors.1 hsend hexpected
  | some l =>
    rw [hlog] at hsend hexpected
    cases hpointer : n.pointer (jsonAfter V.host h).handles with
    | none =>
      simp only [hpointer, Option.map_some, Option.elim_some, Option.elim_none] at hsend hexpected
      exact .sendThrows hw herrors.2 hsend hexpected
    | some data =>
      simp only [hpointer, Option.map_some, Option.elim_some] at hsend hexpected
      by_cases ho : o = .created
      · subst ho
        rw [if_pos rfl] at hexpected
        have hforward : (w.createForward .created).1 = some (forwardsMade h) :=
          congrArg some hw.forwards
        rw [dispatch, hforward] at hsend
        dsimp only at hsend
        cases hcontext : context (forwardsMade h) (jsonAfter V.host h).heap data (K.view l) with
        | none =>
          rw [hcontext] at hsend hexpected
          exact .of_none (by rw [World.native, hsend]; rfl) hexpected
        | some context =>
          rw [hcontext] at hsend hexpected
          refine .of_some (a := .cell 1)
            (u := K.put ((w.createForward .created).2.addRequestToQueue context) used)
            (by rw [World.native, hsend]; rfl) (K.put_queue _ _)
            ((K.put_log _ _).trans (List.append_nil _).symm) hexpected
            (K.remembers hw howns ⟨rfl, rfl⟩ (hused context) rfl ?_)
          simp [allocatesForward, World.addRequestToQueue, World.createForward]
      · rw [if_neg ho] at hexpected
        have hforward : (w.createForward o).1 = none ∧
            (w.createForward o).2.requests = w.requests ∧
            (w.createForward o).2.clients = w.clients ∧ (w.createForward o).2.queue = w.queue ∧ (w.createForward o).2.json = w.json := by
          cases o with
          | created => exact absurd rfl ho
          | _ => exact ⟨rfl, rfl, rfl, rfl, rfl⟩
        obtain ⟨hnone, hrequests, hclients, hqueue, hjson⟩ := hforward
        rw [dispatch, hnone] at hsend
        refine .of_some (a := failed.answer)
          (u := K.put { (w.createForward o).2 with log := w.log ++ logged } (K.table w))
          (by rw [World.native, hsend]; rfl)
          ((K.put_queue _ _).trans (hqueue.trans (List.append_nil _).symm)) (K.put_log _ _)
          hexpected (K.remembers hw howns ⟨hrequests, hclients⟩ ((K.holds hw).same hkept) hjson ?_)
        cases o with
        | created => exact absurd rfl ho
        | noForward => rfl
        | addFunctionFails =>
          rcases hfailed with rfl | rfl <;>
            simp [allocatesForward, World.createForward, SendOutcome.answer]

end Side

end Sides

end RipExt.Http
