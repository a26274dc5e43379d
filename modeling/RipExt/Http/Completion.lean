import RipExt.Http.ResponseBody
import RipExt.Json.Tables
import RipExt.Pipeline.Conservation

/-! The life of a response: it is a member of its context, `OnCompleted` opens a handle to it for
the callback and frees it, and `FrameHook` deletes the context. The two threads run as in
`Machine.lean`, and the plugins use what handles they have stored. -/
namespace RipExt.Http
open Json (Host JsonError Double readHandle takeHandle Outcome)

section Handles

/-- Who asks the handle system. Core asks on behalf of the plugins. -/
inductive Identity where
  | core | extension
  | plugin (id : ℕ)
  deriving DecidableEq, Repr

/-- A handle without an owner was created with `NULL`. -/
structure HandleSecurity where
  owner : Option Identity
  identity : Identity
  deriving DecidableEq, Repr

/-- `HANDLE_RESTRICT_IDENTITY` admits the identity that registered the type,
`HANDLE_RESTRICT_OWNER` the owner of the handle. -/
inductive Restriction where
  | anyone | identity | owner
  deriving DecidableEq, Repr

structure HandleAccess where
  read : Restriction
  delete : Restriction
  clone : Restriction
  deriving DecidableEq, Repr

/-- `InitAccessDefaults`. -/
def accessDefaults : HandleAccess := ⟨.identity, .owner, .anyone⟩

/-- The access rights of htHTTPResponse, a type of the extension. -/
def haHTTPResponse : HandleAccess := { accessDefaults with clone := .identity }

def Restriction.permits (owner : Option Identity) (sec : HandleSecurity) : Restriction → Bool
  | .anyone => true
  | .identity => sec.identity = .extension
  | .owner => sec.owner = owner

/-- The security of `OnCompleted`. -/
def completedSecurity : HandleSecurity := ⟨none, .extension⟩

/-- The security of a native that the plugin calls. -/
def nativeSecurity (plugin : ℕ) : HandleSecurity := ⟨some (.plugin plugin), .extension⟩

/-- The security of `CloneHandle` and `CloseHandle` in a plugin. -/
def pluginSecurity (plugin : ℕ) : HandleSecurity := ⟨some (.plugin plugin), .core⟩

/-- An open htHTTPResponse handle: the address of the context that holds the response. -/
structure ResponseHandle where
  object : ℕ
  owner : Option Identity
  deriving DecidableEq, Repr

end Handles

section Runtime

/-- The `response` of a context. -/
structure ResponseObject where
  status : ℤ := 0
  headers : HTTPHeaderMap := []
  body : ResponseBody := {}
  hndlData : Option ℕ := none
  deriving DecidableEq, Repr

/-- The operations of `Natives.lean` on responses, which are run on the contexts here. -/
def onResponse : Json.Call → Bool
  | .openResponse _ | .getResponseData _ _ | .closeResponse _ => true
  | _ => false

/-- The response as `Natives.lean` has it. -/
def ResponseObject.toJson (strtod : Bytes → Option Double) (report : Bytes → JsonError)
    (r : ResponseObject) : Json.HTTPResponse := ⟨r.body.document strtod report, r.hndlData⟩

/-- The threads, the JSON natives, the responses of the contexts that are allocated, the open
handles to them, and the local variable of `OnCompleted` while its callback runs. -/
structure Runtime where
  pipeline : RipExt.State
  json : Json.State
  memory : ℕ → Option ResponseObject
  responses : List (ℕ × ResponseHandle)
  hndlResponse : Option ℕ

/-- What a native returns; nothing if it would read a context that is deleted. -/
abbrev RuntimeResult := Option (Runtime × Outcome)

namespace Runtime

def loaded : Runtime := ⟨.loaded, .empty, fun _ => none, [], none⟩

variable (E : Host) (strtod : Bytes → Option Double) (report : Bytes → JsonError) (s : Runtime)

/-- The contents of the memory at an address are replaced. -/
def store (id : ℕ) (response : Option ResponseObject) : Runtime :=
  { s with memory := Function.update s.memory id response }

/-- `CreateHandleEx` for the response at an address. -/
def createHandleEx (id : ℕ) (owner : Option Identity) : Runtime :=
  { s with
    responses := (s.json.nextHandle, ⟨id, owner⟩) :: s.responses
    json := { s.json with nextHandle := s.json.nextHandle + 1 } }

def freeHandle (hndl : ℕ) (sec : HandleSecurity) : Runtime :=
  match takeHandle hndl s.responses with
  | none => s
  | some (h, responses) =>
    if haHTTPResponse.delete.permits h.owner sec then { s with responses } else s

def cloneHandle (hndl : ℕ) (sec : HandleSecurity) : Runtime :=
  match readHandle hndl s.responses with
  | none => s
  | some h =>
    if haHTTPResponse.clone.permits h.owner sec then s.createHandleEx h.object sec.owner else s

section Natives
variable (plugin hndl : ℕ)

/-- The first half of the three response natives, with the rest of the native. -/
def readResponse (rest : ℕ → ResponseObject → RuntimeResult) : RuntimeResult :=
  match readHandle hndl s.responses with
  | none => some (s, .error (.invalidResponse hndl (E.readError hndl)))
  | some h =>
    if haHTTPResponse.read.permits h.owner (nativeSecurity plugin) then
      (s.memory h.object).bind (rest h.object)
    else some (s, .error (.invalidResponse hndl (E.readError hndl)))

/-- `GetResponseData`, which works on the response that the handle points at. -/
def getResponseData (refused : Option ℕ) : RuntimeResult :=
  s.readResponse E plugin hndl fun id response =>
    (Json.getResponseData E { s.json with responses := [(hndl, response.toJson strtod report)] }
      hndl refused).map fun r =>
        (Runtime.store { s with json := { r.1 with responses := [] } } id
          (some { response with hndlData := (readHandle hndl r.1.responses).bind (·.hndlData) }),
          r.2)

def getResponseStatus : RuntimeResult :=
  s.readResponse E plugin hndl fun _ response => some (s, .cell (Int32.ofInt response.status))

def getResponseHeader (name : Bytes) (maxlength : ℕ) : RuntimeResult :=
  s.readResponse E plugin hndl fun _ response =>
    match response.headers.find (lowercase name) with
    | none => some (s, .cell 0)
    | some value => some (s, .text (E.stringToLocalUTF8 maxlength value))

end Natives

/-- What `OnCompleted` does with the response before the callback. -/
def openResponse (c : Context) (handleCreated : Bool) : Option Runtime :=
  (s.memory c.id).map fun response =>
    let s := s.store c.id (some { response with status := (s.pipeline.transfer c).status })
    if handleCreated then
      { s.createHandleEx c.id completedSecurity.owner with hndlResponse := s.json.nextHandle }
    else s

/-- What `OnCompleted` does after the callback: the two calls of `FreeHandle`. -/
def closeResponse (c : Context) : Option Runtime :=
  let s :=
    match s.hndlResponse with
    | none => s
    | some hndl => { s.freeHandle hndl completedSecurity with hndlResponse := none }
  (s.memory c.id).bind fun response =>
    match response.hndlData with
    | none => some s
    | some hndl => (Json.closeHandle E s.json hndl).map fun r => { s with json := r.1 }

/-- What a step of the threads does to the responses. -/
def effect (a : Action) : Option Runtime :=
  match a, s.pipeline.main, s.pipeline.loop with
  | .native .created k _ _, _, _ =>
    match k with
    | .file _ => some s
    | .request | .form => some (s.store s.pipeline.nextId (some {}))
  | .onCompleted handleCreated, .frameCompleted c, _ =>
    if s.pipeline.functionCount c = 0 ∨ c.isFile then some s else s.openResponse c handleCreated
  | .callbackReturns, .frameCallback c, _ => if c.isFile then some s else s.closeResponse E c
  | .frameDelete, .frameDelete c, _ => some (s.store c.id none)
  | .drainDelete, _, .drainDelete c _ => some (s.store c.id none)
  | .removeTypes, _, _ => some { s with responses := [] }
  | _, _, _ => some s

/-- One step of the threads, of curl writing into a response, or of a plugin. -/
inductive Event where
  | pipeline (a : Action)
  | receiveResponseHeader (c : Context) (line : Bytes)
  | writeResponseBody (c : Context) (chunk : Bytes)
  | json (c : Json.Call)
  | getResponseData (plugin hndl : ℕ) (refused : Option ℕ)
  | getResponseStatus (plugin hndl : ℕ)
  | getResponseHeader (plugin hndl : ℕ) (name : Bytes) (maxlength : ℕ)
  | cloneHandle (plugin hndl : ℕ)
  | closeHandle (plugin hndl : ℕ)

/-- The statements at which plugin code runs. -/
def runsPlugins : MainPc → Bool
  | .game | .frameCallback _ => true
  | _ => false

/-- curl writes into the response of a context whose transfer is under way. -/
def receive (c : Context) (change : ResponseObject → Option ResponseObject) : Option Runtime :=
  if c ∈ s.pipeline.multi ∧ c.isFile = false then
    (s.memory c.id).bind fun response =>
      (change response).map fun response => s.store c.id (some response)
  else none

def step : Event → Option Runtime
  | .pipeline a =>
    (RipExt.step s.pipeline a).bind fun pipeline =>
      (s.effect E a).map fun s => { s with pipeline }
  | .receiveResponseHeader c line =>
    s.receive c fun r =>
      (Http.receiveResponseHeader ⟨0, r.headers⟩ line).map fun head =>
        { r with headers := head.2.headers }
  | .writeResponseBody c chunk =>
    s.receive c fun r => some { r with body := (Http.writeResponseBody r.body chunk).2 }
  | .json c =>
    if runsPlugins s.pipeline.main ∧ onResponse c = false then
      (Json.call E s.json c).map fun r => { s with json := r.1 }
    else none
  | .getResponseData plugin hndl refused =>
    if runsPlugins s.pipeline.main then
      (s.getResponseData E strtod report plugin hndl refused).map (·.1)
    else none
  | .getResponseStatus plugin hndl =>
    if runsPlugins s.pipeline.main then (s.getResponseStatus E plugin hndl).map (·.1) else none
  | .getResponseHeader plugin hndl name maxlength =>
    if runsPlugins s.pipeline.main then
      (s.getResponseHeader E plugin hndl name maxlength).map (·.1)
    else none
  | .cloneHandle plugin hndl =>
    if runsPlugins s.pipeline.main then some (s.cloneHandle hndl (pluginSecurity plugin)) else none
  | .closeHandle plugin hndl =>
    if runsPlugins s.pipeline.main then some (s.freeHandle hndl (pluginSecurity plugin)) else none

end Runtime

/-- The extension together with the responses and the plugins. -/
def runtime (E : Host) (strtod : Bytes → Option Double) (report : Bytes → JsonError) :
    Transition.System Runtime Runtime.Event := ⟨.loaded, fun s => s.step E strtod report⟩

end Runtime

section Phases
variable {s t : RipExt.State} {a : Action}

/-- The context whose `OnCompleted` is executing its callback, also inside a native. -/
def executing : MainPc → Option Context
  | .frameCallback c => some c
  | .addLock _ r | .addPush _ r | .addUnlock r => r.callback
  | _ => none

/-- The contexts that were allocated so far. -/
def created (s : RipExt.State) : List Context := s.added ++ s.main.adding

/-- The actions that do not touch a response. -/
def quiet : Action → Bool
  | .native .created _ _ _ | .onCompleted _ | .callbackReturns | .frameDelete | .drainDelete
  | .removeTypes => false
  | _ => true

/-- What a step of the threads means for the contexts. -/
inductive Phase (s t : RipExt.State) : Action → Prop
  | creates (k : Kind) (v : ℤ) (f : Bool) (hexec : executing t.main = executing s.main)
      (hcreated : created t = s.added ++ [⟨s.nextId, k, v⟩]) (hd : t.destroyed = s.destroyed)
      (hc : t.completions = s.completions) : Phase s t (.native .created k v f)
  | completes (c : Context) (b : Bool) (hmain : s.main = .frameCompleted c)
      (hexec : executing t.main =
        if s.functionCount c = 0 ∨ c.isFile = false ∧ b = false then none else some c)
      (hcreated : created t = created s) (hd : t.destroyed = s.destroyed)
      (hc : t.completions = s.completions ++ [c]) : Phase s t (.onCompleted b)
  | returns (c : Context) (hmain : s.main = .frameCallback c) (hmain' : t.main = .frameDelete c)
      (hcreated : created t = created s) (hd : t.destroyed = s.destroyed)
      (hc : t.completions = s.completions) : Phase s t .callbackReturns
  | frameDelete (c : Context) (hmain : s.main = .frameDelete c) (hmain' : t.main = .frameUnlock)
      (hcreated : created t = created s) (hd : t.destroyed = s.destroyed ++ [c])
      (hc : t.completions = s.completions) : Phase s t .frameDelete
  | drainDelete (c : Context) (n : ℕ) (hloop : s.loop = .drainDelete c n)
      (hexec : executing t.main = executing s.main)
      (hcreated : created t = created s) (hd : t.destroyed = s.destroyed ++ [c])
      (hc : t.completions = s.completions) : Phase s t .drainDelete
  | removeTypes (hmain : s.main = .unloadRemove) (hmain' : t.main = .unloaded)
      (hcreated : created t = created s) (hd : t.destroyed = s.destroyed)
      (hc : t.completions = s.completions) : Phase s t .removeTypes
  | other {a : Action} (hquiet : quiet a = true) (hexec : executing t.main = executing s.main)
      (hcreated : created t = created s) (hd : t.destroyed = s.destroyed)
      (hc : t.completions = s.completions) : Phase s t a

theorem step_phase (h : RipExt.step s a = some t) : Phase s t a := by
  cases step_steps h with
  | created k v r hm =>
    refine .creates k v r.freesRequest ?_ (by simp [created]) rfl rfl
    rcases r with ⟨_ | d, f⟩ <;> simp [executing, hm, Caller.resume]
  | addUnlock r hm =>
    rcases r with ⟨_ | d, f⟩ <;>
      exact .other rfl (by simp [executing, hm, Caller.resume])
        (by simp [created, hm, Caller.resume]) rfl rfl
  | onCompleted c b hm =>
    have hc := onCompleted_completes s c b
    have hcreated : created (s.onCompleted c b) = created s := by
      rcases hc.main with hm' | hm' <;> simp [created, hm', hm, hc.added]
    refine .completes c b hm ?_ hcreated (by simp [State.destroyed, hc.deleted]) hc.completions
    obtain ⟨calls, ⟨hsilent, heq⟩ | ⟨hloud, heq⟩⟩ := onCompleted_cases s c b
    · unfold State.Silent at hsilent
      rw [heq, if_pos hsilent]
      rfl
    · unfold State.Silent at hloud
      rw [heq, if_neg hloud]
      rfl
  | callbackReturns c hm => exact .returns c hm rfl (by simp [created, hm]) rfl rfl
  | frameDelete c hm =>
    exact .frameDelete c hm rfl (by simp [created, hm, State.destroy])
      (by simp [State.destroy, State.destroyed]) rfl
  | drainDelete c n hl =>
    exact .drainDelete c n hl rfl rfl (by simp [State.destroy, State.destroyed]) rfl
  | removeTypes hm => exact .removeTypes hm rfl (by simp [created, hm]) rfl rfl
  | addLock _ _ hm | addPush _ _ hm | frameHook hm | frameEmpty hm | frameFull hm | frameLock hm
  | framePop _ _ hm | frameUnlock hm | unload hm | joinThread hm | closeLoop hm | cleanupMulti hm =>
    exact .other rfl (by simp [executing, hm]) (by simp [created, hm]) rfl rfl
  | _ => exact .other rfl rfl rfl rfl rfl

end Phases

section Contexts
variable {s t : RipExt.State} {c d : Context}

theorem created_id_inj (h : machine.Reachable s) (hc : c ∈ created s) (hd : d ∈ created s)
    (hid : c.id = d.id) : c = d := by
  have hf := reachable_fresh h
  have hnodup := List.inj_on_of_nodup_map hf.ids
  have hone : s.main.adding.length ≤ 1 := by cases s.main <;> simp
  rcases List.mem_append.mp hc with hc | hc <;> rcases List.mem_append.mp hd with hd | hd
  · exact hnodup hc hd hid
  · exact absurd hid ((hf.adding d hd).2 c hc)
  · exact absurd hid.symm ((hf.adding c hc).2 d hd)
  · obtain ⟨x, hx⟩ := List.length_eq_one_iff.mp
      (Nat.le_antisymm hone (List.length_pos_of_mem hc))
    rw [hx, List.mem_singleton] at hc hd
    rw [hc, hd]

theorem created_lt (h : machine.Reachable s) (hc : c ∈ created s) : c.id < s.nextId := by
  have hf := reachable_fresh h
  rcases List.mem_append.mp hc with hc | hc
  · exact hf.added c hc
  · exact (hf.adding c hc).1

theorem destroyed_created (h : machine.Reachable s) (hc : c ∈ s.destroyed) : c ∈ created s :=
  List.mem_append_left _ ((reachable_accounted h).noOther .destroyed c hc)

theorem completed_created (h : machine.Reachable s) (hc : c ∈ s.completions) : c ∈ created s := by
  have ha := reachable_accounted h
  exact List.mem_append_left _ (ha.handedInOrder.subset (ha.completedAfter c hc).2.1)

/-- A context in the hands of a thread is allocated and not deleted. -/
theorem inHand_live (h : machine.Reachable s) (hc : c ∈ s.inHand) :
    c ∈ created s ∧ c ∉ s.destroyed := by
  obtain ⟨hadded, -, hplace⟩ := (reachable_accounted h).inHand c hc
  exact ⟨List.mem_append_left _ hadded, hplace .destroyed⟩

theorem executing_delivering (h : executing s.main = some c) : c ∈ s.inHand := by
  have hdelivering : c ∈ s.main.delivering := by
    cases hm : s.main <;> simp_all [executing]
  simp only [State.inHand, List.mem_append]
  tauto

/-- A context whose callback runs counts as completed. -/
theorem executing_completed (h : machine.Reachable s) (hc : executing s.main = some c) :
    c ∈ s.completions := by
  have hinv : ∀ d, executing s.main = some d → d ∈ s.completions := by
    refine Transition.System.reachable_invariant
      (I := fun s => ∀ d, executing s.main = some d → d ∈ s.completions) ?_ ?_ h
    · intro d hd
      cases hd
    intro s a t hs ht d hd
    cases step_phase ht with
    | completes e b hmain hexec hcreated hde hcomp =>
      rw [hexec] at hd
      split_ifs at hd
      cases hd
      simp [hcomp]
    | returns e hmain hmain' hcreated hde hcomp =>
      rw [hmain'] at hd
      cases hd
    | frameDelete e hmain hmain' hcreated hde hcomp =>
      rw [hmain'] at hd
      cases hd
    | removeTypes hmain hmain' hcreated hde hcomp =>
      rw [hmain'] at hd
      cases hd
    | creates k v f hexec hcreated hde hcomp =>
      rw [hcomp]
      exact hs d (hexec ▸ hd)
    | drainDelete e n hloop hexec hcreated hde hcomp =>
      rw [hcomp]
      exact hs d (hexec ▸ hd)
    | other hquiet hexec hcreated hde hcomp =>
      rw [hcomp]
      exact hs d (hexec ▸ hd)
  exact hinv c hc

end Contexts

section Memory
variable {s t : RipExt.State} {memory : ℕ → Option ResponseObject} {id : ℕ}

/-- The responses of the contexts that are allocated are there, and those of the deleted ones are
gone. -/
structure Stored (s : RipExt.State) (memory : ℕ → Option ResponseObject) : Prop where
  allocated : ∀ c ∈ created s, c.isFile = false → c ∉ s.destroyed → memory c.id ≠ none
  freed : ∀ c ∈ s.destroyed, memory c.id = none

theorem Stored.update (h : Stored s memory) (hid : memory id ≠ none) (r : ResponseObject) :
    Stored s (Function.update memory id (some r)) where
  allocated c hc hfile hd := by
    by_cases heq : c.id = id
    · simp [heq]
    · rw [Function.update_of_ne heq]
      exact h.allocated c hc hfile hd
  freed c hc := by
    have hne : c.id ≠ id := by
      rintro rfl
      exact hid (h.freed c hc)
    rw [Function.update_of_ne hne]
    exact h.freed c hc

theorem Stored.same (h : Stored s memory) (hcreated : created t = created s)
    (hd : t.destroyed = s.destroyed) : Stored t memory where
  allocated := by
    rw [hcreated, hd]
    exact h.allocated
  freed := by
    rw [hd]
    exact h.freed

/-- Deleting a context that is in the hands of a thread. -/
theorem Stored.delete (h : Stored s memory) (hs : machine.Reachable s) {c : Context}
    (hc : c ∈ s.inHand) (hcreated : created t = created s)
    (hd : t.destroyed = s.destroyed ++ [c]) : Stored t (Function.update memory c.id none) where
  allocated d hmem hfile hnot := by
    rw [hcreated] at hmem
    rw [hd, List.mem_append, not_or, List.mem_singleton] at hnot
    have hne : d.id ≠ c.id := fun hid =>
      hnot.2 (created_id_inj hs hmem (inHand_live hs hc).1 hid)
    rw [Function.update_of_ne hne]
    exact h.allocated d hmem hfile hnot.1
  freed d hmem := by
    by_cases hid : d.id = c.id
    · simp [hid]
    · rw [hd, List.mem_append, List.mem_singleton] at hmem
      rw [Function.update_of_ne hid]
      refine h.freed d (hmem.resolve_right ?_)
      rintro rfl
      exact hid rfl

/-- A new context, with a response unless it is a file context. -/
theorem Stored.create (h : Stored s memory) (hs : machine.Reachable s) {k : Kind} {v : ℤ}
    {memory' : ℕ → Option ResponseObject} (hcreated : created t = s.added ++ [⟨s.nextId, k, v⟩])
    (hd : t.destroyed = s.destroyed) (hsame : ∀ id < s.nextId, memory' id = memory id)
    (hnew : Context.isFile ⟨s.nextId, k, v⟩ = false → memory' s.nextId ≠ none) :
    Stored t memory' where
  allocated c hc hfile hnot := by
    rw [hcreated, List.mem_append, List.mem_singleton] at hc
    rw [hd] at hnot
    rcases hc with hc | rfl
    · have hmem : c ∈ created s := List.mem_append_left _ hc
      rw [hsame _ (created_lt hs hmem)]
      exact h.allocated c hmem hfile hnot
    · exact hnew hfile
  freed c hc := by
    rw [hd] at hc
    rw [hsame _ (created_lt hs (destroyed_created hs hc))]
    exact h.freed c hc

end Memory

section Invariant
variable {E : Host} {strtod : Bytes → Option Double} {report : Bytes → JsonError} {s t : Runtime}

namespace Runtime

/-- No response handle is open, or only the one of the context whose callback runs. -/
def OneOpen (s : Runtime) : Prop :=
  s.responses = [] ∧ s.hndlResponse = none ∨
    ∃ hndl c, s.responses = [(hndl, ⟨c.id, none⟩)] ∧ s.hndlResponse = some hndl ∧
      executing s.pipeline.main = some c ∧ c.isFile = false ∧ hndl < s.json.nextHandle

/-- What holds between two events. -/
structure Inv (E : Host) (s : Runtime) : Prop where
  reachable : machine.Reachable s.pipeline
  counted : s.json.Counted E
  oneOpen : s.OneOpen
  stored : Stored s.pipeline s.memory

theorem cloneHandle_plugin (s : Runtime) (plugin hndl : ℕ) :
    s.cloneHandle hndl (pluginSecurity plugin) = s := by
  unfold cloneHandle
  split
  · rfl
  · exact if_neg (by simp [haHTTPResponse, Restriction.permits, pluginSecurity])

theorem OneOpen.owner (h : s.OneOpen) {hndl : ℕ} {x : ResponseHandle}
    (hx : (hndl, x) ∈ s.responses) : x.owner = none := by
  rcases h with ⟨hnil, -⟩ | ⟨g, c, hone, -⟩
  · rw [hnil] at hx
    cases hx
  · rw [hone, List.mem_singleton] at hx
    cases hx
    rfl

theorem OneOpen.freeHandle_plugin (h : s.OneOpen) (plugin hndl : ℕ) :
    s.freeHandle hndl (pluginSecurity plugin) = s := by
  unfold freeHandle
  split
  · rfl
  · next x responses htake =>
    have hmem : (hndl, x) ∈ s.responses :=
      (Json.takeHandle_perm htake).mem_iff.mpr (List.mem_cons_self ..)
    exact if_neg (by simp [haHTTPResponse, accessDefaults, Restriction.permits, pluginSecurity,
      h.owner hmem])

/-- Nothing of what the invariant speaks about is lost by a step that keeps the handles. -/
theorem OneOpen.mono (h : s.OneOpen) (hr : t.responses = s.responses)
    (hl : t.hndlResponse = s.hndlResponse)
    (he : executing t.pipeline.main = executing s.pipeline.main)
    (hn : s.json.nextHandle ≤ t.json.nextHandle) : t.OneOpen := by
  rcases h with ⟨hnil, hnone⟩ | ⟨hndl, c, hone, hlocal, hexec, hfile, hlt⟩
  · exact .inl ⟨hr.trans hnil, hl.trans hnone⟩
  · exact .inr ⟨hndl, c, hr.trans hone, hl.trans hlocal, he.trans hexec, hfile, hlt.trans_le hn⟩

/-- What an event changes about handles and callbacks: new handles have new numbers, and a context
gets its callback only once. -/
structure Later (s t : Runtime) : Prop where
  completions : s.pipeline.completions ⊆ t.pipeline.completions
  executing : ∀ c, Http.executing t.pipeline.main = some c →
    Http.executing s.pipeline.main = some c ∨ c ∉ s.pipeline.completions
  next_le : s.json.nextHandle ≤ t.json.nextHandle
  opened : ∀ x ∈ t.responses, x ∈ s.responses ∨ s.json.nextHandle ≤ x.1

theorem Later.of_same (hr : ∀ x ∈ t.responses, x ∈ s.responses)
    (he : Http.executing t.pipeline.main = Http.executing s.pipeline.main)
    (hn : s.json.nextHandle ≤ t.json.nextHandle)
    (hc : t.pipeline.completions = s.pipeline.completions) : Later s t where
  completions := by rw [hc]; exact List.Subset.refl _
  executing c hexec := .inl (he ▸ hexec)
  next_le := hn
  opened x hx := .inl (hr x hx)

/-- The response behind an open handle is that of the executing context, and it is there. -/
theorem Inv.open_live (h : s.Inv E) {hndl : ℕ} {x : ResponseHandle}
    (hx : (hndl, x) ∈ s.responses) : ∃ c, executing s.pipeline.main = some c ∧
      c.id = x.object ∧ c.isFile = false ∧ s.memory x.object ≠ none := by
  rcases h.oneOpen with ⟨hnil, -⟩ | ⟨g, c, hone, -, hexec, hfile, -⟩
  · rw [hnil] at hx
    cases hx
  · rw [hone, List.mem_singleton] at hx
    cases hx
    obtain ⟨hcreated, hlive⟩ := inHand_live h.reachable (executing_delivering hexec)
    exact ⟨c, hexec, rfl, hfile, h.stored.allocated c hcreated hfile hlive⟩

/-- A response native throws, or it works on the response of the executing context. -/
theorem Inv.readResponse_eq (h : s.Inv E) (plugin hndl : ℕ)
    (rest : ℕ → ResponseObject → RuntimeResult) :
    s.readResponse E plugin hndl rest =
        some (s, .error (.invalidResponse hndl (E.readError hndl))) ∨
      ∃ id response, s.memory id = some response ∧
        s.readResponse E plugin hndl rest = rest id response := by
  unfold readResponse
  cases hread : readHandle hndl s.responses with
  | none => exact .inl rfl
  | some x =>
    obtain ⟨-, -, -, -, hlive⟩ := h.open_live (Json.mem_of_readHandle hread)
    obtain ⟨response, hresponse⟩ := Option.ne_none_iff_exists'.mp hlive
    refine .inr ⟨x.object, response, hresponse, ?_⟩
    dsimp only
    rw [if_pos (by simp [haHTTPResponse, accessDefaults, Restriction.permits, nativeSecurity]),
      hresponse, Option.bind_some]

/-- `GetResponseData` on a response that is there. -/
theorem Inv.data_acts (h : s.Inv E) {id hndl : ℕ} {response : ResponseObject}
    (hid : s.memory id = some response) (refused : Option ℕ) :
    ∃ r, Json.getResponseData E
        { s.json with responses := [(hndl, response.toJson strtod report)] } hndl refused = some r ∧
      Inv E (Runtime.store { s with json := { r.1 with responses := [] } } id
        (some { response with hndlData := (readHandle hndl r.1.responses).bind (·.hndlData) })) ∧
      s.json.nextHandle ≤ r.1.nextHandle := by
  have hcounted : Json.State.Counted E
      { s.json with responses := [(hndl, response.toJson strtod report)] } := h.counted
  obtain ⟨json, o, hr, heffect⟩ :=
    Json.getResponseData_acts (c := .getResponseData hndl refused) hcounted hndl refused
  have hlive : s.memory id ≠ none := by simp [hid]
  have hnext : s.json.nextHandle ≤ json.nextHandle :=
    Json.call_advances E { s.json with responses := [(hndl, response.toJson strtod report)] }
      (.getResponseData hndl refused) json o hr
  exact ⟨(json, o), hr, ⟨h.reachable, heffect.counted hcounted, h.oneOpen.mono rfl rfl rfl hnext,
    h.stored.update hlive _⟩, hnext⟩

theorem Inv.getResponseData (h : s.Inv E) (plugin hndl : ℕ) (refused : Option ℕ) :
    ∃ r, s.getResponseData E strtod report plugin hndl refused = some r ∧ r.1.Inv E ∧
      Later s r.1 := by
  unfold Runtime.getResponseData
  rcases h.readResponse_eq plugin hndl _ with hr | ⟨address, response, hid, hr⟩
  · exact ⟨_, hr, h, .of_same (fun _ => id) rfl le_rfl rfl⟩
  · obtain ⟨r, hdata, hinv, hnext⟩ := h.data_acts hid refused
    rw [hr, hdata]
    exact ⟨_, rfl, hinv, .of_same (fun _ => id) rfl hnext rfl⟩

theorem Inv.getResponseStatus (h : s.Inv E) (plugin hndl : ℕ) :
    ∃ o, s.getResponseStatus E plugin hndl = some (s, o) := by
  unfold Runtime.getResponseStatus
  rcases h.readResponse_eq plugin hndl _ with hr | ⟨id, response, hid, hr⟩
  · exact ⟨_, hr⟩
  · exact ⟨_, hr⟩

theorem Inv.getResponseHeader (h : s.Inv E) (plugin hndl : ℕ) (name : Bytes) (maxlength : ℕ) :
    ∃ o, s.getResponseHeader E plugin hndl name maxlength = some (s, o) := by
  unfold Runtime.getResponseHeader
  rcases h.readResponse_eq plugin hndl _ with hr | ⟨id, response, hid, hr⟩
  · exact ⟨_, hr⟩
  · rw [hr]
    cases response.headers.find (lowercase name) with
    | none => exact ⟨_, rfl⟩
    | some value => exact ⟨_, rfl⟩

/-- curl writes into a response only while it is there. -/
theorem Inv.receive (h : s.Inv E) {c : Context}
    {change : ResponseObject → Option ResponseObject} (ht : s.receive c change = some t) :
    t.Inv E ∧ Later s t := by
  unfold Runtime.receive at ht
  split_ifs at ht
  obtain ⟨response, hid, ht⟩ := Option.bind_eq_some_iff.mp ht
  obtain ⟨response', -, rfl⟩ := Option.map_eq_some_iff.mp ht
  have hlive : s.memory c.id ≠ none := by simp [hid]
  exact ⟨⟨h.reachable, h.counted, h.oneOpen.mono rfl rfl rfl le_rfl, h.stored.update hlive _⟩,
    .of_same (fun _ => id) rfl le_rfl rfl⟩

/-- `OnCompleted` opens a handle at a moment when none is open. -/
theorem Inv.openResponse (h : s.Inv E) {c : Context} (b : Bool)
    (hmain : s.pipeline.main = .frameCompleted c) (hfile : c.isFile = false) :
    ∃ t, s.openResponse c b = some t ∧ t.json.Counted E ∧ Stored s.pipeline t.memory ∧
      s.json.nextHandle ≤ t.json.nextHandle ∧
      (b = false → t.responses = [] ∧ t.hndlResponse = none) ∧
      (b = true → t.responses = [(s.json.nextHandle, ⟨c.id, none⟩)] ∧
        t.hndlResponse = some s.json.nextHandle ∧ s.json.nextHandle < t.json.nextHandle) := by
  have hhand : c ∈ s.pipeline.inHand := by simp [State.inHand, hmain]
  obtain ⟨hcreated, hnot⟩ := inHand_live h.reachable hhand
  have hlive := h.stored.allocated c hcreated hfile hnot
  obtain ⟨response, hid⟩ := Option.ne_none_iff_exists'.mp hlive
  obtain ⟨hnil, hnone⟩ : s.responses = [] ∧ s.hndlResponse = none := by
    rcases h.oneOpen with hno | ⟨hndl, d, -, -, hexec, -⟩
    · exact hno
    · rw [hmain] at hexec
      cases hexec
  unfold Runtime.openResponse
  rw [hid, Option.map_some]
  cases b with
  | false =>
    exact ⟨_, rfl, h.counted, h.stored.update hlive _, le_rfl, fun _ => ⟨hnil, hnone⟩, by simp⟩
  | true =>
    refine ⟨_, rfl, h.counted, h.stored.update hlive _, Nat.le_succ _, by simp, fun _ => ⟨?_, rfl,
      Nat.lt_succ_self _⟩⟩
    simp [Runtime.createHandleEx, Runtime.store, hnil, completedSecurity]

/-- `OnCompleted` frees its handle after the callback. -/
theorem Inv.closeResponse (h : s.Inv E) {c : Context}
    (hmain : s.pipeline.main = .frameCallback c) (hfile : c.isFile = false) :
    ∃ t, s.closeResponse E c = some t ∧ t.json.Counted E ∧ t.memory = s.memory ∧
      t.responses = [] ∧ t.hndlResponse = none ∧ s.json.nextHandle ≤ t.json.nextHandle := by
  have hexec : executing s.pipeline.main = some c := by
    rw [hmain]
    rfl
  obtain ⟨hcreated, hnot⟩ := inHand_live h.reachable (executing_delivering hexec)
  obtain ⟨response, hid⟩ :=
    Option.ne_none_iff_exists'.mp (h.stored.allocated c hcreated hfile hnot)
  obtain ⟨t, ht, hjson, hmemory, hnil, hnone⟩ : ∃ t : Runtime,
      (match s.hndlResponse with
        | none => s
        | some hndl => { s.freeHandle hndl completedSecurity with hndlResponse := none }) = t ∧
      t.json = s.json ∧ t.memory = s.memory ∧ t.responses = [] ∧ t.hndlResponse = none := by
    rcases h.oneOpen with ⟨hnil, hnone⟩ | ⟨hndl, d, hone, hlocal, -⟩
    · exact ⟨s, by rw [hnone], rfl, rfl, hnil, hnone⟩
    · refine ⟨_, rfl, ?_⟩
      rw [hlocal]
      simp [freeHandle, hone, takeHandle, haHTTPResponse, accessDefaults, Restriction.permits,
        completedSecurity]
  unfold Runtime.closeResponse
  rw [ht]
  dsimp only
  rw [hmemory, hid, Option.bind_some]
  cases response.hndlData with
  | none =>
    refine ⟨t, rfl, ?_, hmemory, hnil, hnone, ?_⟩
    · rw [hjson]
      exact h.counted
    · rw [hjson]
  | some hndl =>
    have hcounted : t.json.Counted E := by
      rw [hjson]
      exact h.counted
    obtain ⟨json, o, hclose, heffect⟩ :=
      Json.closeHandle_acts (c := .closeHandle hndl) hcounted rfl rfl rfl rfl
    have hnext := Json.call_advances E t.json (.closeHandle hndl) json o hclose
    rw [hjson] at hnext
    dsimp only
    rw [hclose]
    exact ⟨_, rfl, heffect.counted hcounted, rfl, hnil, hnone, hnext⟩

theorem effect_of_quiet (s : Runtime) (E : Host) {a : Action} (h : quiet a = true) :
    s.effect E a = some s := by
  cases a with
  | native o k v f =>
    cases o with
    | created => cases h
    | _ => rfl
  | onCompleted b => cases h
  | callbackReturns => cases h
  | frameDelete => cases h
  | drainDelete => cases h
  | removeTypes => cases h
  | _ => rfl

/-- Outside of a callback no response handle is open. -/
theorem Inv.closed (h : s.Inv E) (hexec : executing s.pipeline.main = none) :
    s.responses = [] ∧ s.hndlResponse = none := by
  rcases h.oneOpen with hno | ⟨hndl, c, -, -, hc, -⟩
  · exact hno
  · rw [hexec] at hc
    cases hc

theorem Inv.creates (h : s.Inv E) {p : RipExt.State} {k : Kind} {v : ℤ} {f : Bool}
    (hreach : machine.Reachable p) (hexec : executing p.main = executing s.pipeline.main)
    (hcreated : created p = s.pipeline.added ++ [⟨s.pipeline.nextId, k, v⟩])
    (hd : p.destroyed = s.pipeline.destroyed)
    (hc : p.completions = s.pipeline.completions) :
    ∃ t, s.effect E (.native .created k v f) = some t ∧ Inv E { t with pipeline := p } ∧
      Later s { t with pipeline := p } := by
  have hother (r : Option ResponseObject) (id : ℕ) (hid : id < s.pipeline.nextId) :
      Function.update s.memory s.pipeline.nextId r id = s.memory id :=
    Function.update_of_ne hid.ne r s.memory
  cases k with
  | file isUpload =>
    exact ⟨s, rfl, ⟨hreach, h.counted, h.oneOpen.mono rfl rfl hexec le_rfl,
      h.stored.create h.reachable hcreated hd (fun _ _ => rfl) nofun⟩,
      .of_same (fun _ => id) hexec le_rfl hc⟩
  | request =>
    exact ⟨_, rfl, ⟨hreach, h.counted, h.oneOpen.mono rfl rfl hexec le_rfl,
      h.stored.create h.reachable hcreated hd (hother _) fun _ => by simp [store]⟩,
      .of_same (fun _ => id) hexec le_rfl hc⟩
  | form =>
    exact ⟨_, rfl, ⟨hreach, h.counted, h.oneOpen.mono rfl rfl hexec le_rfl,
      h.stored.create h.reachable hcreated hd (hother _) fun _ => by simp [store]⟩,
      .of_same (fun _ => id) hexec le_rfl hc⟩

theorem Inv.completes (h : s.Inv E) {p : RipExt.State} {c : Context} {b : Bool}
    (hreach : machine.Reachable p) (hmain : s.pipeline.main = .frameCompleted c)
    (hexec : Http.executing p.main =
      if s.pipeline.functionCount c = 0 ∨ c.isFile = false ∧ b = false then none else some c)
    (hcreated : created p = created s.pipeline) (hd : p.destroyed = s.pipeline.destroyed)
    (hc : p.completions = s.pipeline.completions ++ [c]) :
    ∃ t, s.effect E (.onCompleted b) = some t ∧ Inv E { t with pipeline := p } ∧
      Later s { t with pipeline := p } := by
  have hclosed := h.closed (by rw [hmain]; rfl)
  have huntouched : c ∉ s.pipeline.completions :=
    (popped_untouched h.reachable (by simp [hmain])).1
  have hlater {t : Runtime} (hn : s.json.nextHandle ≤ t.json.nextHandle)
      (ho : ∀ x ∈ t.responses, x ∈ s.responses ∨ s.json.nextHandle ≤ x.1) :
      Later s { t with pipeline := p } := by
    refine ⟨hc ▸ List.subset_append_left _ _, fun d hdexec => .inr ?_, hn, ho⟩
    rw [hexec] at hdexec
    split_ifs at hdexec
    cases hdexec
    exact huntouched
  have heffect : s.effect E (.onCompleted b) =
      if s.pipeline.functionCount c = 0 ∨ c.isFile then some s else s.openResponse c b := by
    unfold effect
    rw [hmain]
  rw [heffect]
  by_cases hquick : s.pipeline.functionCount c = 0 ∨ c.isFile
  · rw [if_pos hquick]
    exact ⟨s, rfl, ⟨hreach, h.counted, .inl hclosed, h.stored.same hcreated hd⟩,
      hlater le_rfl fun _ => .inl⟩
  · rw [if_neg hquick]
    rw [not_or, Bool.not_eq_true] at hquick
    obtain ⟨t, ht, hcounted, hstored, hnext, hfalse, htrue⟩ := h.openResponse b hmain hquick.2
    cases b with
    | false =>
      refine ⟨t, ht, ⟨hreach, hcounted, .inl (hfalse rfl), hstored.same hcreated hd⟩,
        hlater hnext ?_⟩
      rw [(hfalse rfl).1]
      nofun
    | true =>
      obtain ⟨hone, hlocal, hlt⟩ := htrue rfl
      refine ⟨t, ht, ⟨hreach, hcounted, .inr ⟨_, c, hone, hlocal, ?_, hquick.2, hlt⟩,
        hstored.same hcreated hd⟩, hlater hnext ?_⟩
      · rw [hexec, if_neg (by simp [hquick.1])]
      · intro x hx
        rw [hone, List.mem_singleton] at hx
        exact .inr (by rw [hx])

theorem Inv.returns (h : s.Inv E) {p : RipExt.State} {c : Context}
    (hreach : machine.Reachable p) (hmain : s.pipeline.main = .frameCallback c)
    (hmain' : p.main = .frameDelete c) (hcreated : created p = created s.pipeline)
    (hd : p.destroyed = s.pipeline.destroyed) (hc : p.completions = s.pipeline.completions) :
    ∃ t, s.effect E .callbackReturns = some t ∧ Inv E { t with pipeline := p } ∧
      Later s { t with pipeline := p } := by
  have hlater {t : Runtime} (hn : s.json.nextHandle ≤ t.json.nextHandle) (hr : t.responses = []) :
      Later s { t with pipeline := p } := by
    refine ⟨hc ▸ List.Subset.refl _, fun d hdexec => ?_, hn, fun x hx => ?_⟩
    · simp only [hmain', Http.executing] at hdexec
      cases hdexec
    · rw [hr] at hx
      cases hx
  have heffect : s.effect E .callbackReturns =
      if c.isFile then some s else s.closeResponse E c := by
    unfold effect
    rw [hmain]
  rw [heffect]
  cases hfile : c.isFile with
  | true =>
    have hclosed : s.responses = [] ∧ s.hndlResponse = none := by
      rcases h.oneOpen with hno | ⟨hndl, d, -, -, hexec, hnot, -⟩
      · exact hno
      · rw [hmain] at hexec
        cases hexec
        rw [hfile] at hnot
        cases hnot
    exact ⟨s, rfl, ⟨hreach, h.counted, .inl hclosed, h.stored.same hcreated hd⟩,
      hlater le_rfl hclosed.1⟩
  | false =>
    obtain ⟨t, ht, hcounted, hmemory, hnil, hnone, hnext⟩ := h.closeResponse hmain hfile
    refine ⟨t, ht, ⟨hreach, hcounted, .inl ⟨hnil, hnone⟩, ?_⟩, hlater hnext hnil⟩
    dsimp only
    rw [hmemory]
    exact h.stored.same hcreated hd

/-- A step of the threads, with what it does to the responses. -/
theorem Inv.pipeline (h : s.Inv E) {a : Action} {p : RipExt.State}
    (hp : RipExt.step s.pipeline a = some p) :
    ∃ t, s.effect E a = some t ∧ Inv E { t with pipeline := p } ∧
      Later s { t with pipeline := p } := by
  have hreach : machine.Reachable p := h.reachable.step hp
  cases step_phase hp with
  | creates k v f hexec hcreated hd hc => exact h.creates hreach hexec hcreated hd hc
  | completes c b hmain hexec hcreated hd hc => exact h.completes hreach hmain hexec hcreated hd hc
  | returns c hmain hmain' hcreated hd hc => exact h.returns hreach hmain hmain' hcreated hd hc
  | frameDelete c hmain hmain' hcreated hd hc =>
    have heffect : s.effect E .frameDelete = some (s.store c.id none) := by
      unfold effect
      rw [hmain]
    have hhand : c ∈ s.pipeline.inHand := by simp [State.inHand, hmain]
    have hexec : Http.executing p.main = Http.executing s.pipeline.main := by
      rw [hmain, hmain']
      rfl
    exact ⟨_, heffect, ⟨hreach, h.counted, h.oneOpen.mono rfl rfl hexec le_rfl,
      h.stored.delete h.reachable hhand hcreated hd⟩, .of_same (fun _ => id) hexec le_rfl hc⟩
  | drainDelete c n hloop hexec hcreated hd hc =>
    have heffect : s.effect E .drainDelete = some (s.store c.id none) := by
      unfold effect
      rw [hloop]
    have hhand : c ∈ s.pipeline.inHand := by simp [State.inHand, hloop]
    exact ⟨_, heffect, ⟨hreach, h.counted, h.oneOpen.mono rfl rfl hexec le_rfl,
      h.stored.delete h.reachable hhand hcreated hd⟩, .of_same (fun _ => id) hexec le_rfl hc⟩
  | removeTypes hmain hmain' hcreated hd hc =>
    have hclosed := h.closed (by rw [hmain]; rfl)
    have hexec : Http.executing p.main = Http.executing s.pipeline.main := by
      rw [hmain, hmain']
      rfl
    exact ⟨_, rfl, ⟨hreach, h.counted, .inl ⟨rfl, hclosed.2⟩, h.stored.same hcreated hd⟩,
      .of_same (by simp) hexec le_rfl hc⟩
  | other hquiet hexec hcreated hd hc =>
    exact ⟨s, s.effect_of_quiet E hquiet, ⟨hreach, h.counted, h.oneOpen.mono rfl rfl hexec le_rfl,
      h.stored.same hcreated hd⟩, .of_same (fun _ => id) hexec le_rfl hc⟩

theorem Later.refl (s : Runtime) : Later s s := .of_same (fun _ => id) rfl le_rfl rfl

/-- Every event keeps the invariant. -/
theorem Inv.step (h : s.Inv E) {e : Event} (ht : s.step E strtod report e = some t) :
    t.Inv E ∧ Later s t := by
  cases e with
  | pipeline a =>
    obtain ⟨p, hp, ht⟩ := Option.bind_eq_some_iff.mp ht
    obtain ⟨u, hu, hinv, hlater⟩ := h.pipeline hp
    rw [hu, Option.map_some] at ht
    cases ht
    exact ⟨hinv, hlater⟩
  | receiveResponseHeader c line => exact h.receive ht
  | writeResponseBody c chunk => exact h.receive ht
  | json c =>
    simp only [Runtime.step] at ht
    split_ifs at ht
    obtain ⟨⟨json, o⟩, hcall, rfl⟩ := Option.map_eq_some_iff.mp ht
    have hnext := Json.call_advances E s.json c json o hcall
    exact ⟨⟨h.reachable, (Json.call_effect h.counted hcall).counted h.counted,
      h.oneOpen.mono rfl rfl rfl hnext, h.stored⟩, .of_same (fun _ => id) rfl hnext rfl⟩
  | getResponseData plugin hndl refused =>
    simp only [Runtime.step] at ht
    split_ifs at ht
    obtain ⟨r, hr, hinv, hlater⟩ := h.getResponseData plugin hndl refused
    rw [hr, Option.map_some] at ht
    cases ht
    exact ⟨hinv, hlater⟩
  | getResponseStatus plugin hndl =>
    simp only [Runtime.step] at ht
    split_ifs at ht
    obtain ⟨o, ho⟩ := h.getResponseStatus plugin hndl
    rw [ho, Option.map_some] at ht
    cases ht
    exact ⟨h, .refl s⟩
  | getResponseHeader plugin hndl name maxlength =>
    simp only [Runtime.step] at ht
    split_ifs at ht
    obtain ⟨o, ho⟩ := h.getResponseHeader plugin hndl name maxlength
    rw [ho, Option.map_some] at ht
    cases ht
    exact ⟨h, .refl s⟩
  | cloneHandle plugin hndl =>
    simp only [Runtime.step] at ht
    split_ifs at ht
    rw [s.cloneHandle_plugin] at ht
    cases ht
    exact ⟨h, .refl s⟩
  | closeHandle plugin hndl =>
    simp only [Runtime.step] at ht
    split_ifs at ht
    rw [h.oneOpen.freeHandle_plugin] at ht
    cases ht
    exact ⟨h, .refl s⟩

theorem inv_loaded (E : Host) : Runtime.loaded.Inv E where
  reachable := ⟨[], rfl⟩
  counted := Json.counted_empty E
  oneOpen := .inl ⟨rfl, rfl⟩
  stored := ⟨nofun, nofun⟩

theorem reachable_inv (h : (runtime E strtod report).Reachable s) : s.Inv E :=
  Transition.System.reachable_invariant (I := Inv E) (inv_loaded E)
    (fun _ _ _ hs ht => (hs.step ht).1) h

/-- A handle whose `OnCompleted` has returned. -/
structure Gone (hndl : ℕ) (c : Context) (s : Runtime) : Prop where
  completed : c ∈ s.pipeline.completions
  returned : executing s.pipeline.main ≠ some c
  issued : hndl < s.json.nextHandle
  closed : ∀ x ∈ s.responses, x.1 ≠ hndl

theorem Gone.later {hndl : ℕ} {c : Context} (h : Gone hndl c s) (hl : Later s t) :
    Gone hndl c t where
  completed := hl.completions h.completed
  returned hexec := by
    rcases hl.executing c hexec with hold | hnew
    · exact h.returned hold
    · exact hnew h.completed
  issued := h.issued.trans_le hl.next_le
  closed x hx := by
    rcases hl.opened x hx with hold | hnew
    · exact h.closed x hold
    · have hlt := h.issued
      omega

theorem Gone.run {hndl : ℕ} {c : Context} {events : List Event} (hs : s.Inv E)
    (h : Gone hndl c s) (hr : (runtime E strtod report).run s events = some t) :
    t.Inv E ∧ Gone hndl c t := by
  refine Transition.System.run_invariant (I := fun s => s.Inv E ∧ Gone hndl c s) ?_ ⟨hs, h⟩
    Transition.System.along_true hr
  intro s e t hs _ ht
  obtain ⟨hinv, hlater⟩ := hs.1.step ht
  exact ⟨hinv, hs.2.later hlater⟩

/-- The handle of a callback is gone as soon as `OnCompleted` has returned. -/
theorem Inv.gone (h : s.Inv E) {hndl : ℕ} {x : ResponseHandle} (hx : (hndl, x) ∈ s.responses)
    (ht : s.step E strtod report (.pipeline .callbackReturns) = some t) :
    ∃ c, c.id = x.object ∧ Gone hndl c t := by
  obtain ⟨c, hexec, hid, -⟩ := h.open_live hx
  have hlt : hndl < s.json.nextHandle := by
    rcases h.oneOpen with ⟨hnil, -⟩ | ⟨g, d, hone, -, -, -, hlt⟩
    · rw [hnil] at hx
      cases hx
    · rw [hone, List.mem_singleton] at hx
      cases hx
      exact hlt
  have hnone : executing t.pipeline.main = none := by
    obtain ⟨p, hp, hu⟩ := Option.bind_eq_some_iff.mp ht
    obtain ⟨u, -, rfl⟩ := Option.map_eq_some_iff.mp hu
    cases step_phase hp with
    | returns d hmain hmain' hcreated hd hc =>
      show executing p.main = none
      rw [hmain']
      rfl
    | other hquiet => cases hquiet
  obtain ⟨hinv, hlater⟩ := h.step ht
  refine ⟨c, hid, ?_, ?_, ?_, ?_⟩
  · exact hlater.completions (executing_completed h.reachable hexec)
  · simp [hnone]
  · exact hlt.trans_le hlater.next_le
  · rw [(hinv.closed hnone).1]
    nofun

/-- The three response natives throw, and change nothing. -/
def Throws (E : Host) (strtod : Bytes → Option Double) (report : Bytes → JsonError) (s : Runtime)
    (hndl : ℕ) : Prop :=
  let thrown : RuntimeResult := some (s, .error (.invalidResponse hndl (E.readError hndl)))
  ∀ plugin, (∀ refused, s.getResponseData E strtod report plugin hndl refused = thrown) ∧
    s.getResponseStatus E plugin hndl = thrown ∧
    ∀ name maxlength, s.getResponseHeader E plugin hndl name maxlength = thrown

/-- At most one response handle is open, that of the context whose `OnCompleted` is executing; no
native and no step of the threads touches a context that is deleted. -/
structure Safe (E : Host) (strtod : Bytes → Option Double) (report : Bytes → JsonError)
    (s : Runtime) : Prop where
  one : s.responses.length ≤ 1
  executing : ∀ hndl x, (hndl, x) ∈ s.responses → ∃ c, Http.executing s.pipeline.main = some c ∧
    c.id = x.object ∧ c ∉ s.pipeline.destroyed
  natives : ∀ plugin hndl,
    (∀ refused, (s.getResponseData E strtod report plugin hndl refused).isSome) ∧
    (s.getResponseStatus E plugin hndl).isSome ∧
    ∀ name maxlength, (s.getResponseHeader E plugin hndl name maxlength).isSome
  threads : ∀ a, (RipExt.step s.pipeline a).isSome →
    (s.step E strtod report (.pipeline a)).isSome
  deleted : ∀ c ∈ s.pipeline.destroyed, s.memory c.id = none

theorem Inv.safe (h : s.Inv E) : s.Safe E strtod report where
  one := by
    rcases h.oneOpen with ⟨hnil, -⟩ | ⟨hndl, c, hone, -⟩
    · simp [hnil]
    · simp [hone]
  executing hndl x hx := by
    obtain ⟨c, hexec, hid, -⟩ := h.open_live hx
    exact ⟨c, hexec, hid, (inHand_live h.reachable (executing_delivering hexec)).2⟩
  natives plugin hndl := by
    refine ⟨fun refused => ?_, ?_, fun name maxlength => ?_⟩
    · obtain ⟨r, hr, -⟩ := h.getResponseData plugin hndl refused
      rw [hr]
      rfl
    · obtain ⟨o, ho⟩ := h.getResponseStatus plugin hndl
      rw [ho]
      rfl
    · obtain ⟨o, ho⟩ := h.getResponseHeader plugin hndl name maxlength
      rw [ho]
      rfl
  threads a ha := by
    obtain ⟨p, hp⟩ := Option.isSome_iff_exists.mp ha
    obtain ⟨t, ht, -⟩ := h.pipeline hp
    simp [Runtime.step, hp, ht]
  deleted := h.stored.freed

theorem throws_of_closed {hndl : ℕ} (h : ∀ x ∈ s.responses, x.1 ≠ hndl) :
    s.Throws E strtod report hndl := by
  have hread : readHandle hndl s.responses = none := by
    cases hr : readHandle hndl s.responses with
    | none => rfl
    | some x => exact absurd rfl (h _ (Json.mem_of_readHandle hr))
  intro plugin
  refine ⟨fun refused => ?_, ?_, fun name maxlength => ?_⟩
  · simp [Runtime.getResponseData, readResponse, hread]
  · simp [Runtime.getResponseStatus, readResponse, hread]
  · simp [Runtime.getResponseHeader, readResponse, hread]

end Runtime

end Invariant

/-- In every state of every run, whatever the plugins do, at most one response handle is open, it
names the response of the context whose `OnCompleted` is executing, and nothing reads a context
that is deleted. Once that `OnCompleted` has returned, no handle names its response in any later
state, and the natives throw for the handle that the plugin has stored. -/
theorem responses_safe (E : Host) (strtod : Bytes → Option Double) (report : Bytes → JsonError)
    {s : Runtime} (h : (runtime E strtod report).Reachable s) :
    s.Safe E strtod report ∧
      ∀ hndl x t u events, (hndl, x) ∈ s.responses →
        s.step E strtod report (.pipeline .callbackReturns) = some t →
        (runtime E strtod report).run t events = some u →
        (∀ y ∈ u.responses, y.2.object ≠ x.object) ∧ u.Throws E strtod report hndl := by
  have hs := Runtime.reachable_inv h
  refine ⟨hs.safe, fun hndl x t u events hx ht hu => ?_⟩
  obtain ⟨c, hid, hgone⟩ := hs.gone hx ht
  obtain ⟨hinv, hlater⟩ := hgone.run (hs.step ht).1 hu
  refine ⟨fun y hy hobject => ?_, Runtime.throws_of_closed hlater.closed⟩
  obtain ⟨d, hexec, hdid, -⟩ := hinv.open_live (show (y.1, y.2) ∈ u.responses from hy)
  have hd := (inHand_live hinv.reachable (executing_delivering hexec)).1
  have hcd : c = d :=
    created_id_inj hinv.reachable (completed_created hinv.reachable hlater.completed) hd
      (by rw [hid, hdid, hobject])
  rw [hcd] at hlater
  exact hlater.returned hexec

/-- A request is sent and answered with `[]` in two pieces. -/
def answeredEvents : List Runtime.Event :=
  ([.native .created .request 7 true, .addLock, .addPush, .addUnlock, .frameHook, .frameTest,
    .asyncPerformRequests, .drainLock, .drainTest, .initCurl ⟨true, true⟩, .timeoutCallback 0,
    .addHandle, .drainTest, .drainUnlock, .performRequests] : List Action).map .pipeline ++
  [.writeResponseBody ⟨0, .request, 7⟩ [91], .writeResponseBody ⟨0, .request, 7⟩ [93]] ++
  ([.transferDone ⟨0, .request, 7⟩ ⟨200, ""⟩, .socketActionReturns, .readMessage, .removeHandle,
    .checkLock, .checkPush, .checkUnlock, .readMessage, .frameHook, .frameTest, .frameLock,
    .framePop, .onCompleted true] : List Action).map .pipeline ++
  [.getResponseStatus 1 1, .getResponseData 1 1 none, .cloneHandle 1 1, .closeHandle 1 1]

/-- What happens after the callback: another frame, in which the stored handle is used. -/
def laterEvents : List Runtime.Event :=
  [.pipeline .frameDelete, .pipeline .frameUnlock, .getResponseStatus 1 1]

theorem answered_safe : ∃ s t u,
    (runtime Json.plainHost noReals noReport).run .loaded answeredEvents = some s ∧
    s.responses = [(1, ⟨0, none⟩)] ∧ s.json.handles.map (·.1) = [2] ∧
    s.Safe Json.plainHost noReals noReport ∧
    s.step Json.plainHost noReals noReport (.pipeline .callbackReturns) = some t ∧
    (runtime Json.plainHost noReals noReport).run t laterEvents = some u ∧
    u.memory 0 = none ∧ u.Throws Json.plainHost noReals noReport 1 := by
  have hrun : ((runtime Json.plainHost noReals noReport).run .loaded answeredEvents).map
      (fun s => (s.responses, s.json.handles.map (·.1))) = some ([(1, ⟨0, none⟩)], [2]) := by
    decide +kernel
  obtain ⟨s, hs, heq⟩ := Option.map_eq_some_iff.mp hrun
  have hlater : (((runtime Json.plainHost noReals noReport).run .loaded answeredEvents).bind
      fun s => (s.step Json.plainHost noReals noReport (.pipeline .callbackReturns)).bind
        fun t => (runtime Json.plainHost noReals noReport).run t laterEvents).map
          (fun u => u.memory 0) = some none := by
    decide +kernel
  rw [hs, Option.bind_some] at hlater
  obtain ⟨u, hu, hgone⟩ := Option.map_eq_some_iff.mp hlater
  obtain ⟨t, ht, hu⟩ := Option.bind_eq_some_iff.mp hu
  obtain ⟨hresponses, hhandles⟩ := Prod.mk.inj heq
  have hsafe := responses_safe Json.plainHost noReals noReport ⟨answeredEvents, hs⟩
  have hmem : (1, ⟨0, none⟩) ∈ s.responses := by simp [hresponses]
  exact ⟨s, t, u, hs, hresponses, hhandles, hsafe.1, ht, hu, hgone,
    (hsafe.2 1 ⟨0, none⟩ t u laterEvents hmem ht hu).2⟩

end RipExt.Http
