import RipExt.Http.Perform

/-! The body of a request on its way to curl: the snapshot that the constructor takes, the options
that `InitCurl` sets for it, and `ReadRequestBody`, which curl calls on the other thread while the
plugin goes on. -/
namespace RipExt.Http
open Json (readHandle)

section Curl

/-- The read functions that are handed to curl. -/
inductive ReadFunction where
  | fread | readRequestBody
  deriving DecidableEq, Repr

/-- The options of an easy handle that depend on the context. A handle starts with `fread` as its
read function. -/
structure CurlOptions where
  post : Bool := false
  upload : Bool := false
  customRequest : Option Bytes := none
  postFieldSize : Option ℤ := none
  inFileSize : Option ℤ := none
  postFields : Option Bytes := none
  readFunction : ReadFunction := .fread
  seekFunction : Option (HTTPRequestContext → Option HTTPRequestContext) := none
  ioctlFunction : Option (HTTPRequestContext → Option HTTPRequestContext) := none
  followLocation : Bool := false
  maxRedirs : ℤ := -1
  connectTimeout : ℤ := 0
  timeout : ℤ := 0
  httpHeader : List Bytes := []
  url : Bytes := []
  maxRecvSpeed : Option ℤ := none
  maxSendSpeed : Option ℤ := none
  credentials : Option (Bytes × Bytes) := none

/-- The conversion of a `size_t` to `curl_off_t`. -/
def toOff (size : ℕ) : ℤ := if size < 2 ^ 63 then size else size - 2 ^ 64

/-- The options of `InitCurl` that all three classes set from their members. -/
def ContextBase.curlOptions (c : ContextBase) : CurlOptions where
  followLocation := true
  maxRedirs := c.options.maxRedirects.toInt
  connectTimeout := c.options.connectTimeout.toInt
  timeout := c.options.timeout.toInt
  httpHeader := c.headers
  url := c.url
  maxRecvSpeed :=
    if 0 < c.options.maxRecvSpeed then some c.options.maxRecvSpeed.toInt else none
  maxSendSpeed :=
    if 0 < c.options.maxSendSpeed then some c.options.maxSendSpeed.toInt else none
  credentials :=
    if c.options.useBasicAuth then some (c.options.username, c.options.password) else none

/-- `HTTPRequestContext::InitCurl`, for an easy handle that curl has created. -/
def HTTPRequestContext.initCurl (c : HTTPRequestContext) : CurlOptions :=
  let options := { c.curlOptions with readFunction := .readRequestBody }
  match c.method with
  | .post => { options with post := true, postFieldSize := some (toOff c.size) }
  | .put => { options with upload := true, inFileSize := some (toOff c.size) }
  | .patch =>
    { options with
      customRequest := some c.method.name, post := true, postFieldSize := some (toOff c.size) }
  | .delete => { options with customRequest := some c.method.name }
  | .get => options

/-- `HTTPFormContext::InitCurl`. -/
def HTTPFormContext.initCurl (c : HTTPFormContext) : CurlOptions :=
  { c.curlOptions with post := true, postFields := some c.formData }

/-- The length that curl puts into the head of the request. -/
def CurlOptions.announced (o : CurlOptions) : Option ℤ := o.postFieldSize.or o.inFileSize

/-- `ReadRequestBody`: the bytes that it copies and the context that it leaves. The differences are
of type `size_t`; there is no result if it would read past the body. -/
def readRequestBody (size nmemb : ℕ) (c : HTTPRequestContext) :
    Option (Bytes × HTTPRequestContext) :=
  let total := size * nmemb % 2 ^ 64
  let left := (c.size + 2 ^ 64 - c.pos) % 2 ^ 64
  let toCopy := if left < total then left else total
  let body := c.body.getD []
  if c.pos + toCopy ≤ body.length then
    some ((body.drop c.pos).take toCopy, { c with pos := c.pos + toCopy })
  else none

end Curl

section Sending

/-- What plugins do while a request is under way. -/
inductive PluginAction where
  | json (c : Json.Call)
  | send (n : Send) (hndl : ℕ) (value : Int32) (o : ForwardOutcome)
  | changeRequest (hndl : ℕ) (change : HTTPRequest → HTTPRequest)
  | changeClient (hndl : ℕ) (change : HTTPClient → HTTPClient)
  | closeRequest (hndl : ℕ)
  | closeClient (hndl : ℕ)

/-- The entry of a handle after a native that changes it. -/
def changeEntry {α : Type} (hndl : ℕ) (change : α → α) (entry : ℕ × α) : ℕ × α :=
  if entry.1 = hndl then (entry.1, change entry.2) else entry

def World.act (V : Env) (w : World) : PluginAction → Option World
  | .json c => (Json.call V.host w.json c).map fun r => { w with json := r.1 }
  | .send n hndl value o => (send V w n hndl value o).map (·.1)
  | .changeRequest hndl change =>
    some { w with requests := w.requests.map (changeEntry hndl change) }
  | .changeClient hndl change => some { w with clients := w.clients.map (changeEntry hndl change) }
  | .closeRequest hndl => some { w with requests := w.requests.filter (·.1 ≠ hndl) }
  | .closeClient hndl => some { w with clients := w.clients.filter (·.1 ≠ hndl) }

/-- One step while a request is sent: a plugin does something, or curl reads from the body. -/
inductive Event where
  | plugin (a : PluginAction)
  | read (size nmemb : ℕ)

/-- One sending of a request; `reads` is the history of the read function, each call with what curl
asked for and what it got. -/
structure Sending where
  world : World
  context : HTTPRequestContext
  reads : List (ℕ × Bytes)

def Sending.step (V : Env) (t : Sending) : Event → Option Sending
  | .plugin a => (t.world.act V a).map fun world => { t with world }
  | .read size nmemb =>
    if size * nmemb < 2 ^ 64 then
      (readRequestBody size nmemb t.context).map fun r =>
        { t with context := r.2, reads := t.reads ++ [(size * nmemb, r.1)] }
    else none

def sending (V : Env) (init : Sending) : Transition.System Sending Event := ⟨init, Sending.step V⟩

/-- The number of bytes that some calls of the read function returned. -/
def delivered (reads : List (ℕ × Bytes)) : ℕ := (reads.map (·.2.length)).sum

/-- What curl has got so far is the beginning of the body, call by call as much as it asked for and
is left. -/
structure Streams (B : Bytes) (t : Sending) : Prop where
  pos_le : t.context.pos ≤ t.context.size
  returned : ∀ pre cap piece post, t.reads = pre ++ (cap, piece) :: post →
    piece.length = min cap (B.length - delivered pre)
  begins : t.reads.flatMap Prod.snd <+: B
  whole : delivered t.reads = B.length → t.reads.flatMap Prod.snd = B
  announced : t.context.initCurl.announced = some (B.length : ℤ)
  ended : ∀ cap, 0 < cap → (cap, []) ∈ t.reads → delivered t.reads = B.length

end Sending

section Reading
variable {V : Env} {B : Bytes} {c : HTTPRequestContext} {t t' : Sending} {size nmemb : ℕ}

/-- The context holds the text `B`, and a part of it has been read. -/
structure HTTPRequestContext.Holds (c : HTTPRequestContext) (B : Bytes) : Prop where
  body : c.body = some B
  size : c.size = B.length
  pos_le : c.pos ≤ B.length
  addressable : B.length < 2 ^ 63

theorem readRequestBody_eq (hc : c.Holds B) (hcap : size * nmemb < 2 ^ 64) :
    readRequestBody size nmemb c = some ((B.drop c.pos).take (size * nmemb),
      { c with pos := c.pos + min (size * nmemb) (B.length - c.pos) }) := by
  have hpos := hc.pos_le
  have hlen := hc.addressable
  have hleft : (c.size + 2 ^ 64 - c.pos) % 2 ^ 64 = B.length - c.pos := by
    rw [hc.size]
    omega
  have hcopy : (if B.length - c.pos < size * nmemb then B.length - c.pos else size * nmemb) =
      min (size * nmemb) (B.length - c.pos) := by
    split_ifs with h <;> omega
  simp only [readRequestBody, hleft, Nat.mod_eq_of_lt hcap, hcopy, hc.body, Option.getD_some]
  rw [if_pos (by omega)]
  congr 2
  rw [← List.length_drop, ← List.take_eq_take_min]

theorem HTTPRequestContext.Holds.read (hc : c.Holds B) (n : ℕ) :
    HTTPRequestContext.Holds { c with pos := c.pos + min n (B.length - c.pos) } B where
  body := hc.body
  size := hc.size
  pos_le := by
    have hpos := hc.pos_le
    dsimp only
    omega
  addressable := hc.addressable

theorem delivered_append (reads reads' : List (ℕ × Bytes)) :
    delivered (reads ++ reads') = delivered reads + delivered reads' := by
  simp [delivered]

/-- What holds of a sending between two steps. -/
structure Sending.Inv (B : Bytes) (t : Sending) : Prop where
  holds : t.context.Holds B
  pos : t.context.pos = delivered t.reads
  returned : ∀ pre cap piece post, t.reads = pre ++ (cap, piece) :: post →
    piece.length = min cap (B.length - delivered pre)
  pieces : t.reads.flatMap Prod.snd = B.take (delivered t.reads)
  announced : t.context.initCurl.announced = some (B.length : ℤ)
  ended : ∀ cap, 0 < cap → (cap, []) ∈ t.reads → delivered t.reads = B.length

theorem Sending.Inv.streams (h : t.Inv B) : Streams B t where
  pos_le := by
    rw [h.holds.size]
    exact h.holds.pos_le
  returned := h.returned
  begins := by
    rw [h.pieces]
    exact List.take_prefix _ _
  whole hall := by rw [h.pieces, hall, List.take_length]
  announced := h.announced
  ended := h.ended

/-- What the read function hands out depends neither on the plugin nor on the store. -/
theorem Sending.Inv.plugin (h : t.Inv B) {a : PluginAction}
    (hstep : t.step V (.plugin a) = some t') : t'.Inv B := by
  obtain ⟨world, -, rfl⟩ := Option.map_eq_some_iff.mp hstep
  exact ⟨h.holds, h.pos, h.returned, h.pieces, h.announced, h.ended⟩

theorem Sending.Inv.read_eq (h : t.Inv B) (hcap : size * nmemb < 2 ^ 64) :
    t.step V (.read size nmemb) = some { t with
      context := { t.context with
        pos := t.context.pos + min (size * nmemb) (B.length - t.context.pos) }
      reads := t.reads ++ [(size * nmemb, (B.drop (delivered t.reads)).take (size * nmemb))] } := by
  rw [Sending.step, if_pos hcap, readRequestBody_eq h.holds hcap, Option.map_some, h.pos]

theorem Sending.Inv.read (h : t.Inv B) (hstep : t.step V (.read size nmemb) = some t') :
    t'.Inv B := by
  have hcap : size * nmemb < 2 ^ 64 := by
    by_contra hover
    rw [Sending.step, if_neg hover] at hstep
    cases hstep
  rw [h.read_eq hcap] at hstep
  obtain rfl := Option.some.inj hstep
  set cap := size * nmemb with hcapdef
  have hle : delivered t.reads ≤ B.length := h.pos ▸ h.holds.pos_le
  have hpiece : ((B.drop (delivered t.reads)).take cap).length =
      min cap (B.length - delivered t.reads) := by
    rw [List.length_take, List.length_drop]
  have hsum : delivered (t.reads ++ [(cap, (B.drop (delivered t.reads)).take cap)]) =
      delivered t.reads + min cap (B.length - delivered t.reads) := by
    rw [delivered_append]
    simp only [delivered, List.map_cons, List.map_nil, List.sum_singleton]
    exact congrArg _ hpiece
  refine ⟨h.holds.read cap, ?_, ?_, ?_, ?_, ?_⟩
  · rw [hsum, ← h.pos]
  · intro pre cap' piece post hreads
    rcases List.eq_nil_or_concat post with rfl | ⟨post, last, rfl⟩
    · obtain ⟨rfl, hlast⟩ := List.append_inj' hreads rfl
      simp only [List.cons.injEq, Prod.mk.injEq, and_true] at hlast
      rw [← hlast.1, ← hlast.2, hpiece]
    · rw [List.concat_eq_append, ← List.cons_append, ← List.append_assoc] at hreads
      exact h.returned pre cap' piece post (List.append_inj' hreads rfl).1
  · rw [hsum, List.flatMap_append, h.pieces, List.take_add]
    simp [← List.length_drop, ← List.take_eq_take_min]
  · exact h.announced
  · intro cap' hpos hmem
    rw [hsum]
    rcases List.mem_append.mp hmem with hold | hnew
    · have hall := h.ended cap' hpos hold
      omega
    · simp only [List.mem_singleton, Prod.mk.injEq] at hnew
      have hzero : min cap (B.length - delivered t.reads) = 0 := by
        rw [← hpiece, ← hnew.2, List.length_nil]
      omega

theorem Sending.Inv.step (h : t.Inv B) {e : Event} (hstep : t.step V e = some t') : t'.Inv B := by
  cases e with
  | plugin a => exact h.plugin hstep
  | read size nmemb => exact h.read hstep

theorem Sending.Inv.reachable {init : Sending} (h : init.Inv B)
    (hreach : (sending V init).Reachable t) : t.Inv B :=
  Transition.System.reachable_invariant h (fun _ _ _ hs hstep => hs.step hstep) hreach

/-- A context as its constructor leaves it. -/
theorem Sending.Inv.start {w : World} (hc : c.Holds B) (hpos : c.pos = 0)
    (hmethod : c.method.hasBody = true) : Sending.Inv B ⟨w, c, []⟩ where
  holds := hc
  pos := hpos
  returned := by
    intro pre cap piece post hreads
    simp at hreads
  pieces := rfl
  announced := by
    have hoff : toOff c.size = B.length := by
      rw [toOff, hc.size, if_pos hc.addressable]
    show c.initCurl.announced = some (B.length : ℤ)
    unfold HTTPRequestContext.initCurl
    cases hm : c.method with
    | post | put | patch => simp [CurlOptions.announced, ContextBase.curlOptions, hoff]
    | get | delete =>
      rw [hm] at hmethod
      cases hmethod
  ended := by simp

end Reading

/-- A JSON value is sent by one of the six natives with data, and its text is `B` at that moment.
Whatever plugins do afterwards and however curl reads: every call returns as much as is asked for
and left, what is returned is the beginning of `B`, and the announced length is that of `B`. -/
theorem sent_body_streams (V : Env) {w : World} {n : Send} {hndl data : ℕ} (value : Int32)
    {json : Json.Ref} {B : Bytes} (hreads : n.Reads w hndl) (hdata : n.data = some data)
    (hjson : readHandle data w.json.handles = some json)
    (hB : Json.jsonDumps V.printf w.json.heap json = some (some B)) (hlen : B.length < 2 ^ 63) :
    ∃ w' c, send V w n hndl value .created = some (w', .returned) ∧
      w'.queue = w.queue ++ [.request c] ∧ ∀ t, (sending V ⟨w', c, []⟩).Reachable t →
        Streams B t ∧ ∀ size nmemb, size * nmemb < 2 ^ 64 →
          ∃ t' piece, t.step V (.read size nmemb) = some t' ∧
            t'.reads = t.reads ++ [(size * nmemb, piece)] := by
  obtain ⟨w', c, hsend, hqueue, hmethod, hbody, hsize, hpos⟩ :=
    send_posted V value hreads hdata hjson hB
  have hc : c.Holds B := ⟨hbody, hsize, by rw [hpos]; exact Nat.zero_le _, hlen⟩
  refine ⟨w', c, hsend, hqueue, fun t ht => ?_⟩
  have hinv : t.Inv B := (Sending.Inv.start hc hpos hmethod).reachable ht
  exact ⟨hinv.streams, fun size nmemb hcap => ⟨_, _, hinv.read_eq hcap, rfl⟩⟩

/-- An empty array is posted. -/
theorem posted_array_streams :
    ∃ s, (Json.system plainEnv.host).run .empty [.createArray none] = some s ∧
      ∃ w' c, send plainEnv (exampleWorld s) (.performPostRequest 1) 7 0 .created =
          some (w', .returned) ∧
        w'.queue = [.request c] ∧
          ∀ t, (sending plainEnv ⟨w', c, []⟩).Reachable t → Streams [91, 93] t := by
  have hrun : ((Json.system plainEnv.host).run .empty [.createArray none]).map (fun s =>
      (readHandle 1 s.handles, Json.jsonDumps plainEnv.printf s.heap (.node 0))) =
      some (some (.node 0), some (some [91, 93])) := by decide
  obtain ⟨s, hs, hfacts⟩ := Option.map_eq_some_iff.mp hrun
  obtain ⟨hjson, hbody⟩ := Prod.ext_iff.mp hfacts
  have hreads : (Send.performPostRequest 1).Reads (exampleWorld s) 7 :=
    ⟨rfl, by simpa [Send.data, exampleWorld] using congrArg Option.isSome hjson⟩
  obtain ⟨w', c, hsend, hqueue, hstreams⟩ :=
    sent_body_streams plainEnv 0 hreads rfl hjson hbody (by decide)
  exact ⟨s, hs, w', c, hsend, hqueue, fun t ht => (hstreams t ht).1⟩

section Restarting

/-- A call of the read function. -/
structure ReadCall where
  size : ℕ
  nmemb : ℕ
  fits : size * nmemb < 2 ^ 64

/-- The calls of one attempt, in order: what they return, and the context they leave. -/
def readCalls : List ReadCall → HTTPRequestContext → Option (Bytes × HTTPRequestContext)
  | [], c => some ([], c)
  | r :: rest, c =>
    (readRequestBody r.size r.nmemb c).bind fun (piece, c) =>
      (readCalls rest c).map fun (pieces, c) => (piece ++ pieces, c)

/-- How much some calls ask for. -/
def asked (reads : List ReadCall) : ℕ := (reads.map fun r => r.size * r.nmemb).sum

/-- `Curl_readrewind` for data that is no mime part; without a result it fails the transfer with
`CURLE_SEND_FAIL_REWIND`. -/
def curlReadrewind (o : CurlOptions) (fseek : Bool) (c : HTTPRequestContext) :
    Option HTTPRequestContext :=
  if o.postFields.isSome then some c
  else
    match o.seekFunction with
    | some seek => seek c
    | none =>
      match o.ioctlFunction with
      | some ioctl => ioctl c
      | none => if o.readFunction = .fread ∧ fseek then some c else none

/-- An attempt that curl gives up, for a redirect or because the connection it reused is dead: the
calls of the read function, how many of the bytes are still unsent in curl's buffer, and whether
`fseek` would succeed. -/
structure Attempt where
  redirect : Bool
  reads : List ReadCall
  unsent : ℕ
  fseek : Bool

/-- The end of an attempt: `http_perhapsrewind` and `Curl_retry_request` rewind if something has
been sent. -/
def restart (o : CurlOptions) (c : HTTPRequestContext) (a : Attempt) : Option HTTPRequestContext :=
  (readCalls a.reads c).bind fun (pieces, c) =>
    if pieces.length - a.unsent = 0 then some c else curlReadrewind o a.fseek c

def restarts (o : CurlOptions) (c : HTTPRequestContext) (chain : List Attempt) :
    Option HTTPRequestContext :=
  chain.foldlM (restart o) c

/-- curl follows the redirects of the chain. -/
def CurlOptions.Follows (o : CurlOptions) (chain : List Attempt) : Prop :=
  o.followLocation = true ∧ (o.maxRedirs = -1 ∨ (chain.countP (·.redirect) : ℤ) ≤ o.maxRedirs)

/-- After the chain the read function hands out the whole body, from its first byte on. -/
def BodyResent (c : HTTPRequestContext) (B : Bytes) (chain : List Attempt) : Prop :=
  ∃ c', restarts c.initCurl c chain = some c' ∧ ∀ reads : List ReadCall, ∃ pieces c'',
    readCalls reads c' = some (pieces, c'') ∧
      pieces = B.take (asked reads)

end Restarting

section Rewinding
variable {B : Bytes} {c c' : HTTPRequestContext} {reads : List ReadCall} {chain : List Attempt}

theorem drop_min_length {n pos : ℕ} (hpos : pos ≤ B.length) :
    B.drop (pos + min n (B.length - pos)) = (B.drop pos).drop n := by
  rw [List.drop_drop]
  rcases Nat.le_total n (B.length - pos) with hle | hle
  · rw [min_eq_left hle]
  · rw [min_eq_right hle, List.drop_of_length_le (by omega), List.drop_of_length_le (by omega)]

theorem readCalls_eq (hc : c.Holds B) (reads : List ReadCall) :
    readCalls reads c = some ((B.drop c.pos).take (asked reads),
      { c with pos := c.pos + min (asked reads) (B.length - c.pos) }) := by
  induction reads generalizing c with
  | nil => simp [readCalls, asked]
  | cons r rest ih =>
    have hasked : asked (r :: rest) = r.size * r.nmemb + asked rest := rfl
    have hpos := hc.pos_le
    have hsum : c.pos + min (r.size * r.nmemb) (B.length - c.pos) +
        min (asked rest) (B.length - (c.pos + min (r.size * r.nmemb) (B.length - c.pos))) =
          c.pos + min (asked (r :: rest)) (B.length - c.pos) := by
      rw [hasked]
      omega
    rw [readCalls, readRequestBody_eq hc r.fits, Option.bind_some]
    dsimp only
    rw [ih (hc.read _), Option.map_some]
    dsimp only
    rw [hsum, drop_min_length hpos, ← List.take_add, ← hasked]

/-- `InitCurl` sets nothing by which curl could rewind. -/
theorem curlReadrewind_fails (c c' : HTTPRequestContext) (fseek : Bool) :
    curlReadrewind c.initCurl fseek c' = none := by
  unfold HTTPRequestContext.initCurl
  cases c.method <;> rfl

/-- The sibling class hands its data to curl as a whole, which can always be sent again. -/
theorem form_rewinds (c : HTTPFormContext) (c' : HTTPRequestContext) (fseek : Bool) :
    curlReadrewind c.initCurl fseek c' = some c' := rfl

theorem restart_eq (hc : c.Holds B) {c₀ : HTTPRequestContext} {a : Attempt}
    (h : restart c₀.initCurl c a = some c') :
    c' = { c with pos := c.pos + min (asked a.reads) (B.length - c.pos) } := by
  rw [restart, readCalls_eq hc, Option.bind_some] at h
  dsimp only at h
  split_ifs at h
  · exact (Option.some.inj h).symm
  · rw [curlReadrewind_fails] at h
    cases h

/-- What has been read is never read again. -/
theorem restarts_pos (hc : c.Holds B) {c₀ : HTTPRequestContext}
    (h : restarts c₀.initCurl c chain = some c') : c'.Holds B ∧ c.pos ≤ c'.pos := by
  induction chain generalizing c with
  | nil =>
    obtain rfl := Option.some.inj h
    exact ⟨hc, le_rfl⟩
  | cons a chain ih =>
    rw [restarts, List.foldlM_cons] at h
    obtain ⟨c₁, hc₁, hrest⟩ := Option.bind_eq_some_iff.mp h
    obtain rfl := restart_eq hc hc₁
    obtain ⟨hc', hpos⟩ := ih (hc.read _) hrest
    exact ⟨hc', (Nat.le_add_right _ _).trans hpos⟩

theorem restart_of_nothing_asked (hc : c.Holds B) {c₀ : HTTPRequestContext} {a : Attempt}
    (h : asked a.reads = 0) : restart c₀.initCurl c a = some c := by
  rw [restart, readCalls_eq hc, Option.bind_some, h]
  simp

theorem restarts_of_nothing_asked (hc : c.Holds B) {c₀ : HTTPRequestContext}
    (h : ∀ a ∈ chain, asked a.reads = 0) : restarts c₀.initCurl c chain = some c := by
  induction chain with
  | nil => rfl
  | cons a chain ih =>
    rw [restarts, List.foldlM_cons, restart_of_nothing_asked hc (h a (List.mem_cons_self ..))]
    exact ih fun a ha => h a (List.mem_cons_of_mem _ ha)

/-- A chain that ends at the first byte never left it. -/
theorem nothing_asked_of_restarts (hc : c.Holds B) (hpos : c.pos = 0) (hB : B ≠ [])
    {c₀ : HTTPRequestContext} (h : restarts c₀.initCurl c chain = some c') (hend : c'.pos = 0) :
    ∀ a ∈ chain, asked a.reads = 0 := by
  induction chain with
  | nil => simp
  | cons a chain ih =>
    rw [restarts, List.foldlM_cons] at h
    obtain ⟨c₁, hc₁, hrest⟩ := Option.bind_eq_some_iff.mp h
    obtain rfl := restart_eq hc hc₁
    have hstay := (restarts_pos (hc.read _) hrest).2
    have hasked : asked a.reads = 0 := by
      have hlength : 0 < B.length := List.length_pos_iff.mpr hB
      dsimp only at hstay
      omega
    rw [hasked, Nat.zero_min, Nat.add_zero] at hrest
    intro b hb
    rcases List.mem_cons.mp hb with rfl | hb
    · exact hasked
    · exact ih hrest b hb

end Rewinding

/-- A body is sent again after a chain of redirects and retries exactly if curl has asked for none
of it before. -/
theorem bodyResent_iff {c : HTTPRequestContext} {B : Bytes} (hc : c.Holds B) (hpos : c.pos = 0)
    (hB : B ≠ []) (chain : List Attempt) :
    BodyResent c B chain ↔ ∀ a ∈ chain, asked a.reads = 0 := by
  constructor
  · rintro ⟨c', hrestarts, hresent⟩
    refine nothing_asked_of_restarts hc hpos hB hrestarts ?_
    have hc' := (restarts_pos hc hrestarts).1
    have hlen := hc'.addressable
    obtain ⟨pieces, c'', hread, hpieces⟩ := hresent [⟨1, B.length, by omega⟩]
    have hasked : asked [⟨1, B.length, by omega⟩] = B.length := by simp [asked]
    rw [readCalls_eq hc', hasked] at hread
    rw [hasked, List.take_length] at hpieces
    obtain ⟨hdrop, -⟩ := Prod.ext_iff.mp (Option.some.inj hread)
    have hlength := congrArg List.length (hdrop.trans hpieces)
    rw [List.length_take, List.length_drop] at hlength
    have hpos' := hc'.pos_le
    have hlong : 0 < B.length := List.length_pos_iff.mpr hB
    omega
  · intro hnothing
    refine ⟨c, restarts_of_nothing_asked hc hnothing, fun reads => ⟨_, _, readCalls_eq hc reads, ?_⟩⟩
    rw [hpos, List.drop_zero]

/-- A context that posts `[]`, as the constructor makes it for a request with the default options. -/
def arrayContext : HTTPRequestContext where
  url := ascii "http://h/p"
  headers := []
  forward := 0
  value := 0
  options := .default
  method := .post
  body := some [91, 93]
  pos := 0
  size := 2

theorem arrayContext_holds : arrayContext.Holds [91, 93] := ⟨rfl, rfl, by decide, by decide⟩

/-- The connection dies before curl asks for the body. -/
theorem arrayContext_resent : arrayContext.initCurl.Follows [⟨false, [], 0, false⟩] ∧
    BodyResent arrayContext [91, 93] [⟨false, [], 0, false⟩] := by
  refine ⟨⟨rfl, .inr (by decide)⟩, (bodyResent_iff arrayContext_holds rfl (by simp) _).mpr ?_⟩
  intro a ha
  obtain rfl := List.mem_singleton.mp ha
  rfl

/-- The server redirects after the whole body has been sent: curl cannot rewind. -/
theorem redirected_body_lost :
    arrayContext.initCurl.Follows [⟨true, [⟨1, 65536, by decide⟩], 0, false⟩] ∧
      ¬BodyResent arrayContext [91, 93] [⟨true, [⟨1, 65536, by decide⟩], 0, false⟩] := by
  refine ⟨⟨rfl, .inr (by decide)⟩, ?_⟩
  rintro ⟨c', hrestarts, -⟩
  have hnone : restarts arrayContext.initCurl arrayContext
      [⟨true, [⟨1, 65536, by decide⟩], 0, false⟩] = none := by
    rw [restarts, List.foldlM_cons, restart, readCalls_eq arrayContext_holds, Option.bind_some]
    simp [asked, arrayContext, curlReadrewind_fails]
  rw [hnone] at hrestarts
  cases hrestarts

end RipExt.Http
