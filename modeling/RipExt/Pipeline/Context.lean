import Mathlib.Tactic

/-! The three context classes a request can be queued as, the resources they own, and
what `InitCurl` and the destructors do to those resources. -/
namespace RipExt

/-- The classes that implement `IHTTPContext`. -/
inductive Kind where
  | request
  | file (isUpload : Bool)
  | form
  deriving DecidableEq, Repr

/-- An allocated context. `id` plays the role of its address and is never reused; `value`
is the cell the plugin wants back in its callback. -/
structure Context where
  id : ℕ
  kind : Kind
  value : ℤ
  deriving DecidableEq, Repr

def Context.isFile (c : Context) : Bool :=
  match c.kind with
  | .file _ => true
  | .request | .form => false

/-- What a context or the loaded extension can own. A `poll` is the libuv handle of one
`CurlContext`, named by its socket. -/
inductive Resource where
  | forward (id : ℕ)
  | headers (id : ℕ)
  | easy (id : ℕ)
  | file (id : ℕ)
  | multi
  | timer
  | asyncPerformRequests
  | asyncStopLoop
  | poll (socket : ℕ)
  deriving DecidableEq, Repr

namespace Resource

/-- Handles registered on `g_Loop`; `uv_loop_close` fails while one of them is open. -/
def isUv : Resource → Bool
  | .timer | .asyncPerformRequests | .asyncStopLoop | .poll _ => true
  | .forward _ | .headers _ | .easy _ | .file _ | .multi => false

end Resource

/-- The answers of `curl_easy_init` and of `fopen` inside one call of `InitCurl`. -/
structure InitOutcome where
  easyInit : Bool
  fopen : Bool
  deriving DecidableEq, Repr

/-- The result of `InitCurl` and the resources it acquired on the way. A file context whose
file cannot be opened has already created its easy handle. -/
def Context.initCurl (c : Context) (o : InitOutcome) : Bool × List Resource :=
  if o.easyInit then
    if c.isFile then
      if o.fopen then (true, [.easy c.id, .file c.id]) else (false, [.easy c.id])
    else (true, [.easy c.id])
  else (false, [])

/-- What the destructor gives back: the forward, the easy handle and the header list. None
of the three destructors closes a file. -/
def Context.releases (c : Context) : Resource → Bool
  | .forward i | .easy i | .headers i => i = c.id
  | _ => false

theorem Context.initCurl_fst (c : Context) (o : InitOutcome) :
    (c.initCurl o).1 = (o.easyInit && (!c.isFile || o.fopen)) := by
  unfold Context.initCurl
  cases o.easyInit <;> cases c.isFile <;> cases o.fopen <;> rfl

end RipExt
