import RipExt.Http.Perform
import RipExt.Json.RoundTrip

/-! The JSON data of a request. The constructor of the context takes a failure of `json_dumps` for
an empty text, so that the body is the value of the handle only for the documents that the encoder
writes and the decoder reads. -/
namespace RipExt.Http
open Json (readHandle JsonError Double Denotes Stored Bounded anyString)

section Law

/-- The decoder builds from the body a document with the value of `json`. -/
def DecodesTo (H : Json.Hashing) (strtod : Bytes → Option Double) (report : Bytes → JsonError)
    (heap : Json.Store) (json : Json.Ref) (body : Bytes) : Prop :=
  Denotes heap (Json.jsonLoadb strtod anyString report body).text json ∧
    ∃ json' heap', Json.jsonLoads H heap (Json.jsonLoadb strtod anyString report body) =
        some (some json', heap') ∧
      Denotes heap' (Json.jsonLoadb strtod anyString report body).text json'

/-- Nothing is queued, or a context whose body decodes to the value of the handle. -/
def PostsValue (V : Env) (strtod : Bytes → Option Double) (report : Bytes → JsonError) (w : World)
    (data : ℕ) (w' : World) : Prop :=
  w'.queue = w.queue ∨ ∃ c json body, w'.queue = w.queue ++ [.request c] ∧
    readHandle data w.json.handles = some json ∧ c.body = some body ∧ c.pos = 0 ∧
    c.size = body.length ∧ DecodesTo V.host.toHashing strtod report w.json.heap json body

/-- An object or an array that is nested within the depth of the decoder, and so not in itself. -/
def Postable (heap : Json.Store) (json : Json.Ref) : Bool :=
  Json.jsonIsContainer heap json = some true && Json.nestedWithin heap Json.jsonParserMaxDepth json

end Law

section Refused
variable {V : Env} {w : World} {n : Send} {hndl data : ℕ} {o : ForwardOutcome}

theorem createForward_refused (w : World) (ho : o ≠ .created) :
    ∃ w', w.createForward o = (none, w') ∧ w'.queue = w.queue := by
  cases o with
  | created => exact absurd rfl ho
  | noForward => exact ⟨w, rfl, rfl⟩
  | addFunctionFails => exact ⟨_, rfl, rfl⟩

theorem performWithData_refused (method : Method) (value : Int32)
    (h : ¬((readHandle hndl w.requests).isSome ∧ (readHandle data w.json.handles).isSome ∧
      o = .created)) :
    ∃ r, performWithData V w method hndl data value o = some r ∧ r.1.queue = w.queue := by
  unfold performWithData getRequestFromHandle getJSONFromHandle
  cases hrequest : readHandle hndl w.requests with
  | none => exact ⟨_, rfl, rfl⟩
  | some request =>
    cases hjson : readHandle data w.json.handles with
    | none => exact ⟨_, rfl, rfl⟩
    | some json =>
      have ho : o ≠ .created := by
        rintro rfl
        exact h ⟨by rw [hrequest]; rfl, by rw [hjson]; rfl, rfl⟩
      obtain ⟨w', hforward, hqueue⟩ := createForward_refused w ho
      refine ⟨(w', .thrown .noForward), ?_, hqueue⟩
      simp only [sendRequest, hforward]

theorem clientWithData_refused (method : Method) (endpoint : Bytes) (value : Int32)
    (h : ¬((readHandle hndl w.clients).isSome ∧ (readHandle data w.json.handles).isSome ∧
      o = .created)) :
    ∃ r, clientWithData V w method endpoint hndl data value o = some r ∧ r.1.queue = w.queue := by
  unfold clientWithData readClient readData
  cases hclient : readHandle hndl w.clients with
  | none => exact ⟨_, rfl, rfl⟩
  | some client =>
    cases hjson : readHandle data w.json.handles with
    | none => exact ⟨_, rfl, rfl⟩
    | some json =>
      have ho : o ≠ .created := by
        rintro rfl
        exact h ⟨by rw [hclient]; rfl, by rw [hjson]; rfl, rfl⟩
      obtain ⟨w', hforward, hqueue⟩ := createForward_refused w ho
      refine ⟨({ w' with log := w'.log ++ ["Could not create forward."] }, .returned), ?_, hqueue⟩
      simp only [sendClient, hforward]

/-- A native with data queues nothing unless its handles are open and its forward is created. -/
theorem send_refused (V : Env) (value : Int32) (hdata : n.data = some data)
    (h : ¬(n.Reads w hndl ∧ o = .created)) :
    ∃ r, send V w n hndl value o = some r ∧ r.1.queue = w.queue := by
  cases n with
  | performPostRequest _ | performPutRequest _ | performPatchRequest _ =>
    cases hdata
    exact performWithData_refused _ value fun ⟨hopen, hjson, ho⟩ => h ⟨⟨hopen, hjson⟩, ho⟩
  | postRequest endpoint _ | putRequest endpoint _ | patchRequest endpoint _ =>
    cases hdata
    exact clientWithData_refused _ endpoint value fun ⟨hopen, hjson, ho⟩ => h ⟨⟨hopen, hjson⟩, ho⟩
  | _ => cases hdata

end Refused

section Posting
variable {V : Env} {strtod : Bytes → Option Double} {report : Bytes → JsonError} {w : World}
  {n : Send} {hndl data : ℕ} {json : Json.Ref} {body : Option Bytes} {r : World × SendOutcome}

/-- The queued context is the one of the law. -/
theorem Posted.postsValue_iff (hposted : Posted w body (some r))
    (hjson : readHandle data w.json.handles = some json) :
    PostsValue V strtod report w data r.1 ↔
      ∃ text, body = some text ∧
        DecodesTo V.host.toHashing strtod report w.json.heap json text := by
  obtain ⟨w', c, hr, hqueue, -, hbody, hsize, hpos⟩ := hposted
  cases hr
  constructor
  · rintro (hsame | ⟨c', json', text, hqueue', hjson', hbody', -, -, hdecodes⟩)
    · rw [hqueue] at hsame
      simp at hsame
    · have hcontext : c = c' := by
        rw [hqueue] at hqueue'
        simpa using List.append_cancel_left hqueue'
      obtain rfl := Option.some.inj (hjson.symm.trans hjson')
      exact ⟨text, by rw [← hbody, hcontext, hbody'], hdecodes⟩
  · rintro ⟨text, rfl, hdecodes⟩
    exact .inr ⟨c, json, text, hqueue, hjson, hbody, hpos, hsize, hdecodes⟩

/-- A body that decodes to the value was written for a container, and its value is not nested more
deeply than the decoder goes. -/
theorem postable_of_decodes {printf : Double → Bytes} {heap : Json.Store} {H : Json.Hashing}
    {text : Bytes} (hdumps : Json.jsonDumps printf heap json = some (some text))
    (hdecodes : DecodesTo H strtod report heap json text) : Postable heap json = true := by
  obtain ⟨container, hcontainer, hdumps⟩ := Option.bind_eq_some_iff.mp hdumps
  have htrue : container = true := by
    by_contra hfalse
    rw [if_neg hfalse] at hdumps
    cases hdumps
  rw [Postable, hcontainer, htrue, hdecodes.1.nested (Json.jsonLoadb_depth report text)]
  rfl

theorem decodes_of_postable {heap : Json.Store} {H : Json.Hashing} (hs : Stored heap)
    (hbound : Bounded heap) {printf : Double → Bytes}
    (hreals : Json.RealsReadBack ⟨printf, strtod⟩ heap) (h : Postable heap json = true)
    (report : Bytes → JsonError) :
    ∃ text, Json.jsonDumps printf heap json = some (some text) ∧
      DecodesTo H strtod report heap json text := by
  obtain ⟨hcontainer, hnested⟩ := Bool.and_eq_true_iff.mp h
  obtain ⟨text, hdumps, hdenotes, haccepted⟩ :=
    Json.jsonDumps_decodes hs hbound hreals (of_decide_eq_true hcontainer) hnested report
  have hkeys : Json.KeysDistinct heap := fun json es hread => (hs.read hread).2
  exact ⟨text, hdumps, hdenotes,
    Json.jsonLoads_denotes haccepted (hdenotes.distinct hkeys) hbound⟩

end Posting

/-- After every run of the JSON natives, a native with data either queues nothing or queues a body
that decodes to the value of the handle, if and only if the handle, whenever it gets as far as the
encoder, is that of an object or an array from which no chain of containers is longer than the
decoder follows. -/
theorem send_postsValue_iff (V : Env) (strtod : Bytes → Option Double)
    (report : Bytes → JsonError) {w : World} {calls : List Json.Call}
    (hcalls : (Json.system V.host).Along (fun _ c => c.Received strtod) .empty calls)
    (hrun : (Json.system V.host).run .empty calls = some w.json)
    (hreals : Json.RealsReadBack ⟨V.printf, strtod⟩ w.json.heap) {n : Send} {data : ℕ}
    (hdata : n.data = some data) (hndl : ℕ) (value : Int32) (o : ForwardOutcome) :
    ∃ r, send V w n hndl value o = some r ∧
      (PostsValue V strtod report w data r.1 ↔
        (n.Reads w hndl → o = .created → ∀ json, readHandle data w.json.handles = some json →
          Postable w.json.heap json = true)) := by
  by_cases hsend : n.Reads w hndl ∧ o = .created
  · obtain ⟨hreads, rfl⟩ := hsend
    have hcounted := Json.reachable_balanced ⟨calls, hrun⟩
    have hopen := hreads.2
    rw [hdata, Option.all_some] at hopen
    obtain ⟨json, hjson⟩ := Option.isSome_iff_exists.mp hopen
    obtain ⟨body, hbody⟩ := Option.isSome_iff_exists.mp
      (Json.jsonDumps_isSome V.printf hcounted (hcounted.live_handle hjson))
    have hposted := send_posted V value hreads hdata hjson hbody
    obtain ⟨w', c, hr, -⟩ := id hposted
    rw [hr] at hposted
    refine ⟨_, hr, (hposted.postsValue_iff hjson).trans ⟨?_, ?_⟩⟩
    · rintro ⟨text, rfl, hdecodes⟩ - - json' hjson'
      obtain rfl := Option.some.inj (hjson.symm.trans hjson')
      exact postable_of_decodes hbody hdecodes
    · intro h
      obtain ⟨text, hdumps, hdecodes⟩ := decodes_of_postable (Json.run_valid hcalls hrun).heap
        hcounted.bound hreals (h hreads rfl json hjson) report
      exact ⟨text, Option.some.inj (hbody.symm.trans hdumps), hdecodes⟩
  · obtain ⟨r, hr, hqueue⟩ := send_refused V value hdata hsend
    refine ⟨r, hr, iff_of_true (.inl hqueue) ?_⟩
    intro hreads ho
    exact absurd ⟨hreads, ho⟩ hsend

/-- The number `1.5`, printed and read back. -/
def halfText : Json.FloatText := ⟨fun _ => ascii "1.5", fun _ => some ⟨false, 3, -1⟩⟩

theorem halfText_readsBack : halfText.ReadsBack ⟨false, 12582912, -23⟩ := by
  have hvalue : (Double.mk false 12582912 (-23)).magnitude = 3 / 2 := by
    norm_num [Double.magnitude]
  have hread : (Double.mk false 3 (-1)).magnitude = 3 / 2 := by
    norm_num [Double.magnitude]
  have hdigits (b : UInt8) (hb : b ∈ [49] ∨ b ∈ [53]) : Json.isDigit b = true := by
    rcases hb with hb | hb <;> rw [List.mem_singleton.mp hb] <;> rfl
  refine ⟨⟨false, [49], [53], none⟩, ⟨⟨⟨by simp, fun b hb => hdigits b (.inl hb)⟩, by simp,
    fun b hb => hdigits b (.inr hb), by simp⟩, by simp, by decide⟩, rfl, ?_⟩
  intro m' _ _ _
  exact ⟨_, rfl, rfl, hvalue.trans hread.symm⟩

/-- An array of a real number and a string is built. -/
def arrayRun : List Json.Call :=
  [.createArray none, .pushArray 1 (.float 1069547520), .pushArray 1 (.string [10])]

/-- The array is posted. -/
theorem post_array_postsValue : ∃ s, (Json.system Json.plainHost).run .empty arrayRun = some s ∧
    ∃ r, send ⟨Json.plainHost, halfText.printf, mapOrder⟩ (exampleWorld s) (.performPostRequest 1)
        7 0 .created = some r ∧
      PostsValue ⟨Json.plainHost, halfText.printf, mapOrder⟩ halfText.strtod (fun _ => ⟨0, 0, []⟩)
        (exampleWorld s) 1 r.1 := by
  let view (s : Json.State) := (s.heap.next,
    (List.range 3).map fun n => (s.heap.cells n).map RefCount.Cell.payload,
    readHandle 1 s.handles, Postable s.heap (.node 0))
  have hview : ((Json.system Json.plainHost).run .empty arrayRun).map view =
      some (3, [some (.array [.node 1, .node 2]), some (.real ⟨false, 12582912, -23⟩),
        some (.string [10])], some (.node 0), true) := by
    decide +kernel
  obtain ⟨s, hs, hstate⟩ := Option.map_eq_some_iff.mp hview
  simp only [view, Prod.mk.injEq, List.range, List.range.loop, List.map_cons, List.map_nil,
    List.cons.injEq] at hstate
  obtain ⟨hnext, ⟨harray, hreal, hstring, -⟩, hhandle, hpostable⟩ := hstate
  have hreals : Json.RealsReadBack halfText s.heap := by
    intro json x hread
    cases json with
    | node n =>
      obtain ⟨c, hc, hpayload⟩ := Option.map_eq_some_iff.mp hread
      have hn : n < 3 := by
        by_contra hn
        have hfree := (Json.reachable_balanced ⟨_, hs⟩).bound n (by omega)
        rw [hfree] at hc
        cases hc
      have hpayload : (s.heap.cells n).map RefCount.Cell.payload = some (.real x) := by
        rw [hc, Option.map_some, Option.some.inj hpayload]
      interval_cases n
      · cases harray.symm.trans hpayload
      · cases hreal.symm.trans hpayload
        exact halfText_readsBack
      · cases hstring.symm.trans hpayload
    | _ => cases hread
  have hcalls : (Json.system Json.plainHost).Along (fun _ c => c.Received halfText.strtod) .empty
      arrayRun :=
    ⟨trivial, fun _ _ => ⟨trivial, fun _ _ => ⟨trivial, fun _ _ => trivial⟩⟩⟩
  obtain ⟨r, hr, hlaw⟩ := send_postsValue_iff ⟨Json.plainHost, halfText.printf, mapOrder⟩
    halfText.strtod (fun _ => ⟨0, 0, []⟩) (w := exampleWorld s) hcalls hs hreals
    (n := .performPostRequest 1) rfl 7 0 .created
  refine ⟨s, hs, r, hr, hlaw.mpr ?_⟩
  intro _ _ json hjson
  obtain rfl := Option.some.inj (hhandle.symm.trans hjson)
  exact hpostable

/-- The value of an array is fetched, and so a handle to `true` is held. -/
def scalarRun : List Json.Call :=
  [.createArray none, .pushArray 1 (.bool 1), .getArray (.value none) 1 0]

/-- Two arrays are put into each other. -/
def cyclicRun : List Json.Call :=
  [.createArray none, .createArray none, .pushArray 1 (.handle 2), .pushArray 2 (.handle 1)]

/-- After the calls, the native returns and its request is queued without a body. -/
def QueuesEmpty (V : Env) (strtod : Bytes → Option Double) (report : Bytes → JsonError) (n : Send)
    (hndl data : ℕ) (calls : List Json.Call) : Prop :=
  ∃ s r c, (Json.system V.host).run .empty calls = some s ∧
    send V (exampleWorld s) n hndl 0 .created = some r ∧ r.2 = .returned ∧
    r.1.queue = [.request c] ∧ c.body = none ∧ c.size = 0 ∧
    ¬PostsValue V strtod report (exampleWorld s) data r.1

theorem queuesEmpty_of_dumps {V : Env} {strtod : Bytes → Option Double}
    {report : Bytes → JsonError} {n : Send} {hndl data : ℕ} {calls : List Json.Call}
    (hdata : n.data = some data)
    (hreads : ∀ s, (readHandle data s.handles).isSome → n.Reads (exampleWorld s) hndl)
    (hdumps : ((Json.system V.host).run .empty calls).bind (fun s =>
      (readHandle data s.handles).map fun json => Json.jsonDumps V.printf s.heap json) =
        some (some none)) :
    QueuesEmpty V strtod report n hndl data calls := by
  obtain ⟨s, hs, hread⟩ := Option.bind_eq_some_iff.mp hdumps
  obtain ⟨json, hjson, hbody⟩ := Option.map_eq_some_iff.mp hread
  have hposted := send_posted V 0 (hreads s (by rw [hjson]; rfl)) hdata hjson hbody
  obtain ⟨w', c, hr, hqueue, -, hnone, hsize, -⟩ := id hposted
  rw [hr] at hposted
  refine ⟨s, (w', .returned), c, hs, hr, rfl, hqueue, hnone, hsize, ?_⟩
  rw [hposted.postsValue_iff hjson]
  rintro ⟨text, ⟨⟩, -⟩

/-- A handle to `true` and a cyclic document are posted with an empty body, by a request and by a
client. -/
theorem post_queues_empty_body :
    QueuesEmpty plainEnv (fun _ => none) (fun _ => ⟨0, 0, []⟩) (.performPostRequest 2) 7 2 scalarRun ∧
    QueuesEmpty plainEnv (fun _ => none) (fun _ => ⟨0, 0, []⟩) (.postRequest [] 1) 8 1 cyclicRun := by
  refine ⟨queuesEmpty_of_dumps rfl ?_ (by decide +kernel),
    queuesEmpty_of_dumps rfl ?_ (by decide +kernel)⟩
  · intro s hopen
    exact ⟨rfl, hopen⟩
  · intro s hopen
    exact ⟨rfl, hopen⟩

end RipExt.Http
