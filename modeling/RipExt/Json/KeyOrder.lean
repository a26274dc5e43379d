import RipExt.Foundation.Enumeration
import RipExt.Json.Integers
import RipExt.Json.Laws
import RipExt.Json.Tables

/-! The order in which `ReadKey` returns the keys of an object. The iterator stands on the first
pair that was not read; new pairs go to the end of the list, so that they are read as well as long
as the iterator has not come to its end. -/
namespace RipExt.Json
open RefCount Enumeration

section Law

/-- The addresses and the keys of the pairs of an object, in the order of its `ordered_list`. -/
def pairs (heap : Store) (object : Ref) : List (ℕ × Bytes) :=
  match Store.read heap object with
  | some (some (.object es)) => es.map fun e => (e.id, e.key)
  | _ => []

def State.objectKeys (s : State) (object : Ref) : List Bytes := (pairs s.heap object).map (·.2)

/-- A `ReadKey` on this iterator. -/
def Call.readsFrom (hndlKeys : ℕ) : Call → Bool
  | .readObjectKey hndl _ => hndl = hndlKeys
  | _ => false

/-- What a call means to the iterator: a read, or new keys in its object. -/
def Call.events (hndlKeys : ℕ) (object : Ref) (s s' : State) (c : Call) : List (Event Bytes) :=
  if c.readsFrom hndlKeys then [.read]
  else ((s'.objectKeys object).filter fun key => !(s.objectKeys object).contains key).map .insert

section Runs
variable (E : Host) (hndlKeys : ℕ)

/-- The events of a run, in their order. -/
def runEvents (object : Ref) : State → List Call → List (Event Bytes)
  | _, [] => []
  | s, c :: cs =>
    match call E s c with
    | none => []
    | some (s', _) => c.events hndlKeys object s s' ++ runEvents object s' cs

/-- What the calls of `ReadKey` return. -/
def runReads : State → List Call → List Outcome
  | _, [] => []
  | s, c :: cs =>
    match call E s c with
    | none => []
    | some (s', o) => if c.readsFrom hndlKeys then o :: runReads s' cs else runReads s' cs

/-- The object stays alive and keeps its keys, the iterator stays open, and the buffer is large
enough for each key. -/
structure Call.KeepsObject (object : Ref) (s : State) (c : Call) : Prop where
  alive : ∀ s' o, call E s c = some (s', o) → Live s'.heap object
  keys : ∀ s' o, call E s c = some (s', o) →
    ∀ key ∈ s.objectKeys object, key ∈ s'.objectKeys object
  isOpen : c ≠ .closeKeys hndlKeys
  buffer : ∀ maxlength, c = .readObjectKey hndlKeys maxlength →
    ∀ key ∈ s.objectKeys object, key.length < maxlength

end Runs

/-- What `ReadKey` returns for a key, and at the end. -/
def keyOutcome : Option Bytes → Outcome
  | some key => .text key
  | none => .cell 0

end Law

section Ordered

/-- The pairs of every object have different addresses, which were given out before, and different
keys. -/
def orderedLaw : Law where
  holds n p := match p with
    | .object es => (∀ e ∈ es, e.id < n) ∧ (es.map (·.id)).Nodup ∧ (es.map (·.key)).Nodup
    | _ => True
  string _ := True
  integer _ := True
  key _ := True
  mono {n m p} hnm h := by
    cases p with
    | object es => exact ⟨fun e he => (h.1 e he).trans_le hnm, h.2⟩
    | _ => trivial
  holds_string _ := trivial
  holds_integer _ := trivial
  holds_real _ _ := trivial
  holds_array _ _ := trivial
  holds_empty _ := ⟨by simp, List.nodup_nil, List.nodup_nil⟩
  holds_replaced {n k v old es es'} h hreplace := by
    obtain ⟨hlt, hids, hkeys⟩ := h
    have hsame := replaceValue_ids hreplace
    refine ⟨fun e he => ?_, by rw [hsame]; exact hids, by rw [replaceValue_keys hreplace]; exact hkeys⟩
    have hmem : e.id ∈ es.map (·.id) := by
      rw [← hsame]
      exact List.mem_map_of_mem he
    obtain ⟨e', he', heq⟩ := List.mem_map.mp hmem
    rw [← heq]
    exact hlt e' he'
  holds_unlinked h hunlink := by
    have hsub := unlink_sublist hunlink
    exact ⟨fun e he => h.1 e (hsub.subset he), (hsub.map _).nodup h.2.1, (hsub.map _).nodup h.2.2⟩
  holds_added {n k v es} h _ hnew := by
    obtain ⟨hlt, hids, hkeys⟩ := h
    refine ⟨fun e he => ?_, ?_, ?_⟩
    · rcases List.mem_append.mp he with he | he
      · exact (hlt e he).trans (Nat.lt_succ_self n)
      · rw [List.mem_singleton.mp he]
        exact Nat.lt_succ_self n
    · rw [List.map_append]
      refine hids.append (List.nodup_singleton _) (List.disjoint_singleton.mpr fun hmem => ?_)
      obtain ⟨e, he, heq⟩ := List.mem_map.mp hmem
      exact absurd (hlt e he) (by rw [heq]; exact Nat.lt_irrefl n)
    · rw [List.map_append]
      exact hkeys.append (List.nodup_singleton _) (List.disjoint_singleton.mpr (replaceValue_eq_none_iff.mp hnew))

mutual

theorem Text.meets_ordered (t : Text) : t.Meets orderedLaw := by
  cases t with
  | object ms => exact ms.meets_ordered
  | array is => exact is.meets_ordered
  | _ => trivial

theorem Members.meets_ordered (ms : Members) : ms.Meets orderedLaw := by
  cases ms with
  | member key value rest => exact ⟨trivial, value.meets_ordered, rest.meets_ordered⟩
  | _ => trivial

theorem Items.meets_ordered (is : Items) : is.Meets orderedLaw := by
  cases is with
  | item value rest => exact ⟨value.meets_ordered, rest.meets_ordered⟩
  | _ => trivial

end

theorem Value.meets_ordered (value : Value) : value.Meets orderedLaw := by
  cases value <;> first | trivial | exact fun _ => trivial

theorem Call.meets_ordered (c : Call) : c.Meets orderedLaw := by
  cases c with
  | setObject hndl key value => exact ⟨fun _ => trivial, value.meets_ordered⟩
  | setArray hndl index value | pushArray hndl value => exact value.meets_ordered
  | fromString d refused | fromFile d refused | openResponse d => exact d.text.meets_ordered
  | _ => trivial

variable {E : Host} {s s' : State} {c : Call} {o : Outcome} {object : Ref}

theorem reachable_ordered (h : (system E).Reachable s) : orderedLaw.Kept s.heap := by
  obtain ⟨calls, hrun⟩ := h
  refine (run_meets ?_ hrun).heap
  exact Transition.System.along_true.mono fun _ c _ => c.meets_ordered

theorem pairs_nodup (hs : orderedLaw.Kept s.heap) :
    ((pairs s.heap object).map (·.1)).Nodup ∧ (s.objectKeys object).Nodup := by
  unfold State.objectKeys pairs
  split
  · next es hread =>
    have hes := hs.read hread
    rw [List.map_map, List.map_map]
    exact hes.2
  · exact ⟨List.nodup_nil, List.nodup_nil⟩

end Ordered

section Objects
variable {E : Host} {s s' : State} {c : Call} {o : Outcome} {object : Ref} {heap heap' : Store}

theorem pairs_of_read (h : Store.read heap' object = Store.read heap object) :
    pairs heap' object = pairs heap object := by
  unfold pairs
  rw [h]

theorem pairs_of_samePayload (h : ∀ n, object = .node n → SamePayload heap heap' n) :
    pairs heap' object = pairs heap object := by
  apply pairs_of_read
  cases object with
  | node n => exact read_of_samePayload (h n rfl)
  | _ => rfl

def Payload.pairs : Payload → List (ℕ × Bytes)
  | .object es => es.map fun e => (e.id, e.key)
  | _ => []

theorem pairs_eq {p : Payload} (h : Store.read heap object = some (some p)) :
    pairs heap object = p.pairs := by
  unfold pairs
  rw [h]
  cases p <;> rfl

/-- The pairs of an object after a call that takes no key away. -/
def Grown (ps ps' : List (ℕ × Bytes)) : Prop :=
  ps' = ps ∨ ∃ id key, key ∉ ps.map (·.2) ∧ ps' = ps ++ [(id, key)]

theorem put_grown {p p' : Payload} {id : ℕ} {key : Bytes} {v : Ref} (h : p.put id key v = some p') :
    Grown p.pairs p'.pairs := by
  cases p with
  | object es =>
    cases hrep : replaceValue key v es with
    | some r =>
      obtain ⟨old, es'⟩ := r
      simp only [Payload.put, hrep] at h
      cases h
      exact .inl (replaceValue_pairs hrep)
    | none =>
      simp only [Payload.put, hrep] at h
      cases h
      refine .inr ⟨id, key, ?_, by simp [Payload.pairs]⟩
      rw [Payload.pairs, List.map_map]
      exact replaceValue_eq_none_iff.mp hrep
  | _ => cases h

theorem unlink_length {key : Bytes} {old : Ref} {es es' : List Entry}
    (h : unlink key es = some (old, es')) : es'.length < es.length := by
  obtain ⟨before, e, after, rfl, -, rfl⟩ := unlink_eq_some h
  simp

/-- What takes no key away adds one, or none. -/
theorem rewrites_grown {p p' : Payload} (h : c.Rewrites s object p p')
    (hnodup : (p.pairs.map (·.2)).Nodup)
    (hkeys : ∀ key ∈ p.pairs.map (·.2), key ∈ p'.pairs.map (·.2)) : Grown p.pairs p'.pairs := by
  cases c with
  | setObject hndl key value =>
    obtain ⟨-, id, v, -, -, hput⟩ := h
    exact put_grown hput
  | setArray hndl index value =>
    obtain ⟨v, -, -, hput⟩ := h
    cases p with
    | array t =>
      simp only [Payload.putAt] at hput
      split_ifs at hput
      cases hput
      exact .inl rfl
    | _ => cases hput
  | pushArray hndl value =>
    obtain ⟨v, -, -, hpush⟩ := h
    cases p with
    | array t =>
      cases hpush
      exact .inl rfl
    | _ => cases hpush
  | removeFromObject hndl key =>
    cases p with
    | object es =>
      obtain ⟨⟨old, es'⟩, hunlink, rfl⟩ := Option.map_eq_some_iff.mp h
      have hle := (hnodup.subperm hkeys).length_le
      have hlt := unlink_length hunlink
      simp only [Payload.pairs, List.length_map] at hle
      omega
    | _ => cases h
  | clearObject hndl =>
    cases p with
    | object es =>
      cases h
      refine .inl (List.eq_nil_iff_forall_not_mem.mpr fun x hx => ?_).symm
      cases hkeys x.2 (List.mem_map_of_mem hx)
    | _ => cases h
  | removeFromArray hndl index =>
    have hremove : p.removeAt (toSize index) = some p' := h
    cases p with
    | array t =>
      simp only [Payload.removeAt] at hremove
      split_ifs at hremove
      cases hremove
      exact .inl rfl
    | _ => cases hremove
  | clearArray hndl =>
    cases p with
    | array t =>
      cases h
      exact .inl rfl
    | _ => cases h
  | _ => cases h

/-- Every call that leaves the object and its keys there adds one key to it, or none. -/
theorem call_grown (hs : s.Counted E) (hordered : orderedLaw.Kept s.heap)
    (hobject : Live s.heap object) (h : call E s c = some (s', o)) (hlive : Live s'.heap object)
    (hkeys : ∀ key ∈ s.objectKeys object, key ∈ s'.objectKeys object) :
    Grown (pairs s.heap object) (pairs s'.heap object) := by
  cases call_effect hs h with
  | builds hx =>
    refine .inl (pairs_of_samePayload fun n hn => ?_)
    exact hx.moves.live_kept hs rfl (fun _ _ _ hb => hb.1) (hobject n hn)
  | iterates hheap => exact .inl (by rw [hheap])
  | closes hc hj hd =>
    unfold State.Counted at hs
    rw [takeHandle_roots hj] at hs
    obtain ⟨-, hp, -⟩ := jsonDecref_held hs hd
    exact .inl (pairs_of_samePayload fun n hn => hp.samePayload (hlive n hn))
  | @rewrites hndl json r hc hj hs' ho hchanged =>
    subst hs'
    rcases hchanged with ⟨-, hm⟩ | ⟨-, s₁, n, c₁, p', hm, rfl, hc₁, hT, he⟩
    · refine .inl (pairs_of_samePayload fun n hn => ?_)
      exact hm.live_kept hs rfl (fun _ _ _ hb => hb.elim) (hobject n hn)
    · obtain ⟨-, hp, -⟩ := he.held (hm.balanced hs)
      have hsame (m : ℕ) (hm' : s.heap.cells m ≠ none) : SamePayload s.heap s₁ m :=
        hm.live_kept hs rfl (fun _ _ _ hb => hb.elim) hm'
      by_cases hn : object = .node n
      · subst hn
        have hread : Store.read s.heap (.node n) = some (some c₁.payload) := by
          rw [← read_of_samePayload (hsame n (hobject n rfl))]
          simp [Store.read, hc₁]
        have hread' : Store.read r.2 (.node n) = some (some p') := by
          rw [read_of_samePayload (hp.samePayload (hlive n rfl)), Heap.setPayload_of_some hc₁]
          simp [Store.read]
        unfold State.objectKeys at hkeys
        rw [pairs_eq hread, pairs_eq hread'] at hkeys ⊢
        refine rewrites_grown hT ?_ hkeys
        have hnodup : (s.objectKeys (.node n)).Nodup := (pairs_nodup hordered).2
        rwa [State.objectKeys, pairs_eq hread] at hnodup
      · refine .inl (pairs_of_samePayload fun m hm' => ?_)
        have hne : m ≠ n := by
          rintro rfl
          exact hn hm'
        refine (hsame m (hobject m hm')).trans (Eq.trans ?_ (hp.samePayload (hlive m hm')))
        rw [Heap.setPayload_cells_of_ne hne]

end Objects

section Cursor

/-- Where an iterator stands: on the first pair that was not read, or at the end. -/
def Position (ps : List (ℕ × Bytes)) (iter : Option ℕ) (p : Progress Bytes) : Prop :=
  match iter with
  | some id => ∃ before key after, ps = before ++ (id, key) :: after ∧ before.length = p.reads ∧
      p.known = ps.map (·.2)
  | none => p.known.length ≤ p.reads ∧ p.known <+: ps.map (·.2)

/-- The iterator is open and has read as much as `p` says. -/
structure Cursor (hndlKeys : ℕ) (object : Ref) (s : State) (p : Progress Bytes) : Prop where
  number : hndlKeys < s.nextHandle
  alive : Live s.heap object
  position : ∃ iter, readHandle hndlKeys s.keys = some ⟨object, iter⟩ ∧
    Position (pairs s.heap object) iter p

variable {E : Host} {s s' : State} {c : Call} {o : Outcome} {object : Ref} {heap : Store}
  {hndlKeys maxlength : ℕ} {p : Progress Bytes} {ps : List (ℕ × Bytes)} {iter : Option ℕ}

theorem entriesFrom_pairs {id : ℕ} {key : Bytes} {before after : List (ℕ × Bytes)}
    (hps : pairs heap object = before ++ (id, key) :: after)
    (hnodup : ((pairs heap object).map (·.1)).Nodup) :
    ∃ e es, entriesFrom heap object id = some (e, es) ∧ e.key = key ∧
      es.map (fun e => (e.id, e.key)) = after := by
  unfold pairs at hps hnodup
  split at hps
  · next es hread =>
    rw [hread, List.map_map] at hnodup
    obtain ⟨es₁, es₂, rfl, hbefore, hrest⟩ := List.map_eq_append_iff.mp hps
    obtain ⟨e, es₃, rfl, he, hafter⟩ := List.map_eq_cons_iff.mp hrest
    obtain ⟨hid, hkey⟩ := Prod.mk.inj he
    refine ⟨e, es₃, ?_, hkey, hafter⟩
    have hskip : ∀ x ∈ es₁, decide (x.id ≠ id) = true := by
      intro x hx
      rw [List.map_append, List.map_cons] at hnodup
      have hdisjoint := (List.nodup_append.mp hnodup).2.2
      have hne : x.id ≠ e.id :=
        hdisjoint x.id (List.mem_map_of_mem (f := fun e : Entry => e.id) hx) e.id
          (List.mem_cons_self ..)
      simpa [hid] using hne
    simp only [entriesFrom, hread, Option.bind_eq_bind, Option.bind_some]
    rw [List.dropWhile_append_of_pos hskip, List.dropWhile_cons_of_neg (by simp [hid])]
  · next hne =>
    cases before <;> cases hps

/-- The pair under the iterator has the key that is to be read, and the next pair is the one after
it. -/
theorem Position.read (h : Position (pairs heap object) iter p) (hlive : Live heap object)
    (hnodup : ((pairs heap object).map (·.1)).Nodup) :
    jsonObjectIterKey heap object iter = some p.answer ∧
      (∀ key, p.answer = some key → key ∈ (pairs heap object).map (·.2) ∧
        ∃ iter', jsonObjectIterNext heap object iter = some iter' ∧
          Position (pairs heap object) iter' (p.next .read)) ∧
      (p.answer = none → Position (pairs heap object) iter (p.next .read)) := by
  cases iter with
  | none =>
    obtain ⟨hle, hprefix⟩ := h
    have hnone : p.answer = none := by simp [Progress.answer, hle]
    rw [hnone]
    exact ⟨rfl, by simp, fun _ => ⟨Nat.le_succ_of_le hle, hprefix⟩⟩
  | some id =>
    obtain ⟨before, key, after, hps, hlength, hknown⟩ := h
    obtain ⟨e, es, hentries, hkey, hafter⟩ := entriesFrom_pairs hps hnodup
    have hanswer : p.answer = some key := by
      simp [Progress.answer, hknown, hps, ← hlength]
    rw [hanswer]
    refine ⟨by simp [jsonObjectIterKey, hentries, hkey], ?_, by simp⟩
    intro key' heq
    cases heq
    refine ⟨by simp [hps], es.head?.map (·.id), ?_, ?_⟩
    · obtain ⟨q, hq⟩ := hlive.read
      unfold entriesFrom at hentries
      rw [hq, Option.bind_eq_bind, Option.bind_some] at hentries
      cases q with
      | none => cases hentries
      | some q =>
        cases q with
        | object es' =>
          simp only [jsonObjectIterNext, hq, Option.bind_eq_bind, Option.bind_some, entriesFrom,
            hentries, Option.map_some]
        | _ => cases hentries
    · cases es with
      | nil =>
        have hend : after = [] := hafter.symm
        refine ⟨?_, by rw [← hknown]; exact List.prefix_rfl⟩
        show p.known.length ≤ p.reads + 1
        rw [hknown, hps, hend, ← hlength]
        simp
      | cons e' es' =>
        refine ⟨before ++ [(id, key)], e'.key, es'.map fun e => (e.id, e.key), ?_, ?_, hknown⟩
        · rw [hps, ← hafter]
          simp
        · show (before ++ [(id, key)]).length = p.reads + 1
          rw [← hlength]
          simp

/-- A new key at the end of the object is known if the iterator is not at its end. -/
theorem Position.grown {ps' : List (ℕ × Bytes)} {key : Bytes} {id : ℕ} (h : Position ps iter p)
    (hps' : ps' = ps ++ [(id, key)]) : Position ps' iter (p.next (.insert key)) := by
  subst hps'
  cases iter with
  | none =>
    obtain ⟨hle, hprefix⟩ := h
    have hsame : p.next (.insert key) = p := if_neg (Nat.not_lt.mpr hle)
    rw [hsame]
    refine ⟨hle, hprefix.trans ?_⟩
    rw [List.map_append]
    exact List.prefix_append _ _
  | some id' =>
    obtain ⟨before, key', after, hps, hlength, hknown⟩ := h
    have hlt : p.reads < p.known.length := by
      rw [hknown, hps, ← hlength]
      simp
    have hgrow : p.next (.insert key) = { p with known := p.known ++ [key] } := if_pos hlt
    rw [hgrow]
    refine ⟨before, key', after ++ [(id, key)], ?_, hlength, ?_⟩
    · rw [hps]
      simp
    · show p.known ++ [key] = (ps ++ [(id, key)]).map (·.2)
      rw [hknown, List.map_append]
      rfl

theorem events_of_grown (hc : c.readsFrom hndlKeys = false)
    (h : Grown (pairs s.heap object) (pairs s'.heap object)) :
    c.events hndlKeys object s s' = [] ∧ pairs s'.heap object = pairs s.heap object ∨
      ∃ id key, c.events hndlKeys object s s' = [.insert key] ∧
        pairs s'.heap object = pairs s.heap object ++ [(id, key)] := by
  unfold Call.events State.objectKeys
  rw [hc, if_neg Bool.false_ne_true]
  rcases h with hsame | ⟨id, key, hnew, hadd⟩
  · refine .inl ⟨?_, hsame⟩
    rw [hsame]
    simp
  · refine .inr ⟨id, key, ?_, hadd⟩
    have hold : ((pairs s.heap object).map (·.2)).filter
        (fun key => !((pairs s.heap object).map (·.2)).contains key) = [] := by simp
    rw [hadd, List.map_append, List.filter_append, hold]
    simp [hnew]

/-- Only `ReadKey` moves an iterator, and only closing it takes it away. -/
theorem call_keys (hnumber : hndlKeys < s.nextHandle) (hc : c.readsFrom hndlKeys = false)
    (hopen : c ≠ .closeKeys hndlKeys) (h : call E s c = some (s', o)) :
    readHandle hndlKeys s'.keys = readHandle hndlKeys s.keys := by
  by_cases hplain : c.isPlain = true
  · cases call_tabled hplain h with
    | same hsame => rw [hsame]
    | opened json hopened => rw [hopened]; rfl
  · cases call_table hplain h with
    | refused | nothing | handleClosed | responseOpened | responseClosed | dataClosed => rfl
    | keysCreated => rw [readHandle_cons, if_neg hnumber.ne']
    | keyRead hndl maxlength keys key =>
      have hne : hndlKeys ≠ hndl := by simpa [Call.readsFrom, eq_comm] using hc
      exact readHandle_updateHandle_of_ne hne
    | keysClosed hndl x keys htake =>
      have hne : hndlKeys ≠ hndl := by
        rintro rfl
        exact hopen rfl
      exact readHandle_of_takeHandle htake hne
    | dataRead hndl refused hread => cases hread <;> rfl

theorem Cursor.other (h : Cursor hndlKeys object s p) (hreach : (system E).Reachable s)
    (hc : c.readsFrom hndlKeys = false) (hkeeps : c.KeepsObject E hndlKeys object s)
    (hcall : call E s c = some (s', o)) :
    Cursor hndlKeys object s' (p.run (c.events hndlKeys object s s')) ∧
      p.answers (c.events hndlKeys object s s') = [] := by
  obtain ⟨iter, hiter, hposition⟩ := h.position
  have hnext := call_advances E s c s' o hcall
  have halive := hkeeps.alive s' o hcall
  have hkeys : readHandle hndlKeys s'.keys = some ⟨object, iter⟩ :=
    (call_keys h.number hc hkeeps.isOpen hcall).trans hiter
  have hgrown := call_grown (reachable_balanced hreach) (reachable_ordered hreach) h.alive hcall
    halive (hkeeps.keys s' o hcall)
  rcases events_of_grown hc hgrown with ⟨hevents, hsame⟩ | ⟨id, key, hevents, hadd⟩
  · rw [hevents]
    refine ⟨⟨h.number.trans_le hnext, halive, iter, hkeys, ?_⟩, rfl⟩
    rw [hsame]
    exact hposition
  · rw [hevents]
    exact ⟨⟨h.number.trans_le hnext, halive, iter, hkeys, hposition.grown hadd⟩, rfl⟩

/-- A read returns the next key, or 0 at the end. -/
theorem Cursor.read (h : Cursor hndlKeys object s p) (hreach : (system E).Reachable s)
    (hcopies : E.CopiesWhole)
    (hbuffer : ∀ key ∈ s.objectKeys object, key.length < maxlength) :
    ∃ s', readObjectKey E s hndlKeys maxlength = some (s', keyOutcome p.answer) ∧
      Cursor hndlKeys object s' (p.next .read) := by
  obtain ⟨iter, hiter, hposition⟩ := h.position
  obtain ⟨hkey, hsome, hnone⟩ :=
    hposition.read h.alive (pairs_nodup (reachable_ordered hreach)).1
  unfold readObjectKey
  simp only [hiter, hkey, Option.bind_some]
  cases hanswer : p.answer with
  | none => exact ⟨s, rfl, h.number, h.alive, iter, hiter, hnone hanswer⟩
  | some key =>
    obtain ⟨hmem, iter', hnext, hposition'⟩ := hsome key hanswer
    refine ⟨{ s with keys := updateHandle hndlKeys ⟨object, iter'⟩ s.keys }, ?_, h.number, h.alive,
      iter', ?_, hposition'⟩
    · simp [hnext, keyOutcome, hcopies maxlength key (hbuffer key hmem)]
    · exact readHandle_updateHandle_self (by rw [hiter]; rfl)

theorem readsFrom_iff : c.readsFrom hndlKeys = true ↔ ∃ maxlength, c = .readObjectKey hndlKeys maxlength := by
  cases c <;> simp [Call.readsFrom]

/-- A run that keeps the object and its keys reads what the events say. -/
theorem Cursor.run {calls : List Call} {t : State} (h : Cursor hndlKeys object s p)
    (hreach : (system E).Reachable s) (hcopies : E.CopiesWhole)
    (hkeeps : (system E).Along (fun s c => c.KeepsObject E hndlKeys object s) s calls)
    (hrun : (system E).run s calls = some t) :
    runReads E hndlKeys s calls = (p.answers (runEvents E hndlKeys object s calls)).map keyOutcome ∧
      Cursor hndlKeys object t (p.run (runEvents E hndlKeys object s calls)) := by
  induction calls generalizing s p with
  | nil =>
    cases hrun
    exact ⟨rfl, h⟩
  | cons c cs ih =>
    obtain ⟨s', hstep, hrun⟩ := (system E).run_cons.mp hrun
    obtain ⟨⟨s', o⟩, hcall, rfl⟩ := Option.map_eq_some_iff.mp hstep
    have hreach' := hreach.step hstep
    have hrest := hkeeps.2 s' hstep
    simp only [runReads, runEvents, hcall, Progress.answers_append, Progress.run_append]
    cases hc : c.readsFrom hndlKeys with
    | false =>
      obtain ⟨hcursor, hanswers⟩ := h.other hreach hc hkeeps.1 hcall
      rw [hanswers, List.nil_append]
      exact ih hcursor hreach' hrest hrun
    | true =>
      obtain ⟨maxlength, rfl⟩ := readsFrom_iff.mp hc
      obtain ⟨s₁, hread, hcursor⟩ := h.read hreach hcopies (hkeeps.1.buffer maxlength rfl)
      obtain ⟨rfl, rfl⟩ := Prod.mk.inj (Option.some.inj (hread.symm.trans hcall))
      have hevents : (Call.readObjectKey hndlKeys maxlength).events hndlKeys object s s₁ = [.read] :=
        if_pos hc
      obtain ⟨hreads, hlast⟩ := ih hcursor hreach' hrest hrun
      rw [hevents]
      refine ⟨?_, hlast⟩
      rw [if_pos rfl, hreads]
      rfl

theorem createObjectKeys_cursor {hndl : ℕ} (hreach : (system E).Reachable s)
    (hobject : readHandle hndl s.handles = some object)
    (h : createObjectKeys E s hndl none = some (s', .handle hndlKeys)) :
    Cursor hndlKeys object s' ⟨s'.objectKeys object, 0⟩ := by
  have hlive := (reachable_balanced hreach).live_handle hobject
  unfold createObjectKeys getJSONFromHandle at h
  rw [hobject] at h
  obtain ⟨iter, hiter, h⟩ := Option.bind_eq_some_iff.mp h
  cases h
  refine ⟨Nat.lt_succ_self _, hlive, iter, by rw [readHandle_cons, if_pos rfl], ?_⟩
  unfold State.objectKeys pairs
  obtain ⟨q, hq, hiter⟩ := Option.bind_eq_some_iff.mp hiter
  rw [hq]
  cases q with
  | none =>
    cases hiter
    exact ⟨le_rfl, List.prefix_rfl⟩
  | some q =>
    cases q with
    | object es =>
      cases es with
      | nil =>
        cases hiter
        exact ⟨le_rfl, List.prefix_rfl⟩
      | cons e es =>
        cases hiter
        exact ⟨[], e.key, es.map fun e => (e.id, e.key), rfl, rfl, rfl⟩
    | _ =>
      cases hiter
      exact ⟨le_rfl, List.prefix_rfl⟩

theorem Position.prefix_keys (h : Position ps iter p) : p.known <+: ps.map (·.2) := by
  cases iter with
  | none => exact h.2
  | some id =>
    obtain ⟨before, key, after, -, -, hknown⟩ := h
    rw [hknown]

theorem jsonObjectSize_eq (hlive : Live s.heap object) :
    jsonObjectSize s.heap object = some (s.objectKeys object).length := by
  obtain ⟨q, hq⟩ := hlive.read
  unfold jsonObjectSize State.objectKeys pairs
  rw [hq, Option.bind_eq_bind, Option.bind_some]
  cases q with
  | none => rfl
  | some q =>
    cases q with
    | object es => simp
    | _ => rfl

theorem Cursor.readObjectKey_isSome (h : Cursor hndlKeys object s p)
    (hreach : (system E).Reachable s) : (readObjectKey E s hndlKeys maxlength).isSome := by
  obtain ⟨iter, hiter, hposition⟩ := h.position
  obtain ⟨hkey, hsome, -⟩ := hposition.read h.alive (pairs_nodup (reachable_ordered hreach)).1
  simp only [readObjectKey, hiter, hkey, Option.bind_some]
  cases hanswer : p.answer with
  | none => rfl
  | some key =>
    obtain ⟨-, iter', hnext, -⟩ := hsome key hanswer
    simp [hnext]

theorem runReads_length {calls : List Call} {t : State} (hrun : (system E).run s calls = some t) :
    (runReads E hndlKeys s calls).length = calls.countP (·.readsFrom hndlKeys) := by
  induction calls generalizing s with
  | nil => rfl
  | cons c cs ih =>
    obtain ⟨s', hstep, hrun⟩ := (system E).run_cons.mp hrun
    obtain ⟨⟨s', o⟩, hcall, rfl⟩ := Option.map_eq_some_iff.mp hstep
    simp only [runReads, hcall, List.countP_cons]
    cases c.readsFrom hndlKeys with
    | false => exact ih hrun
    | true => exact congrArg _ (ih hrun)

end Cursor

/-- What the calls of `ReadKey` return, whatever happens in between: the known keys in the order of
their insertion, each of them once, and 0 from then on. Known are the keys at the time of `Keys` and
those inserted while there was a key to read. -/
structure Enumerates (E : Host) (hndlKeys : ℕ) (object : Ref) (s : State) (calls : List Call)
    (known : List Bytes) : Prop where
  count : (runReads E hndlKeys s calls).length = calls.countP (·.readsFrom hndlKeys)
  order : runReads E hndlKeys s calls =
    (List.range (runReads E hndlKeys s calls).length).map fun i => keyOutcome known[i]?
  once : known.Nodup
  present : s.objectKeys object <+: known
  unextended : (∀ key, .insert key ∉ runEvents E hndlKeys object s calls) →
    known = s.objectKeys object
  size : jsonObjectSize s.heap object = some (s.objectKeys object).length

/-- The keys that an iterator over the object returns in any run in which the object stays alive and
keeps its keys. -/
theorem readKeys_enumerate (E : Host) (hcopies : E.CopiesWhole) {s s₁ t : State}
    {hndl hndlKeys : ℕ} {object : Ref} {calls : List Call} (hreach : (system E).Reachable s)
    (hobject : readHandle hndl s.handles = some object)
    (hcreate : createObjectKeys E s hndl none = some (s₁, .handle hndlKeys))
    (hkeeps : (system E).Along (fun s c => c.KeepsObject E hndlKeys object s) s₁ calls)
    (hrun : (system E).run s₁ calls = some t) :
    Enumerates E hndlKeys object s₁ calls
        (Progress.run ⟨s₁.objectKeys object, 0⟩ (runEvents E hndlKeys object s₁ calls)).known ∧
      ∀ maxlength, (readObjectKey E t hndlKeys maxlength).isSome := by
  have hstep : (system E).step s (.createObjectKeys hndl none) = some s₁ := by
    show (createObjectKeys E s hndl none).map (·.1) = some s₁
    rw [hcreate]
    rfl
  have hreach₁ := hreach.step hstep
  have hreacht : (system E).Reachable t := by
    obtain ⟨before, hbefore⟩ := hreach₁
    exact ⟨before ++ calls, (system E).run_append.mpr ⟨s₁, hbefore, hrun⟩⟩
  have hcursor := createObjectKeys_cursor hreach hobject hcreate
  obtain ⟨hreads, hlast⟩ := hcursor.run hreach₁ hcopies hkeeps hrun
  obtain ⟨iter, -, hposition⟩ := hlast.position
  refine ⟨⟨runReads_length hrun, ?_, ?_,
    Progress.prefix_run (p := ⟨s₁.objectKeys object, 0⟩) _, Progress.run_of_no_insert,
    jsonObjectSize_eq hcursor.alive⟩, fun maxlength => hlast.readObjectKey_isSome hreacht⟩
  · rw [hreads, List.length_map]
    conv_lhs => rw [Progress.answers_eq]
    rw [List.map_map]
    refine List.map_congr_left fun i _ => ?_
    simp only [Function.comp_apply, Nat.zero_add]
  · exact hposition.prefix_keys.sublist.nodup (pairs_nodup (reachable_ordered hreacht)).2

/-- The same condition, for the evaluation of a run. -/
def Call.keepsObject (E : Host) (hndlKeys : ℕ) (object : Ref) (s : State) (c : Call) : Bool :=
  ((call E s c).all fun r => (Store.read r.1.heap object).isSome &&
    (s.objectKeys object).all (r.1.objectKeys object).contains) &&
  match c with
  | .closeKeys hndl => hndl ≠ hndlKeys
  | .readObjectKey _ maxlength => (s.objectKeys object).all fun key => key.length < maxlength
  | _ => true

theorem keepsObject_of_eq_true {E : Host} {hndlKeys : ℕ} {object : Ref} {s : State} {c : Call}
    (h : c.keepsObject E hndlKeys object s = true) : c.KeepsObject E hndlKeys object s := by
  obtain ⟨hall, hrest⟩ := Bool.and_eq_true_iff.mp h
  refine ⟨fun s' o hcall => ?_, fun s' o hcall => ?_, ?_, ?_⟩
  · rw [hcall] at hall
    obtain ⟨p, hp⟩ := Option.isSome_iff_exists.mp (Bool.and_eq_true_iff.mp hall).1
    exact live_of_read hp
  · rw [hcall] at hall
    simpa using (Bool.and_eq_true_iff.mp hall).2
  · rintro rfl
    simp at hrest
  · rintro maxlength rfl
    simpa using hrest

/-- Two keys, a third one after the first was read, and a fourth one at the end. -/
def enumerateRun : List Call :=
  [.readObjectKey 2 64, .setObject 1 [99] (.int 3), .readObjectKey 2 64, .readObjectKey 2 64,
    .setObject 1 [100] .null, .readObjectKey 2 64]

/-- The reads of this run return the first three keys and then 0. -/
theorem enumerateRun_enumerates : ∃ s s₁ t,
    (system plainHost).run .empty
      [.createObject none, .setObject 1 [97] (.int 1), .setObject 1 [98] (.int 2)] = some s ∧
    createObjectKeys plainHost s 1 none = some (s₁, .handle 2) ∧
    (system plainHost).run s₁ enumerateRun = some t ∧
    runReads plainHost 2 s₁ enumerateRun = [.text [97], .text [98], .text [99], .cell 0] ∧
    Enumerates plainHost 2 (.node 0) s₁ enumerateRun
      (Progress.run ⟨s₁.objectKeys (.node 0), 0⟩
        (runEvents plainHost 2 (.node 0) s₁ enumerateRun)).known := by
  have hview : ((system plainHost).run .empty
      [.createObject none, .setObject 1 [97] (.int 1), .setObject 1 [98] (.int 2)]).bind (fun s =>
      (createObjectKeys plainHost s 1 none).bind fun r => some (readHandle 1 s.handles, r.2,
        ((system plainHost).run r.1 enumerateRun).isSome, runReads plainHost 2 r.1 enumerateRun,
        decide ((system plainHost).Along
          (fun s c => c.keepsObject plainHost 2 (.node 0) s = true) r.1 enumerateRun))) =
      some (some (.node 0), .handle 2, true, [.text [97], .text [98], .text [99], .cell 0], true) := by
    decide +kernel
  obtain ⟨s, hs, hview⟩ := Option.bind_eq_some_iff.mp hview
  obtain ⟨⟨s₁, o⟩, hcreate, hview⟩ := Option.bind_eq_some_iff.mp hview
  simp only [Option.some.injEq, Prod.mk.injEq] at hview
  obtain ⟨hobject, rfl, hrun, hreads, hkeeps⟩ := hview
  obtain ⟨t, ht⟩ := Option.isSome_iff_exists.mp hrun
  exact ⟨s, s₁, t, hs, hcreate, ht, hreads, (readKeys_enumerate plainHost plainHost_copiesWhole
    ⟨_, hs⟩ hobject hcreate ((of_decide_eq_true hkeeps).mono fun _ _ => keepsObject_of_eq_true)
    ht).1⟩

end RipExt.Json
