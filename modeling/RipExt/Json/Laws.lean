import RipExt.Json.Decode
import RipExt.Json.Effects

/-! Laws about the contents of documents. A law that every single operation on a container keeps
holds of every document after any run of the natives. -/
namespace RipExt.Json
open RefCount

section Entries
variable {key : Bytes} {es es' : List Entry}

theorem unlink_sublist {old : Ref} (h : unlink key es = some (old, es')) : es'.Sublist es := by
  obtain ⟨before, e, after, rfl, -, rfl⟩ := unlink_eq_some h
  exact (List.sublist_cons_self e after).append_left before

end Entries

/-- A property of payloads, which may depend on the next address, that the functions of `value.c`
keep. It restricts strings, integers and keys; everything else is up to the containers. -/
structure Law where
  holds : ℕ → Payload → Prop
  string : Bytes → Prop
  integer : ℤ → Prop
  key : Bytes → Prop
  mono {n m : ℕ} {p : Payload} (hnm : n ≤ m) (h : holds n p) : holds m p
  holds_string {n : ℕ} {v : Bytes} (hv : string v) : holds n (.string v)
  holds_integer {n : ℕ} {v : ℤ} (hv : integer v) : holds n (.integer v)
  holds_real (n : ℕ) (x : Double) : holds n (.real x)
  holds_array (n : ℕ) (table : List Ref) : holds n (.array table)
  holds_empty (n : ℕ) : holds n (.object [])
  holds_replaced {n : ℕ} {k : Bytes} {v old : Ref} {es es' : List Entry} (h : holds n (.object es))
    (hreplace : replaceValue k v es = some (old, es')) : holds n (.object es')
  holds_unlinked {n : ℕ} {k : Bytes} {old : Ref} {es es' : List Entry} (h : holds n (.object es))
    (hunlink : unlink k es = some (old, es')) : holds n (.object es')
  holds_added {n : ℕ} {k : Bytes} {v : Ref} {es : List Entry} (h : holds n (.object es)) (hk : key k)
    (hnew : replaceValue k v es = none) : holds (n + 1) (.object (es ++ [⟨n, k, v⟩]))

/-- Every document meets the law. -/
def Law.Kept (L : Law) (s : Store) : Prop := s.Each (L.holds s.next)

mutual

/-- What the scanner reads meets the law. -/
def Text.Meets (L : Law) : Text → Prop
  | .string v => L.string v
  | .integer v => L.integer v
  | .object ms => ms.Meets L
  | .array is => is.Meets L
  | .real _ | .true | .false | .null | .invalid => True

def Members.Meets (L : Law) : Members → Prop
  | .closed | .broken => True
  | .member key value rest => L.key key ∧ value.Meets L ∧ rest.Meets L

def Items.Meets (L : Law) : Items → Prop
  | .closed | .broken => True
  | .item value rest => value.Meets L ∧ rest.Meets L

end

/-- The value argument of a native; a string that is not UTF-8 is refused. -/
def Value.Meets (L : Law) : Value → Prop
  | .int value => L.integer value.toInt
  | .int64 val => L.integer (strtoll val).1
  | .string val => utf8CheckString val = true → L.string val
  | .handle _ | .bool _ | .float _ | .null => True

def Call.Meets (L : Law) : Call → Prop
  | .setObject _ key value => (utf8CheckString key = true → L.key key) ∧ value.Meets L
  | .setArray _ _ value | .pushArray _ value => value.Meets L
  | .fromString d _ | .fromFile d _ | .openResponse d => d.text.Meets L
  | _ => True

/-- The documents and the responses that were not read yet meet the law. -/
structure State.Meets (L : Law) (s : State) : Prop where
  heap : L.Kept s.heap
  responses : ∀ x ∈ s.responses, x.2.body.text.Meets L

namespace Law.Kept
variable {L : Law} {H : Hashing} {s s' : Store} {json : Ref} {key : Bytes} {value : Pointer}
  {r : Bool × Store}

theorem read (hs : L.Kept s) {p : Payload} (h : Store.read s json = some (some p)) :
    L.holds s.next p := by
  cases json with
  | node n =>
    obtain ⟨c, hc, heq⟩ := Option.map_eq_some_iff.mp h
    rw [← Option.some.inj heq]
    exact hs n c hc
  | _ => cases h

theorem decrefAll (hs : L.Kept s) {ns : List ℕ} (h : s.decrefAll H.children ns = some s') :
    L.Kept s' := by
  have hnext : s'.next = s.next := (release_pruned h).next
  have heach : s'.Each (L.holds s.next) := Heap.Each.decrefAll hs h
  rw [Law.Kept, hnext]
  exact heach

theorem decref (hs : L.Kept s) (h : jsonDecref H s value = some s') : L.Kept s' := by
  rw [jsonDecref_eq] at h
  exact hs.decrefAll h

theorem incref (hs : L.Kept s) (h : jsonIncref s json = some s') : L.Kept s' := by
  cases json with
  | node n =>
    have heach : s'.Each (L.holds s.next) := Heap.Each.incref hs h
    obtain ⟨c, hc, rfl⟩ := Option.map_eq_some_iff.mp h
    exact heach
  | _ =>
    cases h
    exact hs

theorem bump (hs : L.Kept s) : L.Kept { s with next := s.next + 1 } :=
  fun n c hc => L.mono (Nat.le_succ _) (hs n c hc)

theorem alloc (hs : L.Kept s) {p : Payload} (hp : L.holds (s.next + 1) p) : L.Kept (s.alloc p) := by
  have heach : s.Each (L.holds (s.next + 1)) := hs.bump
  exact heach.alloc hp

theorem write (hs : L.Kept s) {n : ℕ} {p : Payload} (h : Store.write s n p = some s')
    (hp : L.holds s.next p) : L.Kept s' := by
  unfold Store.write at h
  split_ifs at h
  cases h
  rw [Law.Kept, Heap.setPayload_next]
  exact Heap.Each.setPayload hs hp

theorem refuse (hs : L.Kept s) (h : Json.refuse H s value = some r) : L.Kept r.2 := by
  obtain ⟨s', hd, rfl⟩ := Option.map_eq_some_iff.mp h
  exact hs.decref hd

theorem objectSetNewNocheck (hs : L.Kept s) (hkey : L.key key)
    (h : jsonObjectSetNewNocheck H s json key value = some r) : L.Kept r.2 := by
  cases value with
  | none =>
    cases h
    exact hs
  | some v =>
    obtain ⟨p, hread, h⟩ := Option.bind_eq_some_iff.mp h
    split at h
    · next n es =>
      split_ifs at h
      · exact hs.refuse h
      · obtain ⟨s', hset, rfl⟩ := Option.map_eq_some_iff.mp h
        have hes := hs.read hread
        unfold hashtableSet at hset
        split at hset
        · next old es' hreplace =>
          obtain ⟨s₁, hd, hset⟩ := Option.bind_eq_some_iff.mp hset
          have hnext : s₁.next = s.next := by
            rw [jsonDecref_eq] at hd
            exact (release_pruned hd).next
          refine (hs.decref hd).write hset ?_
          rw [hnext]
          exact L.holds_replaced hes hreplace
        · next hnone => exact hs.bump.write hset (L.holds_added hes hkey hnone)
    · exact hs.refuse h

theorem objectSetNew (hs : L.Kept s) (hkey : utf8CheckString key = true → L.key key)
    (h : jsonObjectSetNew H s json key value = some r) : L.Kept r.2 := by
  unfold jsonObjectSetNew at h
  split_ifs at h with hutf8
  · exact hs.objectSetNewNocheck (hkey hutf8) h
  · exact hs.refuse h

theorem objectDel (hs : L.Kept s) (h : jsonObjectDel H s json key = some r) : L.Kept r.2 := by
  obtain ⟨p, hread, h⟩ := Option.bind_eq_some_iff.mp h
  split at h
  · next n es =>
    split at h
    · next old es' hunlink =>
      obtain ⟨s₁, hwrite, h⟩ := Option.bind_eq_some_iff.mp h
      obtain ⟨s₂, hd, h⟩ := Option.bind_eq_some_iff.mp h
      cases h
      exact (hs.write hwrite (L.holds_unlinked (hs.read hread) hunlink)).decref hd
    · cases h
      exact hs
  · cases h
    exact hs

theorem objectClear (hs : L.Kept s) (h : jsonObjectClear H s json = some r) : L.Kept r.2 := by
  obtain ⟨p, hread, h⟩ := Option.bind_eq_some_iff.mp h
  split at h
  · obtain ⟨s₁, hd, h⟩ := Option.bind_eq_some_iff.mp h
    obtain ⟨s₂, hwrite, h⟩ := Option.bind_eq_some_iff.mp h
    cases h
    have hs₁ : L.Kept s₁ := hs.decrefAll hd
    exact hs₁.write hwrite (L.holds_empty _)
  · cases h
    exact hs

theorem arraySetNew (hs : L.Kept s) {index : ℕ}
    (h : jsonArraySetNew H s json index value = some r) : L.Kept r.2 := by
  cases value with
  | none =>
    cases h
    exact hs
  | some v =>
    obtain ⟨p, hread, h⟩ := Option.bind_eq_some_iff.mp h
    split at h
    · split_ifs at h
      · exact hs.refuse h
      · split at h
        · exact hs.refuse h
        · obtain ⟨s₁, hd, h⟩ := Option.bind_eq_some_iff.mp h
          obtain ⟨s₂, hwrite, h⟩ := Option.bind_eq_some_iff.mp h
          cases h
          exact (hs.decref hd).write hwrite (L.holds_array _ _)
    · exact hs.refuse h

theorem arrayAppendNew (hs : L.Kept s) (h : jsonArrayAppendNew H s json value = some r) :
    L.Kept r.2 := by
  cases value with
  | none =>
    cases h
    exact hs
  | some v =>
    obtain ⟨p, hread, h⟩ := Option.bind_eq_some_iff.mp h
    split at h
    · split_ifs at h
      · exact hs.refuse h
      · obtain ⟨s₁, hwrite, h⟩ := Option.bind_eq_some_iff.mp h
        cases h
        exact hs.write hwrite (L.holds_array _ _)
    · exact hs.refuse h

theorem arrayRemove (hs : L.Kept s) {index : ℕ} (h : jsonArrayRemove H s json index = some r) :
    L.Kept r.2 := by
  obtain ⟨p, hread, h⟩ := Option.bind_eq_some_iff.mp h
  split at h
  · split at h
    · cases h
      exact hs
    · obtain ⟨s₁, hd, h⟩ := Option.bind_eq_some_iff.mp h
      obtain ⟨s₂, hwrite, h⟩ := Option.bind_eq_some_iff.mp h
      cases h
      exact (hs.decref hd).write hwrite (L.holds_array _ _)
  · cases h
    exact hs

theorem arrayClear (hs : L.Kept s) (h : jsonArrayClear H s json = some r) : L.Kept r.2 := by
  obtain ⟨p, hread, h⟩ := Option.bind_eq_some_iff.mp h
  split at h
  · obtain ⟨s₁, hd, h⟩ := Option.bind_eq_some_iff.mp h
    obtain ⟨s₂, hwrite, h⟩ := Option.bind_eq_some_iff.mp h
    cases h
    have hs₁ : L.Kept s₁ := hs.decrefAll hd
    exact hs₁.write hwrite (L.holds_array _ _)
  · cases h
    exact hs

theorem abandon (hs : L.Kept s) {v : Pointer} (h : Json.abandon H s json = some (v, s')) :
    L.Kept s' := by
  obtain ⟨s₁, hd, heq⟩ := Option.map_eq_some_iff.mp h
  cases heq
  exact hs.decref hd

end Law.Kept

section Parsing
variable {L : Law} {H : Hashing}

mutual

theorem parseValue_kept (t : Text) (ht : t.Meets L) {s s' : Store} {v : Pointer} (hs : L.Kept s)
    (h : parseValue H s t = some (v, s')) : L.Kept s' := by
  cases t with
  | string v =>
    cases h
    exact hs.alloc (L.holds_string ht)
  | integer v =>
    cases h
    exact hs.alloc (L.holds_integer ht)
  | real x =>
    cases h
    exact hs.alloc (L.holds_real _ x)
  | true =>
    cases h
    exact hs
  | false =>
    cases h
    exact hs
  | null =>
    cases h
    exact hs
  | invalid =>
    cases h
    exact hs
  | object ms =>
    have hempty : L.Kept (s.alloc (.object [])) := hs.alloc (L.holds_empty _)
    exact parseObject_kept ms ht hempty h
  | array is =>
    have hempty : L.Kept (s.alloc (.array [])) := hs.alloc (L.holds_array _ _)
    exact parseArray_kept is ht hempty h

theorem parseObject_kept (ms : Members) (hms : ms.Meets L) {s s' : Store} {o : Ref} {v : Pointer}
    (hs : L.Kept s) (h : parseObject H s o ms = some (v, s')) : L.Kept s' := by
  cases ms with
  | closed =>
    cases h
    exact hs
  | broken => exact hs.abandon h
  | member key value rest =>
    obtain ⟨hkey, hvalue, hrest⟩ := hms
    obtain ⟨⟨w, s₁⟩, hparse, h⟩ := Option.bind_eq_some_iff.mp h
    have hs₁ := parseValue_kept value hvalue hs hparse
    cases w with
    | none => exact hs₁.abandon h
    | some w =>
      obtain ⟨⟨ok, s₂⟩, hset, h⟩ := Option.bind_eq_some_iff.mp h
      have hs₂ : L.Kept s₂ := hs₁.objectSetNewNocheck hkey hset
      dsimp only at h
      split_ifs at h
      · exact parseObject_kept rest hrest hs₂ h
      · exact hs₂.abandon h

theorem parseArray_kept (is : Items) (his : is.Meets L) {s s' : Store} {o : Ref} {v : Pointer}
    (hs : L.Kept s) (h : parseArray H s o is = some (v, s')) : L.Kept s' := by
  cases is with
  | closed =>
    cases h
    exact hs
  | broken => exact hs.abandon h
  | item value rest =>
    obtain ⟨hvalue, hrest⟩ := his
    obtain ⟨⟨w, s₁⟩, hparse, h⟩ := Option.bind_eq_some_iff.mp h
    have hs₁ := parseValue_kept value hvalue hs hparse
    cases w with
    | none => exact hs₁.abandon h
    | some w =>
      obtain ⟨⟨ok, s₂⟩, happend, h⟩ := Option.bind_eq_some_iff.mp h
      have hs₂ : L.Kept s₂ := hs₁.arrayAppendNew happend
      dsimp only at h
      split_ifs at h
      · exact parseArray_kept rest hrest hs₂ h
      · exact hs₂.abandon h

end

theorem jsonLoads_kept {s s' : Store} {d : Document} {v : Pointer} (hd : d.text.Meets L)
    (hs : L.Kept s) (h : jsonLoads H s d = some (v, s')) : L.Kept s' := by
  obtain ⟨⟨w, s₁⟩, hparse, h⟩ := Option.bind_eq_some_iff.mp h
  have hs₁ := parseValue_kept d.text hd hs hparse
  cases w with
  | none =>
    cases h
    exact hs₁
  | some w =>
    dsimp only at h
    split_ifs at h
    · cases h
      exact hs₁
    · exact hs₁.abandon h

end Parsing

section Natives
variable {L : Law} {E : Host} {s : State}

/-- A native leaves documents that meet the law. -/
def LeavesMeeting (L : Law) (r : Result) : Prop := ∀ s' o, r = some (s', o) → s'.Meets L

theorem leavesMeeting_some {s' : State} {o : Outcome} (h : s'.Meets L) :
    LeavesMeeting L (some (s', o)) := by
  intro s'' o' heq
  cases heq
  exact h

theorem leavesMeeting_bind {α : Type*} {x : Option α} {f : α → Result}
    (h : ∀ a, x = some a → LeavesMeeting L (f a)) : LeavesMeeting L (x.bind f) := by
  intro s' o heq
  obtain ⟨a, ha, hf⟩ := Option.bind_eq_some_iff.mp heq
  exact h a ha s' o hf

theorem leavesMeeting_map {α : Type*} {x : Option α} {f : α → State × Outcome}
    (h : ∀ a, x = some a → (f a).1.Meets L) : LeavesMeeting L (x.map f) := by
  intro s' o heq
  obtain ⟨a, ha, hf⟩ := Option.map_eq_some_iff.mp heq
  have hvalid := h a ha
  rwa [hf] at hvalid

theorem State.Meets.with_heap (hs : s.Meets L) {heap : Store} (h : L.Kept heap) :
    State.Meets L { s with heap } := ⟨h, hs.responses⟩

theorem leavesMeeting_getJSONFromHandle (hs : s.Meets L) {hndl : ℕ} {rest : Ref → Result}
    (h : ∀ json, LeavesMeeting L (rest json)) : LeavesMeeting L (getJSONFromHandle E s hndl rest) := by
  unfold getJSONFromHandle
  split
  · exact h _
  · exact leavesMeeting_some hs

theorem leavesMeeting_answer (hs : s.Meets L) (outcome : Option Outcome) :
    LeavesMeeting L (s.answer outcome) := leavesMeeting_map fun _ _ => hs

theorem leavesMeeting_createHandle (hs : s.Meets L) (refused : Option ℕ) (error : ℕ → NativeError)
    (json : Ref) : LeavesMeeting L (createHandle E s refused error json) := by
  unfold createHandle
  split
  · exact leavesMeeting_some ⟨hs.heap, hs.responses⟩
  · exact leavesMeeting_bind fun heap hd => leavesMeeting_some (hs.with_heap (hs.heap.decref hd))

theorem leavesMeeting_fromText (hs : s.Meets L) {d : Document} (hd : d.text.Meets L)
    (error : ℕ → NativeError) (refused : Option ℕ) :
    LeavesMeeting L (fromText E s d error refused) := by
  refine leavesMeeting_bind fun r hr => ?_
  obtain ⟨object, heap⟩ := r
  have hheap := hs.with_heap (jsonLoads_kept hd hs.heap hr)
  cases object with
  | none => exact leavesMeeting_some hheap
  | some json => exact leavesMeeting_createHandle hheap _ _ _

theorem leavesMeeting_getValue (hs : s.Meets L) (refused : Option ℕ) (value : Ref) :
    LeavesMeeting L (getValue s refused value) := by
  unfold getValue
  split
  · exact leavesMeeting_some hs
  · exact leavesMeeting_map fun heap hi => ⟨hs.heap.incref hi, hs.responses⟩

theorem leavesMeeting_withKey (hs : s.Meets L) {missing : Bytes → Outcome} {found : Ref → Result}
    {hndl : ℕ} {key : Bytes} (h : ∀ value, LeavesMeeting L (found value)) :
    LeavesMeeting L (withKey E s missing found hndl key) := by
  refine leavesMeeting_getJSONFromHandle hs fun object => leavesMeeting_bind fun value _ => ?_
  split
  · exact leavesMeeting_some hs
  · exact h _

theorem leavesMeeting_withIndex (hs : s.Meets L) {found : Ref → Result} {hndl : ℕ} {index : Int32}
    (h : ∀ value, LeavesMeeting L (found value)) : LeavesMeeting L (withIndex E s found hndl index) := by
  refine leavesMeeting_getJSONFromHandle hs fun array => leavesMeeting_bind fun value _ => ?_
  split
  · exact leavesMeeting_some hs
  · exact h _

theorem leavesMeeting_getObject (hs : s.Meets L) (hndl : ℕ) (key : Bytes) (getter : Getter) :
    LeavesMeeting L (getObject E s hndl key getter) := by
  cases getter with
  | value refused => exact leavesMeeting_withKey hs fun value => leavesMeeting_getValue hs refused value
  | int64 maxlength =>
    unfold getObject getObjectInt64Value
    exact leavesMeeting_withKey hs fun _ => leavesMeeting_answer hs _
  | string maxlength =>
    unfold getObject getObjectStringValue
    exact leavesMeeting_withKey hs fun _ => leavesMeeting_answer hs _
  | _ => exact leavesMeeting_withKey hs fun _ => leavesMeeting_answer hs _

theorem leavesMeeting_getArray (hs : s.Meets L) (hndl : ℕ) (index : Int32) (getter : Getter) :
    LeavesMeeting L (getArray E s hndl index getter) := by
  cases getter with
  | value refused => exact leavesMeeting_withIndex hs fun value => leavesMeeting_getValue hs refused value
  | _ => exact leavesMeeting_withIndex hs fun _ => leavesMeeting_answer hs _

theorem leavesMeeting_finish (hs : s.Meets L) {result : Option (Bool × Store)}
    (h : ∀ r, result = some r → L.Kept r.2) : LeavesMeeting L (finish s result) :=
  leavesMeeting_map fun r hr => hs.with_heap (h r hr)

/-- The values that the Set and Push natives make. -/
def MakesMeeting (L : Law) (make : Store → Pointer × Store) : Prop := ∀ heap, L.Kept heap → L.Kept (make heap).2

theorem makes_bool (value : Int32) : MakesMeeting L (boolOf value) := fun _ h => h

theorem makes_null : MakesMeeting L jsonNull := fun _ h => h

theorem makes_integer {v : ℤ} (hv : L.integer v) : MakesMeeting L (jsonInteger · v) :=
  fun _ h => h.alloc (L.holds_integer hv)

theorem makes_float (value : UInt32) : MakesMeeting L (floatOf value) := by
  intro heap h
  unfold floatOf jsonReal
  split
  · next x _ => exact h.alloc (L.holds_real _ x)
  · exact h

theorem makes_string {val : Bytes} (hval : utf8CheckString val = true → L.string val) :
    MakesMeeting L (stringOf val) := by
  intro heap h
  unfold stringOf jsonString
  split_ifs with hutf8
  · exact h.alloc (L.holds_string (hval hutf8))
  · exact h

section Setting
variable {make : Store → Pointer × Store} (hs : s.Meets L) (hmake : MakesMeeting L make) (hndl : ℕ)
include hs

theorem leavesMeeting_setObjectValue {key : Bytes}
    (hkey : utf8CheckString key = true → L.key key) (hndlValue : ℕ) :
    LeavesMeeting L (setObjectValue E s hndl key hndlValue) := by
  refine leavesMeeting_getJSONFromHandle hs fun object =>
    leavesMeeting_getJSONFromHandle hs fun value => leavesMeeting_finish hs fun r hr => ?_
  obtain ⟨heap, hi, hr⟩ := Option.bind_eq_some_iff.mp hr
  exact (hs.heap.incref hi).objectSetNew hkey hr

theorem leavesMeeting_setArrayValue (index : Int32) (hndlValue : ℕ) :
    LeavesMeeting L (setArrayValue E s hndl index hndlValue) := by
  refine leavesMeeting_getJSONFromHandle hs fun array =>
    leavesMeeting_getJSONFromHandle hs fun value => leavesMeeting_finish hs fun r hr => ?_
  obtain ⟨heap, hi, hr⟩ := Option.bind_eq_some_iff.mp hr
  exact (hs.heap.incref hi).arraySetNew hr

theorem leavesMeeting_pushArrayValue (hndlValue : ℕ) :
    LeavesMeeting L (pushArrayValue E s hndl hndlValue) := by
  refine leavesMeeting_getJSONFromHandle hs fun array =>
    leavesMeeting_getJSONFromHandle hs fun value => leavesMeeting_finish hs fun r hr => ?_
  obtain ⟨heap, hi, hr⟩ := Option.bind_eq_some_iff.mp hr
  exact (hs.heap.incref hi).arrayAppendNew hr

include hmake

theorem leavesMeeting_setObjectNew {key : Bytes}
    (hkey : utf8CheckString key = true → L.key key) :
    LeavesMeeting L (setObjectNew E s make hndl key) :=
  leavesMeeting_getJSONFromHandle hs fun _ => leavesMeeting_finish hs fun _ hr =>
    (hmake s.heap hs.heap).objectSetNew hkey hr

theorem leavesMeeting_setArrayNew (index : Int32) : LeavesMeeting L (setArrayNew E s make hndl index) :=
  leavesMeeting_getJSONFromHandle hs fun _ => leavesMeeting_finish hs fun _ hr =>
    (hmake s.heap hs.heap).arraySetNew hr

theorem leavesMeeting_pushArrayNew : LeavesMeeting L (pushArrayNew E s make hndl) :=
  leavesMeeting_getJSONFromHandle hs fun _ => leavesMeeting_finish hs fun _ hr =>
    (hmake s.heap hs.heap).arrayAppendNew hr

end Setting

theorem leavesMeeting_setObject (hs : s.Meets L) (hndl : ℕ) {key : Bytes}
    (hkey : utf8CheckString key = true → L.key key) {value : Value} (hvalue : value.Meets L) :
    LeavesMeeting L (setObject E s hndl key value) := by
  cases value with
  | handle hndlValue => exact leavesMeeting_setObjectValue hs hndl hkey hndlValue
  | bool value => exact leavesMeeting_setObjectNew hs (makes_bool value) hndl hkey
  | float value => exact leavesMeeting_setObjectNew hs (makes_float value) hndl hkey
  | int value => exact leavesMeeting_setObjectNew hs (makes_integer hvalue) hndl hkey
  | int64 val => exact leavesMeeting_setObjectNew hs (makes_integer hvalue) hndl hkey
  | null => exact leavesMeeting_setObjectNew hs makes_null hndl hkey
  | string val => exact leavesMeeting_setObjectNew hs (makes_string hvalue) hndl hkey

theorem leavesMeeting_setArray (hs : s.Meets L) (hndl : ℕ) (index : Int32) {value : Value}
    (hvalue : value.Meets L) : LeavesMeeting L (setArray E s hndl index value) := by
  cases value with
  | handle hndlValue => exact leavesMeeting_setArrayValue hs hndl index hndlValue
  | bool value => exact leavesMeeting_setArrayNew hs (makes_bool value) hndl index
  | float value => exact leavesMeeting_setArrayNew hs (makes_float value) hndl index
  | int value => exact leavesMeeting_setArrayNew hs (makes_integer hvalue) hndl index
  | int64 val => exact leavesMeeting_setArrayNew hs (makes_integer hvalue) hndl index
  | null => exact leavesMeeting_setArrayNew hs makes_null hndl index
  | string val => exact leavesMeeting_setArrayNew hs (makes_string hvalue) hndl index

theorem leavesMeeting_pushArray (hs : s.Meets L) (hndl : ℕ) {value : Value}
    (hvalue : value.Meets L) : LeavesMeeting L (pushArray E s hndl value) := by
  cases value with
  | handle hndlValue => exact leavesMeeting_pushArrayValue hs hndl hndlValue
  | bool value => exact leavesMeeting_pushArrayNew hs (makes_bool value) hndl
  | float value => exact leavesMeeting_pushArrayNew hs (makes_float value) hndl
  | int value => exact leavesMeeting_pushArrayNew hs (makes_integer hvalue) hndl
  | int64 val => exact leavesMeeting_pushArrayNew hs (makes_integer hvalue) hndl
  | null => exact leavesMeeting_pushArrayNew hs makes_null hndl
  | string val => exact leavesMeeting_pushArrayNew hs (makes_string hvalue) hndl

theorem leavesMeeting_closeHandle (hs : s.Meets L) (hndl : ℕ) : LeavesMeeting L (closeHandle E s hndl) := by
  unfold closeHandle
  split
  · exact leavesMeeting_some hs
  · exact leavesMeeting_map fun heap hd => ⟨hs.heap.decref hd, hs.responses⟩

theorem leavesMeeting_getResponseData (hs : s.Meets L) (hndl : ℕ) (refused : Option ℕ) :
    LeavesMeeting L (getResponseData E s hndl refused) := by
  unfold getResponseData
  split
  · exact leavesMeeting_some hs
  · next response hread =>
    have hbody := hs.responses (hndl, response) (mem_of_readHandle hread)
    split
    · exact leavesMeeting_some hs
    · refine leavesMeeting_bind fun r hr => ?_
      obtain ⟨data, heap⟩ := r
      have hheap := hs.with_heap (jsonLoads_kept hbody hs.heap hr)
      cases data with
      | none => exact leavesMeeting_some hheap
      | some json =>
        refine leavesMeeting_map fun r hcreate => ?_
        obtain ⟨s₁, o⟩ := r
        have hs₁ := leavesMeeting_createHandle hheap refused _ json s₁ o hcreate
        refine ⟨hs₁.heap, fun x hx => ?_⟩
        rcases mem_updateHandle hx with rfl | hx
        · exact hbody
        · exact hs₁.responses x hx

theorem leavesMeeting_closeResponse (hs : s.Meets L) (hndl : ℕ) :
    LeavesMeeting L (closeResponse E s hndl) := by
  unfold closeResponse
  split
  · exact leavesMeeting_some hs
  · next response responses htake =>
    have hrest : State.Meets L { s with responses } :=
      ⟨hs.heap, fun x hx => hs.responses x
        ((takeHandle_perm htake).mem_iff.mpr (List.mem_cons_of_mem _ hx))⟩
    split
    · exact leavesMeeting_some hrest
    · exact leavesMeeting_closeHandle hrest _

end Natives

/-- One call. -/
theorem call_leavesMeeting {L : Law} {E : Host} {s : State} {c : Call} (hs : s.Meets L)
    (hc : c.Meets L) : LeavesMeeting L (call E s c) := by
  cases c with
  | createObject refused =>
    have hheap : L.Kept (s.heap.alloc (.object [])) := hs.heap.alloc (L.holds_empty _)
    exact leavesMeeting_createHandle (hs.with_heap hheap) _ _ _
  | createArray refused =>
    have hheap : L.Kept (s.heap.alloc (.array [])) := hs.heap.alloc (L.holds_array _ _)
    exact leavesMeeting_createHandle (hs.with_heap hheap) _ _ _
  | fromString d refused =>
    exact leavesMeeting_fromText hs hc _ _
  | fromFile d refused =>
    exact leavesMeeting_fromText hs hc _ _
  | getObjectSize hndl => exact leavesMeeting_getJSONFromHandle hs fun _ => leavesMeeting_answer hs _
  | getArraySize hndl => exact leavesMeeting_getJSONFromHandle hs fun _ => leavesMeeting_answer hs _
  | isObjectKeyValid hndl key =>
    unfold call isObjectKeyValid
    exact leavesMeeting_withKey hs fun _ => leavesMeeting_some hs
  | getObject getter hndl key => exact leavesMeeting_getObject hs _ _ _
  | getArray getter hndl index => exact leavesMeeting_getArray hs _ _ _
  | setObject hndl key value => exact leavesMeeting_setObject hs hndl hc.1 hc.2
  | setArray hndl index value => exact leavesMeeting_setArray hs hndl index hc
  | pushArray hndl value => exact leavesMeeting_pushArray hs hndl hc
  | removeFromObject hndl key =>
    exact leavesMeeting_getJSONFromHandle hs fun _ => leavesMeeting_finish hs fun _ hr =>
      hs.heap.objectDel hr
  | clearObject hndl =>
    exact leavesMeeting_getJSONFromHandle hs fun _ => leavesMeeting_finish hs fun _ hr =>
      hs.heap.objectClear hr
  | removeFromArray hndl index =>
    exact leavesMeeting_getJSONFromHandle hs fun _ => leavesMeeting_finish hs fun _ hr =>
      hs.heap.arrayRemove hr
  | clearArray hndl =>
    exact leavesMeeting_getJSONFromHandle hs fun _ => leavesMeeting_finish hs fun _ hr =>
      hs.heap.arrayClear hr
  | createObjectKeys hndl refused =>
    refine leavesMeeting_getJSONFromHandle hs fun object => leavesMeeting_bind fun iter _ => ?_
    cases refused with
    | none => exact leavesMeeting_some ⟨hs.heap, hs.responses⟩
    | some err => exact leavesMeeting_some hs
  | readObjectKey hndlKeys maxlength =>
    show LeavesMeeting L (readObjectKey E s hndlKeys maxlength)
    unfold readObjectKey
    split
    · exact leavesMeeting_some hs
    · refine leavesMeeting_bind fun key _ => ?_
      cases key with
      | none => exact leavesMeeting_some hs
      | some key => exact leavesMeeting_map fun _ _ => ⟨hs.heap, hs.responses⟩
  | closeKeys hndlKeys =>
    show LeavesMeeting L (closeKeys s hndlKeys)
    unfold closeKeys
    split
    · exact leavesMeeting_some hs
    · exact leavesMeeting_some ⟨hs.heap, hs.responses⟩
  | closeHandle hndl => exact leavesMeeting_closeHandle hs hndl
  | openResponse body =>
    refine leavesMeeting_some ⟨hs.heap, fun x hx => ?_⟩
    rcases List.mem_cons.mp hx with rfl | hx
    · exact hc
    · exact hs.responses x hx
  | getResponseData hndl refused => exact leavesMeeting_getResponseData hs hndl refused
  | closeResponse hndl => exact leavesMeeting_closeResponse hs hndl

/-- A law that the arguments of all calls meet holds after every run. -/
theorem run_meets {L : Law} {E : Host} {s : State} {calls : List Call}
    (hcalls : (system E).Along (fun _ c => c.Meets L) .empty calls)
    (hrun : (system E).run .empty calls = some s) : s.Meets L := by
  have hempty : State.empty.Meets L := by
    constructor
    · intro n c hc
      cases hc
    · intro x hx
      cases hx
  refine Transition.System.run_invariant (I := State.Meets L) ?_ hempty hcalls hrun
  intro s c t hs hc ht
  obtain ⟨⟨t', o⟩, hcall, rfl⟩ := Option.map_eq_some_iff.mp ht
  exact call_leavesMeeting hs hc t' o hcall

end RipExt.Json
