import RipExt.Foundation.Allocator
import RipExt.Http.Perform
import RipExt.Http.ResponseBody

/-! The buffer of a response on the heap: `realloc` may fail in any call of `WriteResponseBody`, and
the context frees the buffer at its end. -/
namespace RipExt.Http
open Allocator

section Callback

/-- What curl hands over: `size * nmemb` bytes in memory. -/
structure Chunk where
  size : ℕ
  nmemb : ℕ
  bytes : Block
  length : bytes.length = size * nmemb
  object : bytes.length < objectLimit

/-- The heap, and the fields of `HTTPResponse` that the callback changes. -/
structure Receiver where
  heap : Heap
  body : Option ℕ := none
  size : ℕ := 0

abbrev Callback := Receiver → Chunk → Option Answer → Option (ℕ × Receiver)

/-- The result of `realloc(response->body, response->size + total + 1)`. -/
def Receiver.grow (r : Receiver) (chunk : Chunk) (answer : Option Answer) :
    Option (Option ℕ × Heap) :=
  realloc r.heap r.body ((r.size + chunk.size * chunk.nmemb % 2 ^ 64 + 1) % 2 ^ 64) answer

/-- `WriteResponseBody`, the value it returns and what it leaves. It has no result where it would
touch memory that is not its own. -/
def Receiver.writeResponseBody (r : Receiver) (chunk : Chunk) (answer : Option Answer) :
    Option (ℕ × Receiver) := do
  let total := chunk.size * chunk.nmemb % 2 ^ 64
  let (temp, heap) ← r.grow chunk answer
  match temp with
  | none => some (0, { r with heap })
  | some temp =>
    let heap ← write heap temp r.size (chunk.bytes.take total)
    let size := (r.size + total) % 2 ^ 64
    let heap ← write heap temp size [0]
    some (total, ⟨heap, some temp, size⟩)

/-- The copy in `httprequestcontext.cpp`. -/
def HTTPRequestContext.writeResponseBody : Callback := Receiver.writeResponseBody

/-- The copy in `httpformcontext.cpp`. -/
def HTTPFormContext.writeResponseBody : Callback := Receiver.writeResponseBody

/-- The `free(response.body)` of both destructors. -/
def Receiver.freeBody (r : Receiver) : Option Heap := free r.heap r.body

/-- A call of curl, and how the allocator answers in it. -/
structure BodyCall where
  chunk : Chunk
  answer : Option Answer

/-- What `realloc` returns in a call. -/
def Receiver.granted (r : Receiver) (call : BodyCall) : Option ℕ :=
  (r.grow call.chunk call.answer).bind (·.1)

/-- A transfer so far, with the chunk and the allocation of each successful call. -/
structure Transfer where
  receiver : Receiver
  successes : List (Block × ℕ) := []

def Transfer.step (write : Callback) (t : Transfer) (call : BodyCall) : Option Transfer :=
  (write t.receiver call.chunk call.answer).map fun result =>
    ⟨result.2, t.successes ++ (t.receiver.granted call).toList.map (call.chunk.bytes, ·)⟩

/-- All calls of a transfer, which starts with an empty response. -/
def receiveBody (write : Callback) (base : Heap) (calls : List BodyCall) : Option Transfer :=
  calls.foldlM (Transfer.step write) ⟨⟨base, none, 0⟩, []⟩

/-- The bytes of the successful calls. -/
def Transfer.text (t : Transfer) : Block := (t.successes.map (·.1)).flatten

end Callback

section Property

/-- The response has no buffer yet, or the buffer is the last one allocated. It holds the bytes of
the successful calls and a zero after them. -/
inductive Transfer.Buffered (t : Transfer) : Prop
  | empty (none_succeeded : t.successes = []) (body : t.receiver.body = none)
      (size : t.receiver.size = 0)
  | allocated (p : ℕ) (content : Block) (last : (t.successes.getLast?).map (·.2) = some p)
      (body : t.receiver.body = some p) (live : t.receiver.heap p = some content)
      (room : t.receiver.size + 1 ≤ content.length)
      (text : content.take t.receiver.size = t.text) (zero : content[t.receiver.size]? = some 0)

/-- A successful call takes its whole chunk; one that fails takes nothing and changes nothing. -/
structure AnswersRight (write : Callback) (r : Receiver) (call : BodyCall) : Prop where
  success : ∀ p, r.granted call = some p → ∃ r',
    write r call.chunk call.answer = some (call.chunk.size * call.chunk.nmemb, r') ∧
      r'.body = some p
  failure : r.granted call = none → write r call.chunk call.answer = some (0, r)

/-- No call touches memory that is not its own. Between two calls the response is as it should be,
the next call is answered rightly whatever it is, and the destructor frees the buffer and nothing
else. -/
def Accumulates (write : Callback) : Prop :=
  ∀ (base : Heap) (calls : List BodyCall), ∃ t, receiveBody write base calls = some t ∧
    t.Buffered ∧ (∀ call, AnswersRight write t.receiver call) ∧ t.receiver.freeBody = some base

end Property

section Step
variable {base : Heap} {text : Block} {r : Receiver}

theorem Chunk.total_eq (chunk : Chunk) : chunk.size * chunk.nmemb % 2 ^ 64 = chunk.bytes.length := by
  rw [← chunk.length]
  exact Nat.mod_eq_of_lt (chunk.object.trans (by decide))

/-- The pointer of the response owns a block that starts with `text`. -/
structure Receiver.Holds (r : Receiver) (base : Heap) (text : Block) : Prop where
  owns : ∃ content, Owns base r.body content r.heap ∧ text <+: content
  size : r.size = text.length
  object : r.size < objectLimit

/-- Neither the sum that `realloc` is given nor the new size wraps around. -/
theorem Receiver.Holds.sum_lt (h : r.Holds base text) (chunk : Chunk) :
    r.size + chunk.bytes.length + 1 < 2 ^ 64 := by
  have hobject := h.object
  have hchunk := chunk.object
  unfold objectLimit at hobject hchunk
  omega

theorem Receiver.Holds.grow_eq (h : r.Holds base text) (chunk : Chunk) (answer : Option Answer) :
    r.grow chunk answer = realloc r.heap r.body (r.size + chunk.bytes.length + 1) answer := by
  rw [Receiver.grow, chunk.total_eq, Nat.mod_eq_of_lt (h.sum_lt chunk)]

/-- The two writes into the new block: the chunk goes behind the text, and the zero behind it. -/
theorem writes_owned {p : ℕ} {content bytes : Block} {heap : Heap}
    (howns : Owns base (some p) content heap) (htext : content.take text.length = text)
    (hlength : content.length = text.length + bytes.length + 1) :
    ∃ heap₁ heap₂, write heap p text.length bytes = some heap₁ ∧
      write heap₁ p (text.length + bytes.length) [0] = some heap₂ ∧
      Owns base (some p) (text ++ bytes ++ [0]) heap₂ := by
  have hspliced : (splice content text.length bytes).length = text.length + bytes.length + 1 :=
    (splice_length (by omega)).trans hlength
  have hchunk : text.length + bytes.length ≤ content.length := by omega
  have hzero : text.length + bytes.length + ([0] : Block).length ≤
      (splice content text.length bytes).length := hspliced.ge
  obtain ⟨heap₁, hfirst, howns₁⟩ := howns.write hchunk
  obtain ⟨heap₂, hsecond, howns₂⟩ := howns₁.write hzero
  refine ⟨heap₁, heap₂, hfirst, hsecond, ?_⟩
  rw [splice_to_end hspliced, splice_take (by omega), htext] at howns₂
  exact howns₂

/-- A call fails and changes nothing, or it moves the text with its chunk to the block it got. -/
theorem Receiver.Holds.call (h : r.Holds base text) (call : BodyCall) :
    (r.granted call = none ∧ r.writeResponseBody call.chunk call.answer = some (0, r)) ∨
      ∃ p heap, r.granted call = some p ∧
        r.writeResponseBody call.chunk call.answer = some (call.chunk.bytes.length,
          ⟨heap, some p, (text ++ call.chunk.bytes).length⟩) ∧
        Owns base (some p) (text ++ call.chunk.bytes ++ [0]) heap ∧
        (text ++ call.chunk.bytes).length < objectLimit := by
  obtain ⟨content, howns, hprefix⟩ := h.owns
  have hgrow := h.grow_eq call.chunk call.answer
  unfold Receiver.granted Receiver.writeResponseBody
  rcases howns.realloc (r.size + call.chunk.bytes.length + 1) call.answer with
    hfails | ⟨a, heap, -, hlimit, hmoves, howned⟩
  · left
    rw [hgrow, hfails]
    exact ⟨rfl, rfl⟩
  · right
    have hkept : (resized content (r.size + call.chunk.bytes.length + 1) a.filler).take
        text.length = text := by
      rw [resized_take hprefix.length_le (by rw [h.size]; omega)]
      exact (List.prefix_iff_eq_take.mp hprefix).symm
    have hlength : (resized content (r.size + call.chunk.bytes.length + 1) a.filler).length =
        text.length + call.chunk.bytes.length + 1 := by
      rw [resized_length, h.size]
    obtain ⟨heap₁, heap₂, hfirst, hsecond, hdone⟩ := writes_owned howned hkept hlength
    refine ⟨a.address, heap₂, ?_, ?_, hdone, ?_⟩
    · rw [hgrow, hmoves]
      rfl
    · have hsize : (r.size + call.chunk.bytes.length) % 2 ^ 64 =
          text.length + call.chunk.bytes.length := by
        rw [Nat.mod_eq_of_lt (by have := h.sum_lt call.chunk; omega), h.size]
      simp only [call.chunk.total_eq, List.take_length, hgrow, hmoves, hsize]
      simp [h.size, hfirst, hsecond]
    · rw [List.length_append, ← h.size]
      omega

end Step

section Transfers
variable {base : Heap} {t : Transfer}

/-- No call succeeded and nothing is allocated, or one block is: the bytes of the successful calls
and a zero, where the last of them put it. -/
inductive Transfer.Sound (base : Heap) : Transfer → Prop
  | initial : Sound base ⟨⟨base, none, 0⟩, []⟩
  | allocated {t : Transfer} {p : ℕ} (last : (t.successes.getLast?).map (·.2) = some p)
      (body : t.receiver.body = some p) (owns : Owns base (some p) (t.text ++ [0]) t.receiver.heap)
      (size : t.receiver.size = t.text.length) (object : t.text.length < objectLimit) :
      Sound base t

theorem Transfer.Sound.holds (h : t.Sound base) : t.receiver.Holds base t.text := by
  cases h with
  | initial => exact ⟨⟨[], ⟨rfl, rfl⟩, List.prefix_rfl⟩, rfl, Nat.two_pow_pos 63⟩
  | allocated last body owns size object =>
    exact ⟨⟨_, body ▸ owns, List.prefix_append _ _⟩, size, size ▸ object⟩

theorem Transfer.Sound.step (h : t.Sound base) (call : BodyCall) :
    ∃ t', t.step Receiver.writeResponseBody call = some t' ∧ t'.Sound base := by
  rcases h.holds.call call with ⟨hnone, hwrite⟩ | ⟨p, heap, hp, hwrite, howns, hobject⟩
  · refine ⟨t, ?_, h⟩
    simp [Transfer.step, hnone, hwrite]
  · have htext : Transfer.text ⟨⟨heap, some p, (t.text ++ call.chunk.bytes).length⟩,
        t.successes ++ [(call.chunk.bytes, p)]⟩ = t.text ++ call.chunk.bytes := by
      simp [Transfer.text]
    refine ⟨_, ?_, .allocated (t := ⟨⟨heap, some p, (t.text ++ call.chunk.bytes).length⟩,
      t.successes ++ [(call.chunk.bytes, p)]⟩) (p := p) ?_ rfl ?_ ?_ ?_⟩
    · simp [Transfer.step, hp, hwrite]
    · simp
    · rw [htext]
      exact howns
    · rw [htext]
    · rw [htext]
      exact hobject

theorem receiveBody_append (write : Callback) (base : Heap) (calls : List BodyCall) (call : BodyCall) :
    receiveBody write base (calls ++ [call]) =
      (receiveBody write base calls).bind (Transfer.step write · call) := by
  simp [receiveBody, List.foldlM_append]

theorem receiveBody_sound (base : Heap) (calls : List BodyCall) :
    ∃ t, receiveBody Receiver.writeResponseBody base calls = some t ∧ t.Sound base := by
  induction calls using List.reverseRecOn with
  | nil => exact ⟨_, rfl, .initial⟩
  | append_singleton calls call ih =>
    obtain ⟨t, ht, hsound⟩ := ih
    obtain ⟨t', ht', hsound'⟩ := hsound.step call
    refine ⟨t', ?_, hsound'⟩
    rw [receiveBody_append, ht]
    exact ht'

theorem Transfer.Sound.buffered (h : t.Sound base) : t.Buffered := by
  cases h with
  | initial => exact .empty rfl rfl rfl
  | @allocated _ p last body owns size object =>
    refine .allocated p (t.text ++ [0]) last body owns.block_eq ?_ ?_ ?_
    · rw [size, List.length_append, List.length_singleton]
    · rw [size, List.take_left]
    · rw [size, List.getElem?_concat_length]

theorem Transfer.Sound.answersRight (h : t.Sound base) (call : BodyCall) :
    AnswersRight Receiver.writeResponseBody t.receiver call := by
  rcases h.holds.call call with ⟨hnone, hwrite⟩ | ⟨p, heap, hp, hwrite, -, -⟩
  · refine ⟨fun p hp => ?_, fun _ => hwrite⟩
    rw [hnone] at hp
    cases hp
  · refine ⟨fun q hq => ⟨_, call.chunk.length ▸ hwrite, ?_⟩, fun hnone => ?_⟩
    · exact hp.symm.trans hq
    · rw [hp] at hnone
      cases hnone

theorem Transfer.Sound.freeBody_eq (h : t.Sound base) : t.receiver.freeBody = some base := by
  obtain ⟨content, howns, -⟩ := h.holds.owns
  exact howns.free

/-- The buffer of a response that is described without the heap. -/
def Receiver.responseBody (r : Receiver) : ResponseBody :=
  ⟨(r.body.bind r.heap).map (·.take r.size), r.size⟩

theorem Transfer.Sound.responseBody_eq (h : t.Sound base) :
    t.receiver.responseBody = receiveChunks (t.successes.map (·.1)) := by
  cases h with
  | initial => rfl
  | @allocated _ p last body owns size object =>
    have hne : t.successes.map (·.1) ≠ [] := by
      intro hnil
      rw [List.map_eq_nil_iff.mp hnil] at last
      cases last
    have hbody := receiveChunks_body hne
    have hsize := (receiveChunks_eq (t.successes.map (·.1))).2.1
    have hlive : t.receiver.heap p = some (t.text ++ [0]) := owns.block_eq
    rw [Receiver.responseBody, body, Option.bind_some, hlive, size, Option.map_some, List.take_left]
    exact congrArg₂ ResponseBody.mk hbody.symm hsize.symm

/-- What the heap holds after any calls is what `receiveChunks` says about the successful ones. -/
theorem receiveBody_responseBody (base : Heap) (calls : List BodyCall) :
    ∃ t, receiveBody Receiver.writeResponseBody base calls = some t ∧
      t.receiver.responseBody = receiveChunks (t.successes.map (·.1)) := by
  obtain ⟨t, ht, hsound⟩ := receiveBody_sound base calls
  exact ⟨t, ht, hsound.responseBody_eq⟩

end Transfers

/-- One byte at a time, the way curl counts. -/
def byteChunk (b : UInt8) : Chunk := ⟨1, 1, [b], rfl, Nat.one_lt_two_pow (by decide)⟩

/-- The second of three calls fails, and the third moves the block. -/
example : (receiveBody HTTPFormContext.writeResponseBody (fun _ => none)
      [⟨byteChunk 91, some ⟨16, []⟩⟩, ⟨byteChunk 32, none⟩, ⟨byteChunk 93, some ⟨48, [7]⟩⟩]).map
    (fun t => (t.receiver.heap 16, t.receiver.heap 48, t.receiver.body, t.receiver.size)) =
      some (none, some [91, 93, 0], some 48, 2) := by
  decide

end RipExt.Http
