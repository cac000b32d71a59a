import Yack.NestedActivations
import Yack.SerialPort
import Mathlib.Logic.Function.Basic

/-!
# `serial_write` under reentry

A trap may come between any two statements of `serial_write`, and its handler may
call `serial_write` again, so the calls nest. The default port is what they share.
Calls are numbered as they enter; the buffer and the return value of every call
are recorded, and every byte sent carries the number of its call. The code reads
none of these records.
-/
namespace Yack.SerialReentry
open NestedActivations SerialPort

/-- A byte sent to a data port. -/
structure Sent where
  call : ℕ
  port : BitVec 16
  byte : Byte
  deriving DecidableEq, Repr

structure Call where
  buffer : List Byte
  result : Option (BitVec 32)
  deriving DecidableEq, Repr

/-- The shared state; `next` is the number of the next call. -/
@[ext]
structure Line where
  serialDefaultPort : BitVec 16
  sent : List Sent
  next : ℕ
  calls : ℕ → Call

/-- The statements of `serial_write`, the parts of the `for` and the `do` among
them. -/
inductive Point where
  | read
  | clear
  | check
  | test
  | poll
  | again
  | send
  | advance
  | restore
  | returning (value : BitVec 32)
  deriving DecidableEq, Repr

/-- The local variables; `buffer` is what is left of the buffer. -/
structure Frame where
  call : ℕ
  buffer : List Byte
  size : BitVec 32
  com : BitVec 16
  bytes : BitVec 32
  status : Byte
  point : Point

def Line.enter (s : Line) (buffer : List Byte) : Line :=
  { s with next := s.next + 1, calls := Function.update s.calls s.next { buffer, result := none } }

def Line.return (s : Line) (call : ℕ) (value : BitVec 32) : Line :=
  { s with calls := Function.update s.calls call { s.calls call with result := some value } }

def call (s : Line) (buffer : List Byte) : Option (Line × Frame) :=
  if buffer.length < 2 ^ 32 then
    some (s.enter buffer,
      { call := s.next, buffer, size := BitVec.ofNat 32 buffer.length, com := 0, bytes := 0
        status := 0, point := .read })
  else none

/-- One statement; `device` is what the ports answer. -/
def serialWriteStep (s : Line) (f : Frame) (device : BitVec 16 → Byte) :
    Option (Line × Option Frame) :=
  match f.point with
  | .read => some (s, some { f with com := s.serialDefaultPort, point := .clear })
  | .clear => some ({ s with serialDefaultPort := 0 }, some { f with point := .check })
  | .check =>
      if f.com = 0 then some (s, some { f with point := .returning 0 })
      else some (s, some { f with bytes := 0, point := .test })
  | .test =>
      if f.size ≠ 0 then some (s, some { f with size := f.size - 1, point := .poll })
      else some (s, some { f with size := f.size - 1, point := .restore })
  | .poll =>
      some (s, some { f with status := device (x86SerialLineStatusPort f.com), point := .again })
  | .again =>
      if f.status = 0x20 then some (s, some { f with point := .poll })
      else some (s, some { f with point := .send })
  | .send =>
      match f.buffer with
      | [] => none
      | byte :: _ =>
          some ({ s with
            sent := s.sent ++ [{ call := f.call, port := x86SerialDataPort f.com, byte }] },
            some { f with point := .advance })
  | .advance =>
      some (s, some { f with buffer := f.buffer.tail, bytes := f.bytes + 1, point := .test })
  | .restore =>
      some ({ s with serialDefaultPort := f.com }, some { f with point := .returning f.bytes })
  | .returning value => some (s.return f.call value, none)

def serialCalls : Activations Line Frame (List Byte) (BitVec 16 → Byte) where
  enter := call
  advance := serialWriteStep

/-- The bytes of a call on the data port of `com`. -/
def transmit (call : ℕ) (com : BitVec 16) (bytes : List Byte) : List Sent :=
  bytes.map fun byte => { call, port := x86SerialDataPort com, byte }

/-- The whole buffers of the calls, one after the other. -/
def messages (calls : ℕ → Call) (com : BitVec 16) (order : List ℕ) : List Sent :=
  order.flatMap fun id => transmit id com (calls id).buffer

/-- The calls that entered and returned between two states sent the messages of
`order`; each of them returned its size if it is in `order` and else zero. -/
structure Batch (s₀ s : Line) (order : List ℕ) : Prop where
  port : s.serialDefaultPort = s₀.serialDefaultPort
  next : s₀.next ≤ s.next
  sent : s.sent = s₀.sent ++ messages s.calls s₀.serialDefaultPort order
  old : ∀ id < s₀.next, s.calls id = s₀.calls id
  result : ∀ id, s₀.next ≤ id → id < s.next → (s.calls id).result =
    some (if id ∈ order then BitVec.ofNat 32 (s.calls id).buffer.length else 0)
  fresh : ∀ id ∈ order, s₀.next ≤ id ∧ id < s.next
  nodup : order.Nodup
  silent : s₀.serialDefaultPort = 0 → order = []

theorem messages_congr {calls calls' : ℕ → Call} (com : BitVec 16) {order : List ℕ}
    (h : ∀ id ∈ order, (calls id).buffer = (calls' id).buffer) :
    messages calls com order = messages calls' com order := by
  induction order with
  | nil => rfl
  | cons id order ih =>
      have hid := h id List.mem_cons_self
      have hrest := ih fun k hk => h k (List.mem_cons_of_mem id hk)
      unfold messages at hrest ⊢
      rw [List.flatMap_cons, List.flatMap_cons, hid, hrest]

theorem messages_append (calls : ℕ → Call) (com : BitVec 16) (order order' : List ℕ) :
    messages calls com (order ++ order') =
      messages calls com order ++ messages calls com order' :=
  List.flatMap_append

theorem Batch.refl (s : Line) : Batch s s [] where
  port := rfl
  next := Nat.le_refl _
  sent := (List.append_nil _).symm
  old _ _ := rfl
  result _ hle hlt := absurd hlt (Nat.not_lt.mpr hle)
  fresh _ hid := absurd hid List.not_mem_nil
  nodup := List.nodup_nil
  silent _ := rfl

theorem Batch.trans {s₀ s₁ s₂ : Line} {order order' : List ℕ} (h : Batch s₀ s₁ order)
    (h' : Batch s₁ s₂ order') : Batch s₀ s₂ (order ++ order') where
  port := h'.port.trans h.port
  next := Nat.le_trans h.next h'.next
  sent := by
    have hcalls := @messages_congr s₂.calls s₁.calls s₀.serialDefaultPort order fun id hid => by
      rw [h'.old id (h.fresh id hid).2]
    rw [h'.sent, h.sent, h.port, messages_append, hcalls, List.append_assoc]
  old id hid := (h'.old id (Nat.lt_of_lt_of_le hid h.next)).trans (h.old id hid)
  result id hle hlt := by
    by_cases hid : id < s₁.next
    · have hnot : id ∉ order' := fun hmem => absurd (h'.fresh id hmem).1 (Nat.not_le.mpr hid)
      rw [h'.old id hid, h.result id hle hid]
      simp [hnot]
    · have hnot : id ∉ order := fun hmem => hid (h.fresh id hmem).2
      rw [h'.result id (Nat.not_lt.mp hid) hlt]
      simp [hnot]
  fresh id hid := by
    cases List.mem_append.mp hid with
    | inl hid => exact ⟨(h.fresh id hid).1, Nat.lt_of_lt_of_le (h.fresh id hid).2 h'.next⟩
    | inr hid => exact ⟨Nat.le_trans h.next (h'.fresh id hid).1, (h'.fresh id hid).2⟩
  nodup := by
    refine List.nodup_append.mpr ⟨h.nodup, h'.nodup, fun id hid k hk heq => ?_⟩
    have hlt := (h.fresh id hid).2
    have hle := (h'.fresh k hk).1
    omega
  silent hport := by
    rw [h.silent hport, h'.silent (h.port.trans hport)]
    rfl

/-- What the calls that ran above an activation leave to it. The first of them
was sent if there was a port. -/
def Restores (s₀ s : Line) : Prop :=
  ∃ order, Batch s₀ s order ∧
    (s₀.serialDefaultPort ≠ 0 → s.next ≠ s₀.next → s₀.next ∈ order)

theorem Restores.refl (s : Line) : Restores s s := ⟨[], Batch.refl s, fun _ h => absurd rfl h⟩

theorem Restores.trans {s₀ s₁ s₂ : Line} (h : Restores s₀ s₁) (h' : Restores s₁ s₂) :
    Restores s₀ s₂ := by
  obtain ⟨order, hbatch, hfirst⟩ := h
  obtain ⟨order', hbatch', hfirst'⟩ := h'
  refine ⟨order ++ order', hbatch.trans hbatch', fun hport hnext => List.mem_append.mpr ?_⟩
  by_cases hmove : s₁.next = s₀.next
  · right
    rw [← hmove] at hnext ⊢
    exact hfirst' (hbatch.port ▸ hport) hnext
  · exact .inl (hfirst hport hmove)

/-- The state while a call that found the state `x` holds the port and has sent
`bytes`. -/
def Line.held (x : Line) (bytes : List Sent) : Line :=
  { x with serialDefaultPort := 0, sent := x.sent ++ bytes }

def Line.delivered (x : Line) (bytes : List Sent) : Line := { x with sent := x.sent ++ bytes }

/-- Above a call that holds the port nothing is sent. -/
theorem Batch.held {s₀ x s : Line} {order : List ℕ} {bytes : List Sent} (h : Batch s₀ x order)
    (hs : Restores (x.held bytes) s) : ∃ x', Batch s₀ x' order ∧ s = x'.held bytes := by
  obtain ⟨order', hbatch, -⟩ := hs
  obtain rfl := hbatch.silent rfl
  let x' : Line := { s with serialDefaultPort := x.serialDefaultPort, sent := x.sent }
  have hnested : Batch x x' [] :=
    { hbatch with
      port := rfl
      sent := (List.append_nil _).symm
      silent := fun _ => rfl }
  refine ⟨x', ?_, ?_⟩
  · have hall := h.trans hnested
    rw [List.append_nil] at hall
    exact hall
  · ext1
    · exact hbatch.port
    · exact hbatch.sent.trans (List.append_nil _)
    · rfl
    · rfl

theorem enter_calls (s : Line) (buffer : List Byte) {id : ℕ} (h : id ≠ s.next) :
    (s.enter buffer).calls id = s.calls id :=
  Function.update_of_ne h _ _

theorem return_calls (s : Line) {call id : ℕ} (value : BitVec 32) (h : id ≠ call) :
    (s.return call value).calls id = s.calls id :=
  Function.update_of_ne h _ _

theorem return_buffer (s : Line) (call id : ℕ) (value : BitVec 32) :
    ((s.return call value).calls id).buffer = (s.calls id).buffer := by
  by_cases h : id = call
  · subst h
    simp [Line.return]
  · rw [return_calls s value h]

theorem return_result (s : Line) (call : ℕ) (value : BitVec 32) :
    ((s.return call value).calls call).result = some value := by
  simp [Line.return]

/-- The calls above one that has entered keep its buffer. -/
theorem Batch.entered_buffer {s₀ s : Line} {message : List Byte} {order : List ℕ}
    (h : Batch (s₀.enter message) s order) : (s.calls s₀.next).buffer = message := by
  rw [h.old s₀.next (Nat.lt_succ_self _)]
  simp [Line.enter]

theorem Batch.entered_old {s₀ s : Line} {message : List Byte} {order : List ℕ}
    (h : Batch (s₀.enter message) s order) {id : ℕ} (hid : id < s₀.next) :
    s.calls id = s₀.calls id := by
  rw [h.old id (Nat.lt_succ_of_lt hid), enter_calls s₀ message (Nat.ne_of_lt hid)]

/-- A call that found no port returns zero. -/
theorem Batch.return_silent {s₀ s : Line} {message : List Byte} {order : List ℕ}
    (hport : s₀.serialDefaultPort = 0) (h : Batch (s₀.enter message) s order) :
    Batch s₀ (s.return s₀.next 0) [] := by
  obtain rfl := h.silent hport
  exact {
    port := h.port
    next := Nat.le_of_succ_le h.next
    sent := h.sent
    old := fun id hid => by
      rw [return_calls s 0 (Nat.ne_of_lt hid), h.entered_old hid]
    result := fun id hle hlt => by
      by_cases hid : id = s₀.next
      · subst hid
        exact return_result s _ 0
      · rw [return_calls s 0 hid]
        exact h.result id (Nat.lt_of_le_of_ne hle (Ne.symm hid)) hlt
    fresh := fun id hid => absurd hid List.not_mem_nil
    nodup := List.nodup_nil
    silent := fun _ => rfl }

/-- The message of the call that returns stands between those of the calls before
and after it held the port. -/
theorem Batch.messages_return {s₀ x s : Line} {message : List Byte} {order order' : List ℕ}
    {value : BitVec 32} (h : Batch (s₀.enter message) x order)
    (h' : Batch (x.delivered (transmit s₀.next s₀.serialDefaultPort message)) s order')
    (hbuffer : (s.calls s₀.next).buffer = message) :
    s.sent = s₀.sent ++ messages (s.return s₀.next value).calls s₀.serialDefaultPort
      (order ++ s₀.next :: order') := by
  have hbefore : messages (s.return s₀.next value).calls s₀.serialDefaultPort order =
      messages x.calls s₀.serialDefaultPort order := by
    refine messages_congr _ fun id hid => ?_
    rw [return_buffer, h'.old id (h.fresh id hid).2]
    rfl
  have hown : messages (s.return s₀.next value).calls s₀.serialDefaultPort (s₀.next :: order') =
      transmit s₀.next s₀.serialDefaultPort message ++
        messages s.calls s₀.serialDefaultPort order' := by
    have hafter := @messages_congr (s.return s₀.next value).calls s.calls s₀.serialDefaultPort
      order' fun id _ => return_buffer s _ id _
    rw [← hafter, messages, List.flatMap_cons, return_buffer, hbuffer]
    rfl
  have hport : (x.delivered (transmit s₀.next s₀.serialDefaultPort message)).serialDefaultPort =
    s₀.serialDefaultPort := h.port
  calc s.sent = x.sent ++ transmit s₀.next s₀.serialDefaultPort message ++
        messages s.calls s₀.serialDefaultPort order' := hport ▸ h'.sent
    _ = s₀.sent ++ messages x.calls s₀.serialDefaultPort order ++
        transmit s₀.next s₀.serialDefaultPort message ++
          messages s.calls s₀.serialDefaultPort order' := by rw [h.sent]; rfl
    _ = s₀.sent ++ messages (s.return s₀.next value).calls s₀.serialDefaultPort
          (order ++ s₀.next :: order') := by
      rw [messages_append, hbefore, hown, List.append_assoc, List.append_assoc]

/-- A call that found a port returns its size, and its message is among those sent. -/
theorem Batch.return_sent {s₀ x s : Line} {message : List Byte} {order order' : List ℕ}
    (hport : s₀.serialDefaultPort ≠ 0) (h : Batch (s₀.enter message) x order)
    (h' : Batch (x.delivered (transmit s₀.next s₀.serialDefaultPort message)) s order') :
    Batch s₀ (s.return s₀.next (BitVec.ofNat 32 message.length)) (order ++ s₀.next :: order') := by
  have hown : s₀.next < x.next := h.next
  have hbuffer : (s.calls s₀.next).buffer = message := by
    rw [h'.old s₀.next hown]
    exact h.entered_buffer
  have hnot : s₀.next ∉ order := fun hmem => Nat.lt_irrefl _ (h.fresh _ hmem).1
  have hnot' : s₀.next ∉ order' := fun hmem => Nat.not_le.mpr hown (h'.fresh _ hmem).1
  exact {
    port := h'.port.trans h.port
    next := Nat.le_trans (Nat.le_of_succ_le h.next) h'.next
    sent := h.messages_return h' hbuffer
    old := fun id hid => by
      rw [return_calls s _ (Nat.ne_of_lt hid), h'.old id (Nat.lt_trans hid hown)]
      exact h.entered_old hid
    result := fun id hle hlt => by
      by_cases hid : id = s₀.next
      · subst hid
        rw [return_result, return_buffer, hbuffer]
        simp
      · have hgt : s₀.next + 1 ≤ id := Nat.lt_of_le_of_ne hle (Ne.symm hid)
        rw [return_calls s _ hid]
        by_cases hx : id < x.next
        · have hnotid : id ∉ order' := fun hmem => Nat.not_le.mpr hx (h'.fresh id hmem).1
          rw [h'.old id hx]
          have hresult := h.result id hgt hx
          simpa [Line.delivered, hid, hnotid] using hresult
        · have hnotid : id ∉ order := fun hmem => hx (h.fresh id hmem).2
          have hresult := h'.result id (Nat.not_lt.mp hx) hlt
          simpa [hid, hnotid] using hresult
    fresh := fun id hid => by
      cases List.mem_append.mp hid with
      | inl hid =>
          have hfresh := h.fresh id hid
          exact ⟨Nat.le_of_succ_le hfresh.1, Nat.lt_of_lt_of_le hfresh.2 h'.next⟩
      | inr hid =>
          cases List.mem_cons.mp hid with
          | inl hid =>
              subst hid
              exact ⟨Nat.le_refl _, Nat.lt_of_lt_of_le hown h'.next⟩
          | inr hid =>
              have hfresh := h'.fresh id hid
              exact ⟨Nat.le_trans (Nat.le_of_lt hown) hfresh.1, hfresh.2⟩
    nodup := by
      refine List.nodup_append.mpr ⟨h.nodup, List.nodup_cons.mpr ⟨hnot', h'.nodup⟩,
        fun id hid k hk heq => ?_⟩
      subst heq
      cases List.mem_cons.mp hk with
      | inl hk => exact hnot (hk ▸ hid)
      | inr hk => exact Nat.not_lt.mpr (h'.fresh id hk).1 (h.fresh id hid).2
    silent := fun hzero => absurd hzero hport }

/-- How far a call has got: it has not taken the port, it holds the port and has
sent so many bytes, or it returns a value. -/
inductive Progress where
  | waiting
  | holding (sent : ℕ)
  | done (value : BitVec 32)

/-- What the line has come to under a call of `message` that entered in `s₀`. -/
inductive Ledger (s₀ : Line) (message : List Byte) : Line → Progress → Prop where
  | waiting {s : Line} {order : List ℕ} (h : Batch (s₀.enter message) s order) :
      Ledger s₀ message s .waiting
  | holding {x : Line} {order : List ℕ} (k : ℕ) (h : Batch (s₀.enter message) x order) :
      Ledger s₀ message
        (x.held (transmit s₀.next s₀.serialDefaultPort (message.take k))) (.holding k)
  | silent {s : Line} {order : List ℕ} (hport : s₀.serialDefaultPort = 0)
      (h : Batch (s₀.enter message) s order) : Ledger s₀ message s (.done 0)
  | sent {x s : Line} {order order' : List ℕ} (hport : s₀.serialDefaultPort ≠ 0)
      (h : Batch (s₀.enter message) x order)
      (h' : Batch (x.delivered (transmit s₀.next s₀.serialDefaultPort message)) s order') :
      Ledger s₀ message s (.done (BitVec.ofNat 32 message.length))

/-- The local variables of the call at its statements. -/
inductive Locals (call : ℕ) (message : List Byte) (port : BitVec 16) : Frame → Progress → Prop where
  | read {com : BitVec 16} {bytes : BitVec 32} {status : Byte} :
      Locals call message port
        { call, buffer := message, size := BitVec.ofNat 32 message.length, com, bytes, status
          point := .read } .waiting
  | clear {bytes : BitVec 32} {status : Byte} :
      Locals call message port
        { call, buffer := message, size := BitVec.ofNat 32 message.length, com := port, bytes
          status, point := .clear } .waiting
  | check {bytes : BitVec 32} {status : Byte} :
      Locals call message port
        { call, buffer := message, size := BitVec.ofNat 32 message.length, com := port, bytes
          status, point := .check } (.holding 0)
  | test {k : ℕ} {status : Byte} (hport : port ≠ 0) (hk : k ≤ message.length) :
      Locals call message port
        { call, buffer := message.drop k, size := BitVec.ofNat 32 (message.length - k), com := port
          bytes := BitVec.ofNat 32 k, status, point := .test } (.holding k)
  | body {k : ℕ} {status : Byte} {point : Point} (hport : port ≠ 0) (hk : k < message.length)
      (hpoint : point = .poll ∨ point = .again ∨ point = .send) :
      Locals call message port
        { call, buffer := message.drop k, size := BitVec.ofNat 32 (message.length - (k + 1))
          com := port, bytes := BitVec.ofNat 32 k, status, point } (.holding k)
  | advance {k : ℕ} {status : Byte} (hport : port ≠ 0) (hk : k < message.length) :
      Locals call message port
        { call, buffer := message.drop k, size := BitVec.ofNat 32 (message.length - (k + 1))
          com := port, bytes := BitVec.ofNat 32 k, status, point := .advance } (.holding (k + 1))
  | restore {buffer : List Byte} {size : BitVec 32} {status : Byte} (hport : port ≠ 0) :
      Locals call message port
        { call, buffer, size, com := port, bytes := BitVec.ofNat 32 message.length, status
          point := .restore } (.holding message.length)
  | returning {buffer : List Byte} {size bytes value : BitVec 32} {com : BitVec 16}
      {status : Byte} :
      Locals call message port
        { call, buffer, size, com, bytes, status, point := .returning value } (.done value)

/-- The call of the frame entered in `s₀` and may run in `s`. -/
def Running (s₀ s : Line) (f : Frame) : Prop :=
  ∃ message progress, message.length < 2 ^ 32 ∧
    Ledger s₀ message s progress ∧ Locals s₀.next message s₀.serialDefaultPort f progress

theorem call_running {s₀ s : Line} {f : Frame} {buffer : List Byte}
    (h : call s₀ buffer = some (s, f)) : Running s₀ s f := by
  obtain ⟨hlen, heq⟩ := Option.ite_none_right_eq_some.mp h
  cases heq
  exact ⟨buffer, .waiting, hlen, .waiting (Batch.refl _), .read⟩

/-- The calls above leave a call where it was. -/
theorem Ledger.resume {s₀ s s' : Line} {message : List Byte} {progress : Progress}
    (h : Ledger s₀ message s progress) (hs : Restores s s') : Ledger s₀ message s' progress := by
  cases h with
  | waiting h =>
      obtain ⟨order, hbatch, -⟩ := hs
      exact .waiting (h.trans hbatch)
  | holding k h =>
      obtain ⟨x', h', rfl⟩ := h.held hs
      exact .holding k h'
  | silent hport h =>
      obtain ⟨order, hbatch, -⟩ := hs
      exact .silent hport (h.trans hbatch)
  | sent hport h h' =>
      obtain ⟨order, hbatch, -⟩ := hs
      exact .sent hport h (h'.trans hbatch)

theorem ofNat_ne_zero {n : ℕ} (hn : n < 2 ^ 32) : BitVec.ofNat 32 n ≠ 0 ↔ 0 < n := by
  constructor
  · intro h
    by_contra hzero
    rw [Nat.eq_zero_of_not_pos hzero] at h
    exact h rfl
  · intro hpos h
    have hval := congrArg BitVec.toNat h
    rw [BitVec.toNat_ofNat, Nat.mod_eq_of_lt hn] at hval
    exact Nat.ne_of_gt hpos hval

/-- One more byte of the message. -/
theorem held_send {x : Line} {id k : ℕ} {com : BitVec 16} {message : List Byte}
    (hk : k < message.length) :
    { x.held (transmit id com (message.take k)) with
      sent := (x.held (transmit id com (message.take k))).sent ++
        [{ call := id, port := x86SerialDataPort com, byte := message[k] }] } =
      x.held (transmit id com (message.take (k + 1))) := by
  have htake : transmit id com (message.take (k + 1)) = transmit id com (message.take k) ++
      [{ call := id, port := x86SerialDataPort com, byte := message[k] }] := by
    rw [List.take_succ_eq_append_getElem hk, transmit, List.map_append]
    rfl
  rw [htake, Line.held, Line.held, ← List.append_assoc]

theorem held_nothing {x : Line} (hzero : x.serialDefaultPort = 0) (id : ℕ) (com : BitVec 16)
    (message : List Byte) : x.held (transmit id com (message.take 0)) = x := by
  ext1
  · exact hzero.symm
  · exact List.append_nil _
  · rfl
  · rfl

/-- Giving the port back after the whole message. -/
theorem held_release {x : Line} {com : BitVec 16} (hport : x.serialDefaultPort = com) (id : ℕ)
    (message : List Byte) :
    { x.held (transmit id com (message.take message.length)) with serialDefaultPort := com } =
      x.delivered (transmit id com message) := by
  rw [List.take_length]
  ext1
  · exact hport.symm
  · rfl
  · rfl
  · rfl

/-- What one statement does, up to the return. -/
theorem Running.step {s₀ s s' : Line} {f f' : Frame} {device : BitVec 16 → Byte}
    (h : Running s₀ s f) (hstep : serialWriteStep s f device = some (s', some f')) :
    Running s₀ s' f' := by
  obtain ⟨message, progress, hlen, hledger, hlocals⟩ := h
  cases hlocals with
  | read =>
      cases hstep
      cases hledger with
      | waiting h =>
          have hport : s.serialDefaultPort = s₀.serialDefaultPort := h.port
          rw [hport]
          exact ⟨message, .waiting, hlen, .waiting h, .clear⟩
  | clear =>
      cases hstep
      cases hledger with
      | waiting h =>
          refine ⟨message, .holding 0, hlen, ?_, .check⟩
          have hheld := Ledger.holding 0 h
          simpa [Line.held, transmit] using hheld
  | check =>
      cases hledger with
      | @holding x _ _ h =>
      have hport : x.serialDefaultPort = s₀.serialDefaultPort := h.port
      by_cases hzero : s₀.serialDefaultPort = 0
      · have hstate := held_nothing (hport.trans hzero) s₀.next s₀.serialDefaultPort message
        simp only [serialWriteStep, hstate, if_pos hzero] at hstep
        cases hstep
        exact ⟨message, .done 0, hlen, .silent hzero h, .returning⟩
      · simp only [serialWriteStep, if_neg hzero] at hstep
        cases hstep
        exact ⟨message, .holding 0, hlen, .holding 0 h, .test hzero (Nat.zero_le _)⟩
  | @test k status hport hk =>
      by_cases hmore : k < message.length
      · have hsize : BitVec.ofNat 32 (message.length - k) ≠ 0 :=
          (ofNat_ne_zero (by omega)).mpr (by omega)
        have hrest : BitVec.ofNat 32 (message.length - k) - 1 =
            BitVec.ofNat 32 (message.length - (k + 1)) := by
          have hsplit : message.length - k = message.length - (k + 1) + 1 := by omega
          rw [hsplit, BitVec.ofNat_add]
          exact BitVec.add_sub_cancel _ _
        simp only [serialWriteStep, if_pos hsize, hrest] at hstep
        cases hstep
        exact ⟨message, .holding k, hlen, hledger, .body hport hmore (.inl rfl)⟩
      · obtain rfl : k = message.length := by omega
        have hsize : ¬ BitVec.ofNat 32 (message.length - message.length) ≠ 0 := by simp
        simp only [serialWriteStep, if_neg hsize] at hstep
        cases hstep
        exact ⟨message, .holding message.length, hlen, hledger, .restore hport⟩
  | @body k status point hport hk hpoint =>
      obtain rfl | rfl | rfl := hpoint
      · cases hstep
        exact ⟨message, .holding k, hlen, hledger, .body hport hk (.inr (.inl rfl))⟩
      · simp only [serialWriteStep] at hstep
        split_ifs at hstep
        · cases hstep
          exact ⟨message, .holding k, hlen, hledger, .body hport hk (.inl rfl)⟩
        · cases hstep
          exact ⟨message, .holding k, hlen, hledger, .body hport hk (.inr (.inr rfl))⟩
      · cases hledger with
        | @holding x _ _ h =>
        have hbuffer := List.drop_eq_getElem_cons hk
        simp only [serialWriteStep, hbuffer] at hstep
        rw [held_send hk, ← hbuffer] at hstep
        cases hstep
        exact ⟨message, .holding (k + 1), hlen, .holding (k + 1) h, .advance hport hk⟩
  | @advance k status hport hk =>
      have hbytes : BitVec.ofNat 32 k + 1 = BitVec.ofNat 32 (k + 1) := (BitVec.ofNat_add k 1).symm
      simp only [serialWriteStep, List.tail_drop, hbytes] at hstep
      cases hstep
      exact ⟨message, .holding (k + 1), hlen, hledger, .test hport hk⟩
  | restore hport =>
      cases hledger with
      | @holding x _ _ h =>
      have hx : x.serialDefaultPort = s₀.serialDefaultPort := h.port
      cases hstep
      rw [held_release hx]
      exact ⟨message, .done _, hlen, .sent hport h (Batch.refl _), .returning⟩
  | returning => cases hstep

theorem Running.return {s₀ s s' : Line} {f : Frame} {device : BitVec 16 → Byte}
    (h : Running s₀ s f) (hstep : serialWriteStep s f device = some (s', none)) :
    Restores s₀ s' := by
  obtain ⟨message, progress, hlen, hledger, hlocals⟩ := h
  cases hlocals with
  | returning =>
      cases hstep
      cases hledger with
      | silent hport h =>
          exact ⟨[], h.return_silent hport, fun hne => absurd hport hne⟩
      | @sent x _ order order' hport h h' =>
          exact ⟨order ++ s₀.next :: order', h.return_sent hport h', fun _ _ => by simp⟩
  | body hport hk hpoint =>
      have hbuffer := List.drop_eq_getElem_cons hk
      obtain rfl | rfl | rfl := hpoint
      · cases hstep
      · simp only [serialWriteStep] at hstep
        split_ifs at hstep <;> cases hstep
      · simp only [serialWriteStep, hbuffer] at hstep
        cases hstep
  | check =>
      simp only [serialWriteStep] at hstep
      split_ifs at hstep <;> cases hstep
  | test hport hk =>
      simp only [serialWriteStep] at hstep
      split_ifs at hstep <;> cases hstep
  | _ => cases hstep

theorem serialCalls_invariant : serialCalls.Invariant (fun _ _ => True) Running Restores where
  enter _ _ _ _ _ henter := call_running henter
  advance _ _ _ _ _ _ h hstep := h.step hstep
  leave _ _ _ _ _ h hstep := h.return hstep
  resume _ _ _ _ h hs := by
    obtain ⟨message, progress, hlen, hledger, hlocals⟩ := h
    exact ⟨message, progress, hlen, hledger.resume hs, hlocals⟩
  trans _ _ _ h h' := h.trans h'

theorem step_buffers {s s' : Line} {f : Frame} {device : BitVec 16 → Byte} {next : Option Frame}
    (h : serialWriteStep s f device = some (s', next)) :
    s'.next = s.next ∧ ∀ id, (s'.calls id).buffer = (s.calls id).buffer := by
  cases hpoint : f.point with
  | returning value =>
      simp only [serialWriteStep, hpoint] at h
      cases h
      exact ⟨rfl, fun id => return_buffer s f.call id value⟩
  | send =>
      simp only [serialWriteStep, hpoint] at h
      split at h
      · cases h
      · cases h
        exact ⟨rfl, fun _ => rfl⟩
  | check =>
      simp only [serialWriteStep, hpoint] at h
      split_ifs at h <;> cases h <;> exact ⟨rfl, fun _ => rfl⟩
  | test =>
      simp only [serialWriteStep, hpoint] at h
      split_ifs at h <;> cases h <;> exact ⟨rfl, fun _ => rfl⟩
  | again =>
      simp only [serialWriteStep, hpoint] at h
      split_ifs at h <;> cases h <;> exact ⟨rfl, fun _ => rfl⟩
  | _ =>
      simp only [serialWriteStep, hpoint] at h
      cases h
      exact ⟨rfl, fun _ => rfl⟩

/-- Recorded buffers stay on record. -/
theorem run_buffers {c c' : Config Line Frame} {events : List (Event (List Byte) _)}
    (h : serialCalls.run c events = some c') :
    c.1.next ≤ c'.1.next ∧ ∀ id < c.1.next, (c'.1.calls id).buffer = (c.1.calls id).buffer := by
  induction events generalizing c with
  | nil =>
      cases h
      exact ⟨Nat.le_refl _, fun _ _ => rfl⟩
  | cons event events ih =>
      obtain ⟨c₁, hfire, hrest⟩ := Option.bind_eq_some_iff.mp h
      have hstep : c.1.next ≤ c₁.1.next ∧
          ∀ id < c.1.next, (c₁.1.calls id).buffer = (c.1.calls id).buffer := by
        obtain ⟨s, frames⟩ := c
        cases event with
        | enter buffer =>
            obtain ⟨⟨s', f⟩, henter, rfl⟩ := Option.map_eq_some_iff.mp hfire
            obtain ⟨-, heq⟩ := Option.ite_none_right_eq_some.mp henter
            cases heq
            exact ⟨Nat.le_succ _, fun id hid => by rw [enter_calls s buffer (Nat.ne_of_lt hid)]⟩
        | advance input =>
            cases frames with
            | nil => cases hfire
            | cons f frames =>
                obtain ⟨⟨s', next⟩, hadvance, rfl⟩ := Option.map_eq_some_iff.mp hfire
                obtain ⟨hnext, hbuffers⟩ := step_buffers hadvance
                exact ⟨Nat.le_of_eq hnext.symm, fun id _ => hbuffers id⟩
      obtain ⟨hle, hbuffers⟩ := ih hrest
      refine ⟨Nat.le_trans hstep.1 hle, fun id hid => ?_⟩
      rw [hbuffers id (Nat.lt_of_lt_of_le hid hstep.1), hstep.2 id hid]

/-- The bytes of a trace that went to a data port, oldest first. -/
def dataBytes (trace : List PortEvent) : List (BitVec 16 × Byte) :=
  trace.reverse.filterMap fun
    | .inb _ _ => none
    | .outb port byte => some (port, byte)

theorem dataBytes_inb (port : BitVec 16) (value : Byte) (trace : List PortEvent) :
    dataBytes (.inb port value :: trace) = dataBytes trace := by
  simp [dataBytes]

theorem dataBytes_outb (port : BitVec 16) (byte : Byte) (trace : List PortEvent) :
    dataBytes (.outb port byte :: trace) = dataBytes trace ++ [(port, byte)] := by
  simp [dataBytes]

def Line.dataBytes (l : Line) : List (BitVec 16 × Byte) := l.sent.map fun b => (b.port, b.byte)

section Uninterrupted
variable {l : Line} {f : Frame} {frames : List Frame}

/-- The statements of the `do` loop are `pollLoop`. -/
theorem poll_run {answers answers' : List Byte} {trace trace' : List PortEvent}
    (hpoint : f.point = .poll) (h : pollLoop f.com answers trace = some (answers', trace')) :
    ∃ events status, serialCalls.run (l, f :: frames) events =
        some (l, { f with status := status, point := .send } :: frames) ∧
      SerialReentry.dataBytes trace' = SerialReentry.dataBytes trace := by
  induction answers generalizing f trace with
  | nil => cases h
  | cons status answers ih =>
      have hpoll : serialCalls.run (l, f :: frames)
          [.advance fun _ => status, .advance fun _ => status] =
          some (l, { f with status := status, point := if status = 0x20 then .poll else .send } ::
            frames) := by
        have hread : serialCalls.advance l f (fun _ => status) =
            some (l, some { f with status := status, point := .again }) := by
          simp only [serialCalls, serialWriteStep, hpoint]
        have hagain : serialCalls.advance l { f with status := status, point := .again }
            (fun _ => status) = some (l, some
              { f with status := status, point := if status = 0x20 then .poll else .send }) := by
          simp only [serialCalls, serialWriteStep]
          split_ifs <;> rfl
        rw [serialCalls.run_advance frames hread, serialCalls.run_advance frames hagain]
        rfl
      rw [pollLoop] at h
      split_ifs at h with hstatus
      · obtain ⟨events, status', hrun, htrace⟩ :=
          @ih { f with status := status, point := .poll } _ rfl h
        rw [if_pos hstatus] at hpoll
        refine ⟨_, status', serialCalls.run_trans hpoll hrun, ?_⟩
        rw [htrace, dataBytes_inb]
      · cases h
        rw [if_neg hstatus] at hpoll
        exact ⟨_, status, hpoll, dataBytes_inb _ _ _⟩

/-- The statements of the `for` loop are `sendLoop`. -/
theorem send_run {buffer : List Byte} {s s' : Serial} (hlen : buffer.length < 2 ^ 32)
    (hpoint : f.point = .test) (hbuffer : f.buffer = buffer)
    (hsize : f.size = BitVec.ofNat 32 buffer.length)
    (hdata : l.dataBytes = SerialReentry.dataBytes s.trace)
    (h : sendLoop f.com buffer s = some s') :
    ∃ events sent f', serialCalls.run (l, f :: frames) events =
        some ({ l with sent := sent }, f' :: frames) ∧
      ({ l with sent := sent } : Line).dataBytes = SerialReentry.dataBytes s'.trace ∧
      f'.point = .restore ∧ f'.com = f.com ∧ f'.call = f.call ∧
      f'.bytes = f.bytes + BitVec.ofNat 32 buffer.length := by
  induction buffer generalizing l f s with
  | nil =>
      cases h
      have hzero : ¬ f.size ≠ 0 := fun hne => hne hsize
      have hexit : serialCalls.advance l f (fun _ => 0) =
          some (l, some { f with size := f.size - 1, point := .restore }) := by
        simp only [serialCalls, serialWriteStep, hpoint, if_neg hzero]
      refine ⟨[.advance fun _ => 0], l.sent, { f with size := f.size - 1, point := .restore }, ?_,
        hdata, rfl, rfl, rfl, ?_⟩
      · rw [serialCalls.run_advance frames hexit]
        rfl
      · exact (BitVec.add_zero _).symm
  | cons byte buffer ih =>
      rw [List.length_cons] at hlen hsize
      obtain ⟨⟨answers, trace⟩, hpoll, hrest⟩ := Option.bind_eq_some_iff.mp h
      have hmore : f.size ≠ 0 := hsize ▸ (ofNat_ne_zero hlen).mpr (Nat.succ_pos _)
      have htest : serialCalls.advance l f (fun _ => 0) =
          some (l, some { f with size := f.size - 1, point := .poll }) := by
        simp only [serialCalls, serialWriteStep, hpoint, if_pos hmore]
      obtain ⟨events, status, hrun, htrace⟩ := @poll_run l
        { f with size := f.size - 1, point := .poll } frames _ _ _ _ rfl hpoll
      let l' : Line := { l with
        sent := l.sent ++ [{ call := f.call, port := x86SerialDataPort f.com, byte }] }
      have hsend : serialCalls.advance l
          { f with size := f.size - 1, status := status, point := .send } (fun _ => 0) =
          some (l', some { f with size := f.size - 1, status := status, point := .advance }) := by
        simp only [serialCalls, serialWriteStep, hbuffer, l']
      have hadvance : serialCalls.advance l'
          { f with size := f.size - 1, status := status, point := .advance } (fun _ => 0) =
          some (l', some { f with
            size := f.size - 1, status := status, buffer := buffer, bytes := f.bytes + 1
            point := .test }) := by
        simp only [serialCalls, serialWriteStep, hbuffer, List.tail_cons]
      have hleft : f.size - 1 = BitVec.ofNat 32 buffer.length := by
        rw [hsize, BitVec.ofNat_add]
        exact BitVec.add_sub_cancel _ _
      have hdata' : l'.dataBytes =
          SerialReentry.dataBytes (.outb (x86SerialDataPort f.com) byte :: trace) := by
        rw [dataBytes_outb, htrace, ← hdata, Line.dataBytes, Line.dataBytes, List.map_append]
        rfl
      obtain ⟨more, sent, f', hrun', hsent, hpoint', hcom, hcall, hbytes⟩ :=
        @ih l' { f with
          size := f.size - 1, status := status, buffer := buffer, bytes := f.bytes + 1
          point := .test } _ (Nat.lt_of_succ_lt hlen) rfl rfl hleft hdata' hrest
      refine ⟨.advance (fun _ => 0) :: (events ++
        .advance (fun _ => 0) :: .advance (fun _ => 0) :: more), sent, f', ?_, hsent, hpoint',
        hcom, hcall, ?_⟩
      · rw [serialCalls.run_advance frames htest]
        apply serialCalls.run_trans hrun
        rw [serialCalls.run_advance frames hsend, serialCalls.run_advance frames hadvance]
        exact hrun'
      · rw [hbytes, List.length_cons, Nat.add_comm buffer.length 1, BitVec.ofNat_add,
          ← BitVec.add_assoc]
        rfl

/-- The first statements of a call take the port. -/
theorem call_run {buffer : List Byte} (hlen : buffer.length < 2 ^ 32)
    (events : List (Event (List Byte) (BitVec 16 → Byte))) :
    serialCalls.run (l, frames) (.enter buffer ::
      .advance (fun _ => 0) :: .advance (fun _ => 0) :: events) =
    serialCalls.run ({ l.enter buffer with serialDefaultPort := 0 },
      { call := l.next, buffer, size := BitVec.ofNat 32 buffer.length, com := l.serialDefaultPort
        bytes := 0, status := 0, point := .check } :: frames) events := by
  let f : Frame :=
    { call := l.next, buffer, size := BitVec.ofNat 32 buffer.length, com := 0, bytes := 0
      status := 0, point := .read }
  have henter : serialCalls.fire (l, frames) (.enter buffer) =
      some (l.enter buffer, f :: frames) := by
    change (call l buffer).map _ = _
    rw [call, if_pos hlen]
    rfl
  have hread : serialCalls.advance (l.enter buffer) f (fun _ => 0) = some (l.enter buffer,
      some { f with com := l.serialDefaultPort, point := .clear }) := rfl
  rw [Activations.run, henter, Option.bind_some, serialCalls.run_advance frames hread]
  rfl

/-- A call that nothing interrupts does what `serialWrite` does. -/
theorem serialWrite_run {buffer : List Byte} {s s' : Serial} {n : ℤ}
    (hlen : buffer.length < 2 ^ 31) (hport : l.serialDefaultPort = s.serialDefaultPort)
    (hdata : l.dataBytes = SerialReentry.dataBytes s.trace)
    (h : serialWrite buffer s = some (n, s')) :
    ∃ events l' value, serialCalls.run (l, frames) (.enter buffer :: events) = some (l', frames) ∧
      l'.serialDefaultPort = s'.serialDefaultPort ∧
      l'.dataBytes = SerialReentry.dataBytes s'.trace ∧
      (l'.calls l.next).result = some value ∧ value.toInt = n := by
  have hsmall : buffer.length < 2 ^ 32 := Nat.lt_trans hlen (by decide)
  let taken : Line := { l.enter buffer with serialDefaultPort := 0 }
  let f : Frame :=
    { call := l.next, buffer, size := BitVec.ofNat 32 buffer.length, com := l.serialDefaultPort
      bytes := 0, status := 0, point := .check }
  rw [serialWrite, ← hport] at h
  by_cases hcom : l.serialDefaultPort = 0
  · simp only [hcom, if_true] at h
    cases h
    have hcheck : serialCalls.advance taken f (fun _ => 0) =
        some (taken, some { f with point := .returning 0 }) := by
      simp only [serialCalls, serialWriteStep, f, if_pos hcom]
    have hreturn : serialCalls.advance taken { f with point := .returning 0 } (fun _ => 0) =
        some (taken.return l.next 0, none) := rfl
    refine ⟨_, taken.return l.next 0, 0,
      (call_run hsmall [.advance fun _ => 0, .advance fun _ => 0]).trans ?_, rfl, hdata,
      return_result _ _ _, rfl⟩
    rw [serialCalls.run_advance frames hcheck, serialCalls.run_leave frames hreturn]
    rfl
  · simp only [hcom, if_false] at h
    obtain ⟨s₁, hloop, hend⟩ := Option.bind_eq_some_iff.mp h
    cases hend
    have hcheck : serialCalls.advance taken f (fun _ => 0) =
        some (taken, some { f with point := .test }) := by
      simp only [serialCalls, serialWriteStep, f, if_neg hcom]
    obtain ⟨events, sent, g, hrun, hsent, hpoint, hgcom, hgcall, hbytes⟩ :=
      @send_run taken { f with point := .test } frames buffer { s with serialDefaultPort := 0 } s₁
        hsmall rfl rfl rfl hdata hloop
    let done : Line := { taken with sent := sent, serialDefaultPort := g.com }
    have hrestore : serialCalls.advance { taken with sent := sent } g (fun _ => 0) =
        some (done, some { g with point := .returning g.bytes }) := by
      simp only [serialCalls, serialWriteStep, hpoint, done]
    have hreturn : serialCalls.advance done { g with point := .returning g.bytes } (fun _ => 0) =
        some (done.return l.next g.bytes, none) := by
      simp only [serialCalls, serialWriteStep, hgcall, f]
    refine ⟨_, done.return l.next g.bytes, g.bytes, (call_run hsmall (.advance (fun _ => 0) ::
      (events ++ [.advance fun _ => 0, .advance fun _ => 0]))).trans ?_, hgcom, hsent,
      return_result _ _ _, ?_⟩
    · rw [serialCalls.run_advance frames hcheck]
      apply serialCalls.run_trans hrun
      rw [serialCalls.run_advance frames hrestore, serialCalls.run_leave frames hreturn]
      rfl
    · have hval : g.bytes.toNat = buffer.length := by
        rw [hbytes, BitVec.toNat_add, BitVec.toNat_ofNat, Nat.mod_eq_of_lt hsmall]
        exact (congrArg (· % 2 ^ 32) (Nat.zero_add _)).trans (Nat.mod_eq_of_lt hsmall)
      rw [BitVec.toInt_eq_toNat_of_lt (by omega), hval]

end Uninterrupted

/-- An outermost call that finds a port, with calls nested in it at any statement:
when it has returned, the bytes sent are whole messages, its own among them, and
every call returned its size if its message was sent and else zero. -/
theorem serial_write_reentrant {s₀ s : Line} {message : List Byte}
    {events : List (Event (List Byte) (BitVec 16 → Byte))} (hport : s₀.serialDefaultPort ≠ 0)
    (hrun : serialCalls.run (s₀, []) (.enter message :: events) = some (s, []))
    (hsizes : ∀ id, s₀.next ≤ id → id < s.next → (s.calls id).buffer.length < 2 ^ 31) :
    s.serialDefaultPort = s₀.serialDefaultPort ∧ (s.calls s₀.next).buffer = message ∧
    ∃ order : List ℕ, order.Nodup ∧ s₀.next ∈ order ∧
      (∀ id ∈ order, s₀.next ≤ id ∧ id < s.next) ∧
      s.sent = s₀.sent ++ messages s.calls s₀.serialDefaultPort order ∧
      ∀ id, s₀.next ≤ id → id < s.next → ∃ value, (s.calls id).result = some value ∧
        value.toInt = if id ∈ order then ((s.calls id).buffer.length : ℤ) else 0 := by
  have hstacked := serialCalls_invariant.run (Activations.meets_true _ _)
    (.idle (Restores.refl s₀)) hrun
  obtain ⟨c₁, hfire, hrest⟩ := Option.bind_eq_some_iff.mp hrun
  obtain ⟨⟨s₁, f⟩, henter, rfl⟩ := Option.map_eq_some_iff.mp hfire
  obtain ⟨-, heq⟩ := Option.ite_none_right_eq_some.mp henter
  cases heq
  obtain ⟨hnext, hbuffers⟩ := run_buffers hrest
  have hown : s₀.next < s.next := hnext
  have hbuffer : (s.calls s₀.next).buffer = message := by
    rw [hbuffers s₀.next (Nat.lt_succ_self _)]
    simp [Line.enter]
  have hrestores : Restores s₀ s := by
    cases hstacked with
    | idle h => exact h
  obtain ⟨order, hbatch, hfirst⟩ := hrestores
  refine ⟨hbatch.port, hbuffer, order, hbatch.nodup, hfirst hport (Nat.ne_of_gt hown),
    hbatch.fresh, hbatch.sent, fun id hle hlt => ⟨_, hbatch.result id hle hlt, ?_⟩⟩
  have hsize := hsizes id hle hlt
  split_ifs
  · have hval : (BitVec.ofNat 32 (s.calls id).buffer.length).toNat =
        (s.calls id).buffer.length := by
      rw [BitVec.toNat_ofNat]
      exact Nat.mod_eq_of_lt (Nat.lt_trans hsize (by decide))
    rw [BitVec.toInt_eq_toNat_of_lt (by omega), hval]
  · rfl

/-- Three calls on COM1: the outermost is interrupted before it takes the port, by
one that sends its byte, and while it polls, by one that finds no port. -/
theorem serial_write_reentrant_three :
    let s₀ : Line :=
      { serialDefaultPort := 0x3F8, sent := [], next := 0, calls := fun _ => ⟨[], none⟩ }
    let run (n : ℕ) : List (Event (List Byte) (BitVec 16 → Byte)) :=
      List.replicate n (.advance fun _ => 0x60)
    ∃ s, serialCalls.run (s₀, []) (.enter [0x41] :: (run 1 ++ .enter [0x42] :: run 11 ++ run 4 ++
        .enter [0x43] :: run 4 ++ run 6)) = some (s, []) ∧
      s.serialDefaultPort = 0x3F8 ∧ ∃ order : List ℕ, order.Nodup ∧ 0 ∈ order ∧
        s.sent = messages s.calls 0x3F8 order := by
  intro s₀ run
  let events := .enter [0x41] :: (run 1 ++ .enter [0x42] :: run 11 ++ run 4 ++
    .enter [0x43] :: run 4 ++ run 6)
  have hend : (serialCalls.run (s₀, []) events).map (fun c => (c.2.length, c.1.next,
      (List.range 3).map fun id => (c.1.calls id).buffer)) =
      some (0, 3, [[0x41], [0x42], [0x43]]) := by decide
  obtain ⟨⟨s, frames⟩, hrun, hshape⟩ := Option.map_eq_some_iff.mp hend
  injection hshape with hframes hshape
  injection hshape with hnext hbuffers
  obtain rfl := List.length_eq_zero_iff.mp hframes
  have hsizes : ∀ id, s₀.next ≤ id → id < s.next → (s.calls id).buffer.length < 2 ^ 31 := by
    intro id _ hid
    have hmem : (s.calls id).buffer ∈ [[0x41], [0x42], [0x43]] :=
      hbuffers ▸ List.mem_map_of_mem (List.mem_range.mpr (hnext ▸ hid))
    have hall : ∀ buffer ∈ ([[0x41], [0x42], [0x43]] : List (List Byte)),
      buffer.length < 2 ^ 31 := by decide
    exact hall _ hmem
  obtain ⟨hport, -, order, hnodup, hown, -, hsent, -⟩ :=
    serial_write_reentrant (by decide) hrun hsizes
  exact ⟨s, hrun, hport, order, hnodup, hown, hsent⟩

end Yack.SerialReentry
