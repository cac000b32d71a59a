import Yack.SerialPort

/-!
# The polling loop of `serial_write`

The transmitter can take a byte while bit 5 of the line status register is set.
`do ... while (status == 0x20)` waits as long as exactly this bit is set, and
goes on at any other answer. A call that still polls where the answers of the
device end is judged by what it does with good ones behind them.
-/
namespace Yack.SerialPolling
open SerialPort

/-- The transmit-holding-register-empty bit, `0x20`. -/
def transmitterEmpty (status : Byte) : Bool := status.getLsbD 5

/-- The accesses of a call to the ports of `com`, oldest first. -/
def portTrace (com : BitVec 16) : List Byte → List Byte → List PortEvent
  | _, [] => []
  | [], _ => []
  | byte :: buffer, status :: answers =>
      .inb (x86SerialLineStatusPort com) status ::
        if status = 0x20 then portTrace com (byte :: buffer) answers
        else .outb (x86SerialDataPort com) byte :: portTrace com buffer answers

/-- Every byte is sent right after a read that found the transmitter empty, and
every such read is followed by a byte. -/
structure Paced (com : BitVec 16) (trace : List PortEvent) : Prop where
  ready : ∀ before byte after, trace = before ++ .outb (x86SerialDataPort com) byte :: after →
    ∃ earlier status, before = earlier ++ [.inb (x86SerialLineStatusPort com) status] ∧
      transmitterEmpty status = true
  ends : ∀ before status after,
    trace = before ++ .inb (x86SerialLineStatusPort com) status :: after →
    transmitterEmpty status = true →
    ∃ byte rest, after = .outb (x86SerialDataPort com) byte :: rest

/-- The bytes taken by a transmitter that listens only while it is empty. -/
def accepted (empty : Bool) : List PortEvent → List Byte
  | [] => []
  | .inb _ status :: trace => accepted (transmitterEmpty status) trace
  | .outb _ byte :: trace => if empty then byte :: accepted false trace else accepted false trace

/-- The bit is set, and not alone. -/
def GoodStatus (status : Byte) : Prop := transmitterEmpty status = true ∧ status ≠ 0x20

instance (status : Byte) : Decidable (GoodStatus status) := inferInstanceAs (Decidable (_ ∧ _))

/-- The device answers on with `more`. -/
def answering (s : Serial) (more : List Byte) : Serial :=
  { s with answers := s.answers ++ more }

/-- Whatever good statuses come behind the answers of `s`: with one of them for each
byte the call returns, and a call that returns has sent its buffer, each byte into
an empty transmitter. -/
structure SendsWhenReady (buffer : List Byte) (s : Serial) : Prop where
  returns : ∀ more, (∀ status ∈ more, GoodStatus status) →
    buffer.length ≤ more.length →
    (serialWrite buffer (answering s more)).isSome
  sends : ∀ more, (∀ status ∈ more, GoodStatus status) → ∀ n s',
    serialWrite buffer (answering s more) = some (n, s') →
    ∃ trace, s'.trace = trace.reverse ++ s.trace ∧ Paced s.serialDefaultPort trace ∧
      accepted false trace = buffer

/-- The first statuses, one for each byte, are good. -/
def ReadyAtOnce (buffer answers : List Byte) : Prop :=
  ∀ status ∈ answers.take buffer.length, GoodStatus status

instance (buffer answers : List Byte) : Decidable (ReadyAtOnce buffer answers) :=
  List.decidableBAll _ _

section Trace
variable {com : BitVec 16} {buffer answers : List Byte} {byte : Byte} {s s' : Serial}

theorem portTrace_nil : portTrace com [] answers = [] := by
  cases answers <;> rfl

/-- One poll: the statuses read, and behind them the rest of the call. -/
theorem pollLoop_trace {answers' : List Byte} {trace trace' : List PortEvent}
    (h : pollLoop com answers trace = some (answers', trace')) :
    ∃ polled, trace' = polled.reverse ++ trace ∧ answers'.length < answers.length ∧
      portTrace com (byte :: buffer) answers =
        polled ++ .outb (x86SerialDataPort com) byte :: portTrace com buffer answers' := by
  induction answers generalizing trace with
  | nil => cases h
  | cons status answers ih =>
      rw [pollLoop] at h
      rw [portTrace]
      by_cases hbusy : status = 0x20
      · rw [if_pos hbusy] at h ⊢
        obtain ⟨polled, htrace, hlt, hrest⟩ := ih h
        refine ⟨.inb (x86SerialLineStatusPort com) status :: polled, ?_, ?_, ?_⟩
        · rw [htrace, List.reverse_cons, List.append_assoc]
          rfl
        · exact Nat.lt_succ_of_lt hlt
        · rw [hrest, List.cons_append]
      · rw [if_neg hbusy] at h ⊢
        obtain ⟨rfl, rfl⟩ := Prod.mk.inj (Option.some.inj h)
        exact ⟨[.inb (x86SerialLineStatusPort com) status], rfl, Nat.lt_succ_self _, rfl⟩

theorem sendLoop_trace (h : sendLoop com buffer s = some s') :
    s'.trace = (portTrace com buffer s.answers).reverse ++ s.trace ∧
      buffer.length ≤ s.answers.length := by
  induction buffer generalizing s with
  | nil =>
      obtain rfl := Option.some.inj h
      exact ⟨by rw [portTrace_nil]; rfl, Nat.zero_le _⟩
  | cons byte buffer ih =>
      rw [sendLoop] at h
      obtain ⟨⟨answers', trace'⟩, hpoll, hrest⟩ := Option.bind_eq_some_iff.mp h
      obtain ⟨polled, htrace, hlt, hsplit⟩ := @pollLoop_trace com buffer s.answers byte _ _ _ hpoll
      obtain ⟨htail, hle⟩ := ih hrest
      simp only at htail hle
      refine ⟨?_, by rw [List.length_cons]; omega⟩
      rw [htail, hsplit, htrace, List.reverse_append, List.reverse_cons, List.append_assoc,
        List.append_assoc]
      rfl

/-- A call that returns has done what `portTrace` says. -/
theorem serialWrite_trace {n : ℤ} (hcom : s.serialDefaultPort ≠ 0)
    (h : serialWrite buffer s = some (n, s')) :
    s'.trace = (portTrace s.serialDefaultPort buffer s.answers).reverse ++ s.trace ∧
      buffer.length ≤ s.answers.length := by
  simp only [serialWrite, hcom, if_false] at h
  obtain ⟨s₁, hsend, hret⟩ := Option.bind_eq_some_iff.mp h
  obtain ⟨-, rfl⟩ := Prod.mk.inj (Option.some.inj hret)
  obtain ⟨htrace, hlen⟩ := sendLoop_trace hsend
  exact ⟨htrace, hlen⟩

end Trace

section Pacing
variable {com : BitVec 16} {buffer answers : List Byte} {byte status : Byte}

theorem portTrace_ready (h : status ≠ 0x20) : portTrace com (byte :: buffer) (status :: answers) =
    .inb (x86SerialLineStatusPort com) status :: .outb (x86SerialDataPort com) byte ::
      portTrace com buffer answers := by
  rw [portTrace, if_neg h]

theorem portTrace_busy : portTrace com (byte :: buffer) (0x20 :: answers) =
    .inb (x86SerialLineStatusPort com) 0x20 :: portTrace com (byte :: buffer) answers := by
  rw [portTrace, if_pos rfl]

/-- A call never starts with a write. -/
theorem portTrace_head {port : BitVec 16} {rest : List PortEvent} :
    portTrace com buffer answers ≠ .outb port byte :: rest := by
  cases buffer with
  | nil => simp [portTrace_nil]
  | cons first buffer =>
      cases answers with
      | nil => simp [portTrace]
      | cons status answers => simp [portTrace]

theorem paced_nil : Paced com [] := by
  constructor
  · intro before byte after h
    simp at h
  · intro before status after h
    simp at h

theorem paced_cons {trace : List PortEvent} (h : Paced com trace)
    (hstatus : transmitterEmpty status = true) :
    Paced com (.inb (x86SerialLineStatusPort com) status ::
      .outb (x86SerialDataPort com) byte :: trace) := by
  constructor
  · intro before b after heq
    match before with
    | [] => simp at heq
    | [e] =>
        simp only [List.cons_append, List.nil_append, List.cons.injEq] at heq
        exact ⟨[], status, by rw [← heq.1, List.nil_append], hstatus⟩
    | e :: e' :: before =>
        simp only [List.cons_append, List.cons.injEq] at heq
        obtain ⟨earlier, st, rfl, hst⟩ := h.ready before b after heq.2.2
        exact ⟨e :: e' :: earlier, st, rfl, hst⟩
  · intro before st after heq hst
    match before with
    | [] =>
        simp only [List.nil_append, List.cons.injEq] at heq
        exact ⟨byte, trace, heq.2.symm⟩
    | [e] => simp at heq
    | e :: e' :: before =>
        simp only [List.cons_append, List.cons.injEq] at heq
        exact h.ends before st after heq.2.2 hst

theorem Paced.tail {trace : List PortEvent} (h : Paced com (.inb (x86SerialLineStatusPort com)
    status :: .outb (x86SerialDataPort com) byte :: trace))
    (hhead : ∀ port b rest, trace ≠ .outb port b :: rest) : Paced com trace := by
  constructor
  · intro before b after heq
    obtain ⟨earlier, st, hbefore, hst⟩ := h.ready (_ :: _ :: before) b after (by rw [heq]; rfl)
    obtain rfl | ⟨front, last, rfl⟩ := List.eq_nil_or_concat before
    · exact absurd heq (hhead _ _ _)
    · refine ⟨front, st, ?_, hst⟩
      rw [List.concat_eq_append, ← List.cons_append, ← List.cons_append] at hbefore
      rw [List.concat_eq_append, (List.append_inj' hbefore rfl).2]
  · intro before st after heq hst
    exact h.ends (_ :: _ :: before) st after (by rw [heq]; rfl) hst

/-- Over any device, the calls are paced exactly when the statuses are good. -/
theorem paced_iff (buffer answers : List Byte) :
    Paced com (portTrace com buffer answers) ↔ ReadyAtOnce buffer answers := by
  induction answers generalizing buffer with
  | nil => exact iff_of_true (by simpa [portTrace] using paced_nil) (by simp [ReadyAtOnce])
  | cons status answers ih =>
      cases buffer with
      | nil => exact iff_of_true (by simpa [portTrace] using paced_nil) (by simp [ReadyAtOnce])
      | cons byte buffer =>
          have hsplit : ReadyAtOnce (byte :: buffer) (status :: answers) ↔
              GoodStatus status ∧ ReadyAtOnce buffer answers := by
            simp [ReadyAtOnce]
          rw [hsplit, ← ih buffer]
          constructor
          · intro h
            by_cases hbusy : status = 0x20
            · -- the read found the bit set, and another read follows
              subst status
              rw [portTrace_busy] at h
              obtain ⟨b, rest, heq⟩ := h.ends [] 0x20 _ rfl (by decide)
              exact absurd heq portTrace_head
            · rw [portTrace_ready hbusy] at h
              obtain ⟨earlier, st, heq, hst⟩ := h.ready [_] byte _ rfl
              have hlast := (@List.append_inj' _ [] _ _ _ heq rfl).2
              simp only [List.cons.injEq, PortEvent.inb.injEq, true_and, and_true] at hlast
              subst st
              exact ⟨⟨hst, hbusy⟩, h.tail fun _ _ _ => portTrace_head⟩
          · intro h
            rw [portTrace_ready h.1.2]
            exact paced_cons h.2 h.1.1

/-- With good statuses every byte is taken, as far as there are statuses. -/
theorem accepted_portTrace (h : ReadyAtOnce buffer answers)
    (hlen : buffer.length ≤ answers.length) :
    accepted false (portTrace com buffer answers) = buffer := by
  induction buffer generalizing answers with
  | nil => rw [portTrace_nil, accepted]
  | cons byte buffer ih =>
      cases answers with
      | nil => simp at hlen
      | cons status answers =>
          obtain ⟨hstatus, hbusy⟩ := h status (by simp)
          have hrest : ReadyAtOnce buffer answers := fun st hst => h st (by simp [hst])
          rw [portTrace_ready hbusy, accepted, accepted, hstatus, if_pos rfl,
            ih hrest (by simpa using hlen)]

/-- With good statuses a poll ends at each of them. -/
theorem pollsEnded_good (h : ReadyAtOnce buffer answers) (hlen : buffer.length ≤ answers.length) :
    buffer.length ≤ pollsEnded answers := by
  induction buffer generalizing answers with
  | nil => exact Nat.zero_le _
  | cons byte buffer ih =>
      cases answers with
      | nil => simp at hlen
      | cons status answers =>
          have hbusy := (h status (by simp)).2
          have hrest : ReadyAtOnce buffer answers := fun st hst => h st (by simp [hst])
          rw [pollsEnded, if_neg hbusy, List.length_cons]
          exact Nat.succ_le_succ (ih hrest (by simpa using hlen))

theorem ReadyAtOnce.answering (h : ReadyAtOnce buffer answers) {more : List Byte}
    (hmore : ∀ status ∈ more, GoodStatus status) : ReadyAtOnce buffer (answers ++ more) := by
  intro status hmem
  rw [List.take_append, List.mem_append] at hmem
  exact hmem.elim (h status) fun htail => hmore status (List.mem_of_mem_take htail)

/-- The statuses have to be good: with enough of them behind, the call returns,
and its accesses are those of `portTrace`. -/
theorem SendsWhenReady.good {s : Serial} (hcom : s.serialDefaultPort ≠ 0)
    (h : SendsWhenReady buffer s) : ReadyAtOnce buffer s.answers := by
  have hmore : ∀ status ∈ List.replicate buffer.length (0x60 : Byte), GoodStatus status := by
    intro status hmem
    rw [(List.mem_replicate.mp hmem).2]
    decide
  have hreturns := h.returns _ hmore (by simp)
  obtain ⟨⟨n, s'⟩, hrun⟩ := Option.isSome_iff_exists.mp hreturns
  obtain ⟨trace, htrace, hpaced, -⟩ := h.sends _ hmore n s' hrun
  have hported := (serialWrite_trace (s := answering s _) hcom hrun).1
  have hsame : trace = portTrace s.serialDefaultPort buffer (answering s _).answers :=
    List.reverse_inj.mp (List.append_cancel_right (htrace.symm.trans hported))
  rw [hsame] at hpaced
  have hready := (paced_iff buffer _).mp hpaced
  intro status hmem
  refine hready status ?_
  rw [answering, List.take_append]
  exact List.mem_append_left _ hmem

end Pacing

/-- Whatever the device answers, the call sends as it should exactly when each
of the first statuses has the bit set together with another one. -/
theorem serial_write_sends_when_ready_iff (buffer : List Byte) (s : Serial)
    (hcom : s.serialDefaultPort ≠ 0) :
    SendsWhenReady buffer s ↔ ReadyAtOnce buffer s.answers := by
  refine ⟨fun h => h.good hcom, fun h =>
    ⟨fun more hmore hlen => ?_, fun more hmore n s' hrun => ?_⟩⟩
  · have hgood : buffer.length ≤ pollsEnded (s.answers ++ more) :=
      pollsEnded_good (h.answering hmore) (by rw [List.length_append]; omega)
    obtain ⟨n, s', hrun, -⟩ := @serialWrite_returns (answering s more) buffer 0 (.inr hgood)
    rw [hrun]
    rfl
  · have hready := h.answering hmore
    obtain ⟨htrace, hlen⟩ := serialWrite_trace (s := answering s more) hcom hrun
    exact ⟨_, htrace, (paced_iff buffer _).mpr hready, accepted_portTrace hready hlen⟩

/-- Two bytes to a transmitter that reports itself idle as well. -/
theorem serial_write_sends_when_ready_idle :
    SendsWhenReady [0x68, 0x69] ⟨0x3F8, [0x60, 0x60], []⟩ :=
  (serial_write_sends_when_ready_iff [0x68, 0x69] ⟨0x3F8, [0x60, 0x60], []⟩ (by decide)).mpr
    (by decide)

/-- A busy transmitter gets the byte, and takes nothing. -/
theorem serial_write_sends_into_busy :
    (∃ s, serialWrite [0x68] ⟨0x3F8, [0x00], []⟩ = some (1, s) ∧
      s.trace.reverse = [.inb 0x3FD 0x00, .outb 0x3F8 0x68] ∧
      accepted false s.trace.reverse = []) ∧
    ¬ SendsWhenReady [0x68] ⟨0x3F8, [0x00], []⟩ := by
  refine ⟨⟨_, rfl, rfl, rfl⟩, ?_⟩
  intro h
  exact absurd (h.good (by decide)) (by decide)

end Yack.SerialPolling
