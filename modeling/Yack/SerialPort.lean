import Yack.ByteMemory
import Mathlib.Data.Int.Notation

/-!
# `serial_write` of `kernel/drivers/serial.c`

What the line status register will answer is part of the device, so the state
holds the answers to come, and every port access is recorded. The poll before
each byte goes on for as long as the answer is `0x20`; a call whose poll never
gets another answer does not return and is `none`.
-/
namespace Yack.SerialPort

inductive PortEvent where
  | inb (port : BitVec 16) (value : Byte)
  | outb (port : BitVec 16) (value : Byte)
  deriving DecidableEq, Repr

def x86SerialDataPort (base : BitVec 16) : BitVec 16 := base
def x86SerialLineStatusPort (base : BitVec 16) : BitVec 16 := base + 5

/-- The default port, the answers of the line status register, and the port
accesses so far, newest first. -/
structure Serial where
  serialDefaultPort : BitVec 16
  answers : List Byte
  trace : List PortEvent

/-- `do status = inb(...) while (status == 0x20)`. -/
def pollLoop (com : BitVec 16) :
    List Byte → List PortEvent → Option (List Byte × List PortEvent)
  | [], _ => none
  | status :: answers, trace =>
      if status = 0x20 then
        pollLoop com answers (.inb (x86SerialLineStatusPort com) status :: trace)
      else some (answers, .inb (x86SerialLineStatusPort com) status :: trace)

/-- The `for` loop over the buffer. -/
def sendLoop (com : BitVec 16) : List Byte → Serial → Option Serial
  | [], s => some s
  | byte :: buffer, s => do
      let (answers, trace) ← pollLoop com s.answers s.trace
      sendLoop com buffer { s with answers, trace := .outb (x86SerialDataPort com) byte :: trace }

def serialWrite (buffer : List Byte) (s : Serial) : Option (ℤ × Serial) := do
  let com := s.serialDefaultPort
  let s := { s with serialDefaultPort := 0 }
  if com = 0 then return (0, s)
  else
    let s ← sendLoop com buffer s
    return (buffer.length, { s with serialDefaultPort := com })

/-- How many polls the remaining answers end. Each answer but `0x20` ends one,
whether the transmitter is empty or not. -/
def pollsEnded : List Byte → ℕ
  | [] => 0
  | status :: answers => if status = 0x20 then pollsEnded answers else pollsEnded answers + 1

section Returns
variable {com : BitVec 16} {s : Serial}

theorem pollLoop_returns (answers : List Byte) (trace : List PortEvent)
    (h : 0 < pollsEnded answers) : ∃ answers' trace',
      pollLoop com answers trace = some (answers', trace') ∧
        pollsEnded answers' + 1 = pollsEnded answers := by
  induction answers generalizing trace with
  | nil => cases h
  | cons status answers ih =>
      rw [pollsEnded] at h ⊢
      rw [pollLoop]
      split_ifs at h ⊢
      · exact ih _ h
      · exact ⟨answers, _, rfl, rfl⟩

theorem sendLoop_returns (buffer : List Byte) (h : buffer.length ≤ pollsEnded s.answers) :
    ∃ s', sendLoop com buffer s = some s' ∧
      pollsEnded s'.answers + buffer.length = pollsEnded s.answers := by
  induction buffer generalizing s with
  | nil => exact ⟨s, rfl, rfl⟩
  | cons byte buffer ih =>
      rw [List.length_cons] at h
      obtain ⟨answers, trace, hpoll, hpolls⟩ := @pollLoop_returns com s.answers s.trace (by omega)
      obtain ⟨s', hrun, hpolls'⟩ := @ih { s with
        answers
        trace := .outb (x86SerialDataPort com) byte :: trace } (by simp only; omega)
      refine ⟨s', ?_, ?_⟩
      · rw [sendLoop, hpoll]
        exact hrun
      · rw [List.length_cons]
        simp only at hpolls'
        omega

theorem pollsEnded_replicate {b : Byte} (h : b ≠ 0x20) (n : ℕ) :
    pollsEnded (List.replicate n b) = n := by
  induction n with
  | zero => rfl
  | succ n ih => rw [List.replicate_succ, pollsEnded, if_neg h, ih]

/-- The polls before the next `bytes` bytes end, or there is no port to poll. -/
def Serial.Responds (s : Serial) (bytes : ℕ) : Prop :=
  s.serialDefaultPort = 0 ∨ bytes ≤ pollsEnded s.answers

theorem Serial.Responds.mono {n k : ℕ} (h : s.Responds n) (hle : k ≤ n) : s.Responds k :=
  h.imp_right (Nat.le_trans hle)

theorem serialWrite_returns (buffer : List Byte) {more : ℕ}
    (h : s.Responds (buffer.length + more)) :
    ∃ n s', serialWrite buffer s = some (n, s') ∧ s'.Responds more := by
  rw [serialWrite]
  by_cases hcom : s.serialDefaultPort = 0
  · exact ⟨0, _, by simp only [hcom, if_true]; rfl, .inl rfl⟩
  · have hpolls : buffer.length + more ≤ pollsEnded s.answers := h.resolve_left hcom
    obtain ⟨s', hrun, hpolls'⟩ := @sendLoop_returns s.serialDefaultPort
      { s with serialDefaultPort := 0 } buffer (by simp only; omega)
    refine ⟨_, _, by simp only [hcom, if_false, hrun]; rfl, .inr ?_⟩
    simp only at hpolls' ⊢
    omega

/-- A call that returns has put its port back. -/
theorem serialWrite_port {buffer : List Byte} {n : ℤ} {s' : Serial}
    (h : serialWrite buffer s = some (n, s')) : s'.serialDefaultPort = s.serialDefaultPort := by
  rw [serialWrite] at h
  split_ifs at h with hcom
  · cases h
    exact hcom.symm
  · obtain ⟨s₁, -, hret⟩ := Option.bind_eq_some_iff.mp h
    cases hret
    rfl

end Returns
end Yack.SerialPort
