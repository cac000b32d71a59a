import Yack.SerialPort

/-!
# The line configuration of a serial port

`x86_serial_config_baud_rate` and `x86_serial_config_line` of
`arch/i386/include/x86.h`. Both bytes of the divisor go to the data port, the
high one first. A 16550 has the low byte of its divisor latch there and the high
byte at the next port, so the second write replaces the first and the high byte
of the latch is never written.

The device is a bank of registers that follows the writes to its ports.
-/
namespace Yack.SerialLine
open ByteMemory SerialPort

/-- What a driver can write in a 16550, and the bytes given to its transmitter,
latest first. The registers that are only read do not matter for the writes. -/
structure Uart where
  dll : Byte
  dlm : Byte
  ier : Byte
  fcr : Byte
  lcr : Byte
  mcr : Byte
  scr : Byte
  transmitted : List Byte
  deriving DecidableEq, Repr

/-- Bit 7 of the line control register moves the first two ports to the latch. -/
def Uart.dlab (uart : Uart) : Bool := uart.lcr.getLsbD 7

def Uart.divisorLatch (uart : Uart) : BitVec 16 := uart.dlm ++ uart.dll

/-- A write to a port of the device, or to another one. -/
def Uart.write (base port : BitVec 16) (value : Byte) (uart : Uart) : Uart :=
  if port = base then
    if uart.dlab then { uart with dll := value }
    else { uart with transmitted := value :: uart.transmitted }
  else if port = base + 1 then
    if uart.dlab then { uart with dlm := value } else { uart with ier := value }
  else if port = base + 2 then { uart with fcr := value }
  else if port = base + 3 then { uart with lcr := value }
  else if port = base + 4 then { uart with mcr := value }
  else if port = base + 7 then { uart with scr := value }
  else uart

def Uart.access (base : BitVec 16) : PortEvent → Uart → Uart
  | .inb _ _, uart => uart
  | .outb port value, uart => uart.write base port value

/-- The device behind a trace, which lists the latest access first. -/
def Uart.after (base : BitVec 16) (uart : Uart) (trace : List PortEvent) : Uart :=
  trace.foldr (Uart.access base) uart

def outb (port : BitVec 16) (value : Byte) (s : Serial) : Serial :=
  { s with trace := .outb port value :: s.trace }

/-- A read takes the next answer of the hardware. -/
def inb (port : BitVec 16) (s : Serial) : Option (Byte × Serial) :=
  match s.answers with
  | [] => none
  | value :: answers => some (value, { s with answers, trace := .inb port value :: s.trace })

def x86SerialLineCmdPort (base : BitVec 16) : BitVec 16 := base + 3
def x86SerialLineEnableDlab : Byte := 0x80

def x86SerialConfigBaudRate (com divisor : BitVec 16) (s : Serial) : Serial :=
  let s := outb (x86SerialLineCmdPort com) x86SerialLineEnableDlab s
  let s := outb (x86SerialDataPort com) (((divisor >>> 8) &&& 0xFF).setWidth 8) s
  outb (x86SerialDataPort com) ((divisor &&& 0xFF).setWidth 8) s

/-- The pointer to the attributes is not used. -/
def x86SerialConfigLine (com : BitVec 16) (s : Serial) : Serial :=
  outb (x86SerialLineCmdPort com) 0x03 s

/-- The two calls of `serial_init_port`. -/
def configure (com divisor : BitVec 16) (s : Serial) : Serial :=
  x86SerialConfigLine com (x86SerialConfigBaudRate com divisor s)

/-- One answer ends at most one poll. -/
theorem inb_returns {s : Serial} {bytes : ℕ} (port : BitVec 16) (hanswers : s.answers ≠ [])
    (h : s.Responds (bytes + 1)) :
    ∃ status s', inb port s = some (status, s') ∧ s'.Responds bytes := by
  obtain ⟨status, answers, hcons⟩ := List.exists_cons_of_ne_nil hanswers
  refine ⟨status, { s with answers, trace := .inb port status :: s.trace }, by rw [inb, hcons], ?_⟩
  refine h.imp_right fun hle => ?_
  change bytes ≤ pollsEnded answers
  rw [hcons, pollsEnded] at hle
  split_ifs at hle <;> omega

theorem inb_eq_some {port : BitVec 16} {status : Byte} {s s' : Serial}
    (h : inb port s = some (status, s')) : s.answers = status :: s'.answers ∧
      s'.serialDefaultPort = s.serialDefaultPort ∧ s'.trace = .inb port status :: s.trace := by
  rw [inb] at h
  cases hanswers : s.answers with
  | nil =>
      rw [hanswers] at h
      cases h
  | cons value answers =>
      rw [hanswers] at h
      cases h
      exact ⟨rfl, rfl, rfl⟩

/-- The latch holds the divisor, and the data port leads to the transmitter. -/
structure LineConfigured (com divisor : BitVec 16) (uart : Uart) : Prop where
  latch : uart.divisorLatch = divisor
  line : uart.lcr = 0x03
  dlab : uart.dlab = false
  data : ∀ byte, uart.write com (x86SerialDataPort com) byte =
    { uart with transmitted := byte :: uart.transmitted }

section Configuration
variable {com divisor : BitVec 16} {uart : Uart} {s : Serial}

theorem write_line (com : BitVec 16) (value : Byte) (uart : Uart) :
    uart.write com (x86SerialLineCmdPort com) value = { uart with lcr := value } := by
  have hdata : com + 3 ≠ com := by bv_omega
  have hier : com + 3 ≠ com + 1 := by bv_omega
  have hfcr : com + 3 ≠ com + 2 := by bv_omega
  rw [x86SerialLineCmdPort, Uart.write, if_neg hdata, if_neg hier, if_neg hfcr, if_pos rfl]

theorem dlab_enabled (h : uart.lcr = x86SerialLineEnableDlab) : uart.dlab = true := by
  rw [Uart.dlab, h]
  decide

theorem dlab_cleared (h : uart.lcr = 0x03) : uart.dlab = false := by
  rw [Uart.dlab, h]
  decide

theorem write_latch (com : BitVec 16) (value : Byte)
    (h : uart.lcr = x86SerialLineEnableDlab) :
    uart.write com (x86SerialDataPort com) value = { uart with dll := value } := by
  rw [x86SerialDataPort, Uart.write, if_pos rfl, if_pos (dlab_enabled h)]

theorem write_data (com : BitVec 16) (value : Byte) (h : uart.lcr = 0x03) :
    uart.write com (x86SerialDataPort com) value =
      { uart with transmitted := value :: uart.transmitted } := by
  rw [x86SerialDataPort, Uart.write, if_pos rfl, if_neg (by simp [dlab_cleared h])]

/-- The calls change the low byte of the latch and the line control register. -/
theorem configure_after (com divisor : BitVec 16) (uart : Uart) (s : Serial) :
    uart.after com (configure com divisor s).trace =
      { uart.after com s.trace with dll := divisor.extractLsb' 0 8, lcr := 0x03 } := by
  have hlow : (divisor &&& 0xFF).setWidth 8 = divisor.extractLsb' 0 8 := by
    have hfield := masked_field divisor 0 8
    rwa [BitVec.ushiftRight_zero] at hfield
  have hwrites : uart.after com (configure com divisor s).trace =
      ((((uart.after com s.trace).write com (x86SerialLineCmdPort com)
        x86SerialLineEnableDlab).write com (x86SerialDataPort com)
          (((divisor >>> 8) &&& 0xFF).setWidth 8)).write com (x86SerialDataPort com)
            ((divisor &&& 0xFF).setWidth 8)).write com (x86SerialLineCmdPort com) 0x03 := rfl
  -- the second byte replaces the first
  rw [hwrites, write_line com x86SerialLineEnableDlab,
    write_latch com (((divisor >>> 8) &&& 0xFF).setWidth 8) rfl,
    write_latch com ((divisor &&& 0xFF).setWidth 8) rfl, write_line, hlow]

theorem latch_eq_iff (high : Byte) (divisor : BitVec 16) :
    high ++ divisor.extractLsb' 0 8 = divisor ↔ high = divisor.extractLsb' 8 8 := by
  constructor
  · intro h
    rw [← h, BitVec.extractLsb'_append_eq_left]
  · rintro rfl
    exact BitVec.extractLsb'_append_extractLsb'

end Configuration

/-- From every state of the device, the calls configure it exactly if the high
byte of its latch is the divisor's already. -/
theorem serial_line_configured_iff (com divisor : BitVec 16) (uart : Uart) (s : Serial) :
    LineConfigured com divisor (uart.after com (configure com divisor s).trace) ↔
      (uart.after com s.trace).dlm = divisor.extractLsb' 8 8 := by
  rw [configure_after]
  constructor
  · intro h
    exact (latch_eq_iff _ divisor).mp h.latch
  · intro h
    exact ⟨(latch_eq_iff _ divisor).mpr h, rfl, dlab_cleared rfl, fun byte => write_data com byte rfl⟩

/-- A latch that was left at `0x0100` is `0x010C` after a divisor of 12. -/
theorem serial_line_keeps_high_byte :
    Uart.divisorLatch (Uart.after 0x3F8 ⟨0, 1, 0, 0, 0, 0, 0, []⟩
      (configure 0x3F8 12 ⟨0, [], []⟩).trace) = 0x010C ∧
    ¬ LineConfigured 0x3F8 12 (Uart.after 0x3F8 ⟨0, 1, 0, 0, 0, 0, 0, []⟩
      (configure 0x3F8 12 ⟨0, [], []⟩).trace) := by
  refine ⟨by decide, fun h => ?_⟩
  exact absurd h.latch (by decide)

end Yack.SerialLine
