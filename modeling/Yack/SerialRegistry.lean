import Yack.KernelLog
import Yack.SerialLine
import Mathlib.Data.List.Nodup

/-!
# The serial ports that are registered

`serial_init_port`, `serial_set_default_port` and `serial_write` of
`kernel/drivers/serial.c` share a table of four ports, in which zero marks a
free slot, and the default port. They report through `klog`, and so through
`serial_write` on the default port of the moment.

What the table is for is a list of distinct ports that only grows, with one of
them, or none, chosen as the default.
-/
namespace Yack.SerialRegistry
open ByteMemory SerialPort SerialLine TextFormatter FormatText VgaConsole KernelLog

abbrev serialPortsMax : ℕ := 4

/-- The table, and what the messages and the ports need. The default port is
part of the serial device of `out`. -/
structure Driver where
  serialPorts : Vector (BitVec 16) serialPortsMax
  out : Output

def Driver.defaultPort (s : Driver) : BitVec 16 := s.out.io.serial.serialDefaultPort

def Driver.withSerial (s : Driver) (serial : Serial) : Driver :=
  { s with out := { s.out with io := { s.out.io with serial } } }

/-- The first loop of `serial_init_port`, from slot `i` on; `none` is the return
for a port that is in the table. -/
def initLoop (com : BitVec 16) : List (BitVec 16) → ℕ → Option ℕ
  | [], i => some i
  | port :: ports, i =>
      if port ≠ 0 then if port = com then none else initLoop com ports (i + 1)
      else some i

def serialInitPort (com : BitVec 16) (s : Driver) : Option Driver :=
  match initLoop com s.serialPorts.toList 0 with
  | none => do
      let out ← klog "DEBUG" (cString "Port %p was already initialized\n")
        [.int (com.setWidth 32)] s.out
      return { s with out }
  | some i =>
      if i = serialPortsMax then do
        let out ← klog "KWARN" (cString "No available space to init another COM port.\n") [] s.out
        return { s with out }
      else do
        let serial := x86SerialConfigBaudRate com 12 s.out.io.serial
        let serial := x86SerialConfigLine com serial
        let (status, serial) ← inb (x86SerialLineStatusPort com) serial
        let s := s.withSerial serial
        if status = 0xFF then do
          let out ← klog "DEBUG" (cString "Port %p not available\n") [.int (com.setWidth 32)] s.out
          return { s with out }
        else return { s with serialPorts := s.serialPorts.setIfInBounds i com }

/-- The loop of `serial_set_default_port`. -/
def findLoop (com : BitVec 16) : List (BitVec 16) → ℕ → ℕ
  | [], i => i
  | port :: ports, i => if port = com then i else findLoop com ports (i + 1)

/-- A failed assertion does not return. The message for an unknown port has a
`%p` without an argument, for which the next `word` of the stack is printed. -/
def serialSetDefaultPort (com : BitVec 16) (word : BitVec 32) (s : Driver) :
    Option (ℤ × Driver) :=
  if 0 < com then
    if findLoop com s.serialPorts.toList 0 = serialPortsMax then do
      let out ← klog "KWARN" (cString "Port %p not initialized yet...\n") [.int word] s.out
      return (-1, { s with out })
    else return (0, s.withSerial { s.out.io.serial with serialDefaultPort := com })
  else none

def Driver.serialWrite (buffer : List Byte) (s : Driver) : Option (ℤ × Driver) := do
  let (bytes, serial) ← SerialPort.serialWrite buffer s.out.io.serial
  return (bytes, s.withSerial serial)

inductive Call where
  | serialInitPort (com : BitVec 16)
  | serialSetDefaultPort (com : BitVec 16) (word : BitVec 32)
  | serialWrite (buffer : List Byte)
  deriving DecidableEq, Repr

def Call.run (s : Driver) : Call → Option Driver
  | .serialInitPort com => SerialRegistry.serialInitPort com s
  | .serialSetDefaultPort com word =>
      (SerialRegistry.serialSetDefaultPort com word s).map Prod.snd
  | .serialWrite buffer => (s.serialWrite buffer).map Prod.snd

def runCalls (calls : List Call) (s : Driver) : Option Driver := calls.foldlM Call.run s

/-- Distinct ports in the order they were registered, and the one that is the
default, or zero. -/
structure PortTable where
  registered : List (BitVec 16)
  defaultPort : BitVec 16
  nodup : registered.Nodup
  nonzero : 0 ∉ registered
  room : registered.length ≤ serialPortsMax
  chosen : defaultPort = 0 ∨ defaultPort ∈ registered

def PortTable.empty : PortTable where
  registered := []
  defaultPort := 0
  nodup := List.nodup_nil
  nonzero := List.not_mem_nil
  room := Nat.zero_le _
  chosen := .inl rfl

/-- A port that can be registered: not yet there, with a slot left. -/
def PortTable.Admits (t : PortTable) (com : BitVec 16) : Prop :=
  com ≠ 0 ∧ com ∉ t.registered ∧ t.registered.length < serialPortsMax

instance (t : PortTable) (com : BitVec 16) : Decidable (t.Admits com) :=
  inferInstanceAs (Decidable (_ ∧ _ ∧ _))

def PortTable.register (t : PortTable) (com : BitVec 16) (h : t.Admits com) : PortTable where
  registered := t.registered ++ [com]
  defaultPort := t.defaultPort
  nodup := List.nodup_append.mpr ⟨t.nodup, List.nodup_singleton com, fun p hp q hq hpq =>
    h.2.1 (List.mem_singleton.mp hq ▸ hpq ▸ hp)⟩
  nonzero := fun hmem => (List.mem_append.mp hmem).elim t.nonzero fun hzero =>
    h.1 (List.mem_singleton.mp hzero).symm
  room := by
    rw [List.length_append, List.length_singleton]
    exact h.2.2
  chosen := t.chosen.imp_right (List.mem_append_left _)

/-- What `serial_init_port` is for; `present` says that a device answers. -/
def PortTable.initPort (t : PortTable) (com : BitVec 16) (present : Bool) : PortTable :=
  if h : t.Admits com then if present then t.register com h else t else t

/-- What `serial_set_default_port` is for. -/
def PortTable.setDefault (t : PortTable) (com : BitVec 16) : ℤ × PortTable :=
  if h : com ∈ t.registered then (0, { t with defaultPort := com, chosen := .inr h })
  else (-1, t)

/-- Ports are only added behind the others, and a default stays one. -/
structure PortTable.Grows (t t' : PortTable) : Prop where
  registered : t.registered <+: t'.registered
  defaultPort : t.defaultPort ≠ 0 → t'.defaultPort ≠ 0

/-- The slots that hold the registry. -/
def PortTable.slots (t : PortTable) : List (BitVec 16) :=
  t.registered ++ List.replicate (serialPortsMax - t.registered.length) 0

structure PortTable.Represents (t : PortTable) (s : Driver) : Prop where
  slots : s.serialPorts.toList = t.slots
  defaultPort : s.defaultPort = t.defaultPort

section Registry
variable {t t' t'' : PortTable} {com : BitVec 16}

theorem PortTable.Grows.refl (t : PortTable) : t.Grows t := ⟨List.prefix_refl _, id⟩

theorem PortTable.Grows.trans (h : t.Grows t') (k : t'.Grows t'') : t.Grows t'' :=
  ⟨h.registered.trans k.registered, fun hne => k.defaultPort (h.defaultPort hne)⟩

theorem PortTable.initPort_refused (h : ¬ t.Admits com) (present : Bool) :
    t.initPort com present = t := dif_neg h

theorem PortTable.initPort_absent (t : PortTable) (com : BitVec 16) :
    t.initPort com false = t := by
  rw [PortTable.initPort]
  split_ifs with h hfalse
  · cases hfalse
  · rfl
  · rfl

theorem PortTable.initPort_present (h : t.Admits com) :
    t.initPort com true = t.register com h := by
  rw [PortTable.initPort, dif_pos h, if_pos rfl]

theorem PortTable.initPort_grows (t : PortTable) (com : BitVec 16) (present : Bool) :
    t.Grows (t.initPort com present) := by
  rw [PortTable.initPort]
  split_ifs
  · exact ⟨List.prefix_append _ _, id⟩
  · exact .refl t
  · exact .refl t

theorem PortTable.setDefault_grows (t : PortTable) (com : BitVec 16) :
    t.Grows (t.setDefault com).2 := by
  rw [PortTable.setDefault]
  split_ifs with h
  · refine ⟨List.prefix_refl _, fun _ hzero => ?_⟩
    exact t.nonzero (hzero ▸ h)
  · exact .refl t

theorem PortTable.mem_slots (hcom : com ≠ 0) : com ∈ t.slots ↔ com ∈ t.registered := by
  rw [PortTable.slots, List.mem_append, or_iff_left]
  exact fun h => hcom (List.eq_of_mem_replicate h)

theorem PortTable.zero_mem_slots (t : PortTable) :
    0 ∈ t.slots ↔ t.registered.length < serialPortsMax := by
  rw [PortTable.slots, List.mem_append, or_iff_right t.nonzero, List.mem_replicate]
  simp only [and_true]
  omega

/-- The search of `serial_init_port` ends at a free slot or behind the table. -/
theorem initLoop_eq {registered : List (BitVec 16)} (hzero : 0 ∉ registered) (com : BitVec 16)
    (k i : ℕ) : initLoop com (registered ++ List.replicate k 0) i =
      if com ∈ registered then none else some (i + registered.length) := by
  induction registered generalizing i with
  | nil =>
      cases k with
      | zero => simp [initLoop]
      | succ k => simp [initLoop, List.replicate_succ]
  | cons port ports ih =>
      have hport : port ≠ 0 := fun e => hzero (by simp [e])
      have hrest : 0 ∉ ports := fun h => hzero (List.mem_cons_of_mem _ h)
      rw [List.cons_append, initLoop, if_pos hport, List.length_cons]
      by_cases hcom : port = com
      · rw [if_pos hcom, if_pos (by simp [hcom])]
      · have hmem : com ∈ port :: ports ↔ com ∈ ports := by
          rw [List.mem_cons, or_iff_right (Ne.symm hcom)]
        rw [if_neg hcom, ih hrest, if_congr hmem rfl (congrArg some _)]
        omega

theorem findLoop_eq (com : BitVec 16) (ports : List (BitVec 16)) (i : ℕ) :
    findLoop com ports i = i + ports.idxOf com := by
  induction ports generalizing i with
  | nil => rfl
  | cons port ports ih =>
      rw [findLoop]
      split_ifs with hcom
      · rw [List.idxOf_cons_eq _ hcom, Nat.add_zero]
      · rw [ih, List.idxOf_cons_ne _ hcom]
        omega

theorem findLoop_end (com : BitVec 16) (ports : Vector (BitVec 16) serialPortsMax) :
    findLoop com ports.toList 0 = serialPortsMax ↔ com ∉ ports.toList := by
  have hlength : ports.toList.length = serialPortsMax := ports.length_toList
  rw [findLoop_eq, Nat.zero_add, ← List.idxOf_eq_length_iff, hlength]

/-- Storing in the slot that was found. -/
theorem PortTable.slots_set (hroom : t.registered.length < serialPortsMax) (com : BitVec 16) :
    t.slots.set t.registered.length com =
      t.registered ++ com :: List.replicate (serialPortsMax - t.registered.length - 1) 0 := by
  obtain ⟨k, hk⟩ : ∃ k, serialPortsMax - t.registered.length = k + 1 :=
    Nat.exists_eq_succ_of_ne_zero (by omega)
  rw [PortTable.slots, hk, List.set_append_right _ _ (Nat.le_refl _), Nat.sub_self,
    List.replicate_succ, List.set_cons_zero, Nat.add_sub_cancel]

theorem PortTable.slots_register (h : t.Admits com) :
    (t.register com h).slots = t.slots.set t.registered.length com := by
  rw [PortTable.slots_set h.2.2, PortTable.slots, PortTable.register, List.length_append,
    List.length_singleton, Nat.sub_sub, List.append_assoc, List.singleton_append]

/-- Storing zero there leaves the slot free. -/
theorem PortTable.slots_set_zero (hroom : t.registered.length < serialPortsMax) :
    t.slots.set t.registered.length 0 = t.slots := by
  obtain ⟨k, hk⟩ : ∃ k, serialPortsMax - t.registered.length = k + 1 :=
    Nat.exists_eq_succ_of_ne_zero (by omega)
  rw [PortTable.slots_set hroom, PortTable.slots, hk, Nat.add_sub_cancel, List.replicate_succ]

end Registry

section Refinement
variable {t : PortTable} {s s' : Driver} {com : BitVec 16}

theorem PortTable.Represents.withSerial (h : t.Represents s) {serial : Serial}
    (hport : serial.serialDefaultPort = s.defaultPort) : t.Represents (s.withSerial serial) :=
  ⟨h.slots, hport.trans h.defaultPort⟩

/-- Whether the next answer of the hardware is that of a device. -/
def Driver.Present (s : Driver) : Bool := s.out.io.serial.answers.head? != some 0xFF

theorem Driver.present_eq {status : Byte} {answers : List Byte}
    (h : s.out.io.serial.answers = status :: answers) : s.Present = (status != 0xFF) := by
  rw [Driver.Present, h]
  rfl

/-- A message is all that was written. -/
def Driver.Logs (s s' : Driver) : Prop :=
  ∃ level fmt ap out, klog level fmt ap s.out = some out ∧ s' = { s with out }

theorem PortTable.Represents.logs (h : t.Represents s) (hlogs : s.Logs s') : t.Represents s' := by
  obtain ⟨level, fmt, ap, out, hlog, rfl⟩ := hlogs
  exact ⟨h.slots, (klog_port hlog).trans h.defaultPort⟩

/-- What a call that returns has done: the port or the table refused it, or the
port was configured and its status decided. -/
theorem serialInitPort_cases (h : t.Represents s) (hrun : serialInitPort com s = some s') :
    (com ∈ t.registered ∨ t.registered.length = serialPortsMax) ∧ s.Logs s' ∨
    (com ∉ t.registered ∧ t.registered.length < serialPortsMax) ∧ ∃ status serial,
      inb (x86SerialLineStatusPort com) (configure com 12 s.out.io.serial) =
        some (status, serial) ∧
      (status = 0xFF ∧ (s.withSerial serial).Logs s' ∨
        status ≠ 0xFF ∧ s' = { s.withSerial serial with
          serialPorts := s.serialPorts.setIfInBounds t.registered.length com }) := by
  rw [serialInitPort, h.slots, PortTable.slots, initLoop_eq t.nonzero, Nat.zero_add] at hrun
  by_cases hmem : com ∈ t.registered
  · rw [if_pos hmem] at hrun
    obtain ⟨out, hlog, hret⟩ := Option.bind_eq_some_iff.mp hrun
    cases hret
    exact .inl ⟨.inl hmem, _, _, _, out, hlog, rfl⟩
  rw [if_neg hmem] at hrun
  by_cases hfull : t.registered.length = serialPortsMax
  · simp only [hfull, if_true] at hrun
    obtain ⟨out, hlog, hret⟩ := Option.bind_eq_some_iff.mp hrun
    cases hret
    exact .inl ⟨.inr hfull, _, _, _, out, hlog, rfl⟩
  simp only [hfull, if_false] at hrun
  obtain ⟨⟨status, serial⟩, hstatus, hrun⟩ := Option.bind_eq_some_iff.mp hrun
  simp only at hrun
  refine .inr ⟨⟨hmem, Nat.lt_of_le_of_ne t.room hfull⟩, status, serial, hstatus, ?_⟩
  by_cases habsent : status = 0xFF
  · rw [if_pos habsent] at hrun
    obtain ⟨out, hlog, hret⟩ := Option.bind_eq_some_iff.mp hrun
    cases hret
    exact .inl ⟨habsent, _, _, _, out, hlog, rfl⟩
  · rw [if_neg habsent] at hrun
    cases hrun
    exact .inr ⟨habsent, rfl⟩

/-- Storing the port in the slot that was found registers it. Port zero is stored
as well, and leaves the slot free. -/
theorem PortTable.Represents.stored (h : t.Represents s) (hnew : com ∉ t.registered)
    (hroom : t.registered.length < serialPortsMax) : (t.initPort com true).Represents
      { s with serialPorts := s.serialPorts.setIfInBounds t.registered.length com } := by
  have hslots : (s.serialPorts.setIfInBounds t.registered.length com).toList =
      t.slots.set t.registered.length com := by
    rw [Vector.toList_setIfInBounds, h.slots]
  by_cases hzero : com = 0
  · rw [PortTable.initPort_refused fun hadmits => hadmits.1 hzero]
    refine ⟨hslots.trans ?_, h.defaultPort⟩
    rw [hzero, PortTable.slots_set_zero hroom]
  · have hadmits : t.Admits com := ⟨hzero, hnew, hroom⟩
    rw [PortTable.initPort_present hadmits]
    exact ⟨hslots.trans (PortTable.slots_register hadmits).symm, h.defaultPort⟩

theorem serialInitPort_represents (h : t.Represents s) (hrun : serialInitPort com s = some s') :
    (t.initPort com s.Present).Represents s' := by
  obtain ⟨hrefused, hlogs⟩ | ⟨⟨hnew, hroom⟩, status, serial, hstatus, hdecided⟩ :=
    serialInitPort_cases h hrun
  · have hadmits : ¬ t.Admits com := by
      rintro ⟨-, hnew, hroom⟩
      obtain hmem | hfull := hrefused
      · exact hnew hmem
      · exact Nat.ne_of_lt hroom hfull
    rw [PortTable.initPort_refused hadmits]
    exact h.logs hlogs
  · obtain ⟨hanswers, hport, -⟩ := inb_eq_some hstatus
    have hserial : t.Represents (s.withSerial serial) := h.withSerial hport
    rw [Driver.present_eq hanswers]
    obtain ⟨rfl, hlogs⟩ | ⟨hpresent, rfl⟩ := hdecided
    · rw [show ((0xFF : Byte) != 0xFF) = false from rfl, PortTable.initPort_absent]
      exact hserial.logs hlogs
    · rw [bne_iff_ne.mpr hpresent]
      exact hserial.stored hnew hroom

/-- What a call that adds its port leaves in the device: the divisor of 12 in the
low byte of the latch, and the high byte as it was. -/
theorem serialInitPort_after (h : t.Represents s) (hnew : com ∉ t.registered)
    (hroom : t.registered.length < serialPortsMax) (hpresent : s.Present = true)
    (hrun : serialInitPort com s = some s') (uart : Uart) :
    uart.after com s'.out.io.serial.trace =
      { uart.after com s.out.io.serial.trace with dll := 12, lcr := 0x03 } := by
  obtain ⟨hrefused, -⟩ | ⟨-, status, serial, hstatus, hdecided⟩ := serialInitPort_cases h hrun
  · obtain hmem | hfull := hrefused
    · exact absurd hmem hnew
    · exact absurd hfull (Nat.ne_of_lt hroom)
  · obtain ⟨hanswers, -, htrace⟩ := inb_eq_some hstatus
    rw [Driver.present_eq hanswers, bne_iff_ne] at hpresent
    obtain ⟨habsent, -⟩ | ⟨-, rfl⟩ := hdecided
    · exact absurd habsent hpresent
    · change uart.after com serial.trace = _
      rw [htrace]
      exact configure_after com 12 uart s.out.io.serial

theorem PortTable.Represents.findLoop_end (h : t.Represents s) (hpos : 0 < com) :
    findLoop com s.serialPorts.toList 0 = serialPortsMax ↔ com ∉ t.registered := by
  have hcom : com ≠ 0 := (BitVec.pos_iff_ne_zero com).mp hpos
  rw [SerialRegistry.findLoop_end, h.slots, PortTable.mem_slots hcom]

theorem serialSetDefaultPort_represents {word : BitVec 32} {r : ℤ} (h : t.Represents s)
    (hrun : serialSetDefaultPort com word s = some (r, s')) :
    (t.setDefault com).1 = r ∧ (t.setDefault com).2.Represents s' := by
  rw [serialSetDefaultPort] at hrun
  split_ifs at hrun with hpos hend
  · have hmem : com ∉ t.registered := (h.findLoop_end hpos).mp hend
    obtain ⟨out, hlog, hret⟩ := Option.bind_eq_some_iff.mp hrun
    cases hret
    rw [PortTable.setDefault, dif_neg hmem]
    exact ⟨rfl, h.logs ⟨_, _, _, out, hlog, rfl⟩⟩
  · have hmem : com ∈ t.registered := by
      by_contra hnot
      exact hend ((h.findLoop_end hpos).mpr hnot)
    cases hrun
    rw [PortTable.setDefault, dif_pos hmem]
    exact ⟨rfl, h.slots, rfl⟩

theorem Driver.serialWrite_represents {buffer : List Byte} {n : ℤ} (h : t.Represents s)
    (hrun : s.serialWrite buffer = some (n, s')) : t.Represents s' := by
  rw [Driver.serialWrite] at hrun
  obtain ⟨⟨bytes, serial⟩, hserial, hret⟩ := Option.bind_eq_some_iff.mp hrun
  cases hret
  exact h.withSerial (serialWrite_port hserial)

/-- One call, whichever it is. -/
theorem Call.run_represents {call : Call} (h : t.Represents s) (hrun : call.run s = some s') :
    ∃ t' : PortTable, t'.Represents s' ∧ t.Grows t' := by
  cases call with
  | serialInitPort com =>
      exact ⟨_, serialInitPort_represents h hrun, t.initPort_grows com _⟩
  | serialSetDefaultPort com word =>
      obtain ⟨⟨r, s''⟩, hset, rfl⟩ := Option.map_eq_some_iff.mp hrun
      exact ⟨_, (serialSetDefaultPort_represents h hset).2, t.setDefault_grows com⟩
  | serialWrite buffer =>
      obtain ⟨⟨n, s''⟩, hwrite, rfl⟩ := Option.map_eq_some_iff.mp hrun
      exact ⟨t, Driver.serialWrite_represents h hwrite, .refl t⟩

/-- The run lemma: a registry before the calls has grown to one after them. -/
theorem runCalls_represents {calls : List Call} (h : t.Represents s)
    (hrun : runCalls calls s = some s') : ∃ t' : PortTable, t'.Represents s' ∧ t.Grows t' := by
  induction calls generalizing t s with
  | nil =>
      cases hrun
      exact ⟨t, h, .refl t⟩
  | cons call calls ih =>
      rw [runCalls, List.foldlM_cons] at hrun
      obtain ⟨mid, hcall, hrest⟩ := Option.bind_eq_some_iff.mp hrun
      obtain ⟨t₁, hmid, hgrows⟩ := Call.run_represents h hcall
      obtain ⟨t₂, hlast, hgrows'⟩ := ih hmid hrest
      exact ⟨t₂, hlast, hgrows.trans hgrows'⟩

end Refinement

def Driver.Registered (s : Driver) (com : BitVec 16) : Prop :=
  com ≠ 0 ∧ com ∈ s.serialPorts.toList

/-- The used slots come first and hold distinct ports, and the default is one of
these or zero. -/
structure Tidy (s : Driver) : Prop where
  slots : ∃ registered : List (BitVec 16), registered.Nodup ∧ 0 ∉ registered ∧
    s.serialPorts.toList = registered ++ List.replicate (serialPortsMax - registered.length) 0
  defaultPort : s.defaultPort = 0 ∨ s.Registered s.defaultPort

/-- Used slots stay as they are, and a default stays one. -/
structure Keeps (s s' : Driver) : Prop where
  slots : ∀ i (_ : i < serialPortsMax), s.serialPorts[i] ≠ 0 → s'.serialPorts[i] = s.serialPorts[i]
  defaultPort : s.defaultPort ≠ 0 → s'.defaultPort ≠ 0

/-- A port that is there already, a full table and an absent device leave the
table alone; any other port is added. -/
structure InitsPort (com : BitVec 16) (s s' : Driver) : Prop where
  refused : s.Registered com ∨ 0 ∉ s.serialPorts.toList ∨ s.Present = false →
    s'.serialPorts = s.serialPorts
  added : ¬ (s.Registered com ∨ 0 ∉ s.serialPorts.toList ∨ s.Present = false) →
    ∀ p, s'.Registered p ↔ s.Registered p ∨ p = com ∧ com ≠ 0
  defaultPort : s'.defaultPort = s.defaultPort

structure SetsDefault (com : BitVec 16) (s : Driver) (r : ℤ) (s' : Driver) : Prop where
  found : s.Registered com → r = 0 ∧ s'.defaultPort = com
  missing : ¬ s.Registered com → r = -1 ∧ s'.defaultPort = s.defaultPort
  slots : s'.serialPorts = s.serialPorts

section Table
variable {t t' : PortTable} {s s' : Driver} {com : BitVec 16}

theorem PortTable.Represents.registered_iff (h : t.Represents s) (com : BitVec 16) :
    s.Registered com ↔ com ∈ t.registered := by
  rw [Driver.Registered, h.slots]
  constructor
  · intro hreg
    exact (PortTable.mem_slots hreg.1).mp hreg.2
  · intro hmem
    have hcom : com ≠ 0 := fun e => t.nonzero (e ▸ hmem)
    exact ⟨hcom, (PortTable.mem_slots hcom).mpr hmem⟩

theorem PortTable.Represents.tidy (h : t.Represents s) : Tidy s := by
  refine ⟨⟨t.registered, t.nodup, t.nonzero, h.slots⟩, ?_⟩
  rw [h.registered_iff, h.defaultPort]
  exact t.chosen

theorem PortTable.Represents.same_slots (h : t.Represents s) (h' : t.Represents s') :
    s'.serialPorts = s.serialPorts := Vector.toList_inj.mp (h'.slots.trans h.slots.symm)

theorem PortTable.slots_used {i : ℕ} (hi : i < t.registered.length) :
    t.slots[i]? = t.registered[i]? := List.getElem?_append_left hi

theorem PortTable.slots_free {i : ℕ} (hi : ¬ i < t.registered.length) (hmax : i < serialPortsMax) :
    t.slots[i]? = some 0 := by
  rw [PortTable.slots, List.getElem?_append_right (by omega), List.getElem?_replicate,
    if_pos (by omega)]

theorem PortTable.Represents.getElem (h : t.Represents s) {i : ℕ} (hi : i < serialPortsMax) :
    t.slots[i]? = some s.serialPorts[i] := by
  rw [← h.slots, List.getElem?_eq_getElem (by rwa [Vector.length_toList]), Vector.getElem_toList]

theorem PortTable.Represents.keeps (h : t.Represents s) (h' : t'.Represents s')
    (hgrows : t.Grows t') : Keeps s s' := by
  constructor
  · intro i hi hne
    have hused : i < t.registered.length := by
      by_contra hfree
      have hzero := h.getElem hi
      rw [PortTable.slots_free hfree hi, Option.some.injEq] at hzero
      exact hne hzero.symm
    obtain ⟨more, hmore⟩ := hgrows.registered
    have hused' : i < t'.registered.length := by
      rw [← hmore, List.length_append]
      omega
    have hsame : t'.slots[i]? = t.slots[i]? := by
      rw [PortTable.slots_used hused', PortTable.slots_used hused, ← hmore,
        List.getElem?_append_left hused]
    rw [h.getElem hi, h'.getElem hi, Option.some.injEq] at hsame
    exact hsame
  · rw [h.defaultPort, h'.defaultPort]
    exact hgrows.defaultPort

theorem PortTable.initPort_defaultPort (t : PortTable) (com : BitVec 16) (present : Bool) :
    (t.initPort com present).defaultPort = t.defaultPort := by
  rw [PortTable.initPort]
  split_ifs <;> rfl

theorem serialInitPort_inits (h : t.Represents s) (hrun : serialInitPort com s = some s') :
    InitsPort com s s' := by
  have h' := serialInitPort_represents h hrun
  constructor
  · intro hrefused
    have hkept : t.initPort com s.Present = t := by
      obtain hreg | hfull | habsent := hrefused
      · exact PortTable.initPort_refused
          (fun hadmits => hadmits.2.1 ((h.registered_iff com).mp hreg)) _
      · rw [h.slots, PortTable.zero_mem_slots] at hfull
        exact PortTable.initPort_refused (fun hadmits => hfull hadmits.2.2) _
      · rw [habsent, PortTable.initPort_absent]
    exact h.same_slots (hkept ▸ h')
  · intro hfresh p
    rw [not_or, not_or, not_not, h.registered_iff, h.slots, PortTable.zero_mem_slots,
      Bool.not_eq_false] at hfresh
    obtain ⟨hnew, hroom, hpresent⟩ := hfresh
    rw [hpresent] at h'
    rw [h'.registered_iff, h.registered_iff]
    by_cases hcom : com = 0
    · rw [PortTable.initPort_refused fun hadmits => hadmits.1 hcom]
      simp [hcom]
    · have hne : com ≠ 0 := hcom
      rw [PortTable.initPort_present ⟨hne, hnew, hroom⟩, and_iff_left hne]
      change p ∈ t.registered ++ [com] ↔ _
      rw [List.mem_append, List.mem_singleton]
  · rw [h'.defaultPort, PortTable.initPort_defaultPort, h.defaultPort]

theorem serialSetDefaultPort_sets {word : BitVec 32} {r : ℤ} (h : t.Represents s)
    (hrun : serialSetDefaultPort com word s = some (r, s')) : SetsDefault com s r s' := by
  obtain ⟨rfl, h'⟩ := serialSetDefaultPort_represents h hrun
  by_cases hmem : com ∈ t.registered
  · rw [PortTable.setDefault, dif_pos hmem] at h' ⊢
    exact ⟨fun _ => ⟨rfl, h'.defaultPort⟩,
      fun hnot => absurd ((h.registered_iff com).mpr hmem) hnot,
      Vector.toList_inj.mp (h'.slots.trans h.slots.symm)⟩
  · rw [PortTable.setDefault, dif_neg hmem] at h' ⊢
    exact ⟨fun hreg => absurd ((h.registered_iff com).mp hreg) hmem,
      fun _ => ⟨rfl, h'.defaultPort.trans h.defaultPort.symm⟩, h.same_slots h'⟩

end Table

section Returns
variable {s : Driver}

/-- A line of the kernel's log is shorter than this. -/
def messageBytes : ℕ := 64

theorem serialSetDefaultPort_returns {com : BitVec 16} (hcom : 0 < com) (word : BitVec 32)
    (h : s.out.Responds messageBytes) :
    ∃ r s', serialSetDefaultPort com word s = some (r, s') := by
  rw [serialSetDefaultPort, if_pos hcom]
  by_cases hend : findLoop com s.serialPorts.toList 0 = serialPortsMax
  · obtain ⟨out, hlog⟩ := @klog_pointer_returns s.out "KWARN"
      (cString "Port %p not initialized yet...\n") ("KWARN".toList.map ascii)
      ("Port ".toList.map ascii) (" not initialized yet...\n".toList.map ascii) messageBytes
      rfl rfl (by decide) (by decide) word h
    exact ⟨-1, { s with out }, by rw [if_pos hend, hlog]; rfl⟩
  · exact ⟨0, _, by rw [if_neg hend]; rfl⟩

/-- Apart from its messages, a call needs an answer of the line status register. -/
theorem serialInitPort_returns (com : BitVec 16) (hanswers : s.out.io.serial.answers ≠ [])
    (h : s.out.Responds messageBytes) : ∃ s', serialInitPort com s = some s' := by
  rw [serialInitPort]
  cases hloop : initLoop com s.serialPorts.toList 0 with
  | none =>
      obtain ⟨out, hlog⟩ := @klog_pointer_returns s.out "DEBUG"
        (cString "Port %p was already initialized\n") ("DEBUG".toList.map ascii)
        ("Port ".toList.map ascii) (" was already initialized\n".toList.map ascii) messageBytes
        rfl rfl (by decide) (by decide) (com.setWidth 32) h
      exact ⟨{ s with out }, by simp only [hlog]; rfl⟩
  | some i =>
      simp only
      by_cases hfull : i = serialPortsMax
      · have htext := reference_literals
          ("No available space to init another COM port.\n".toList.map ascii) [] []
        obtain ⟨out, hlog, -⟩ := @klog_returns s.out
          (cString "No available space to init another COM port.\n") _ _ _ 0 "KWARN"
          ("KWARN".toList.map ascii) (by decide) (by decide) (by decide) htext (by decide)
          ⟨h.serial.mono (by decide), h.nul⟩
        exact ⟨{ s with out }, by rw [if_pos hfull, hlog]; rfl⟩
      · obtain ⟨status, serial, hstatus, hserial⟩ := @inb_returns (x86SerialConfigLine com
          (x86SerialConfigBaudRate com 12 s.out.io.serial)) 63 (x86SerialLineStatusPort com)
          hanswers h.serial
        rw [if_neg hfull]
        simp only [hstatus, bind, Option.bind_some]
        by_cases habsent : status = 0xFF
        · obtain ⟨out, hlog⟩ := @klog_pointer_returns (s.withSerial serial).out "DEBUG"
            (cString "Port %p not available\n") ("DEBUG".toList.map ascii)
            ("Port ".toList.map ascii) (" not available\n".toList.map ascii) 63
            rfl rfl (by decide) (by decide) (com.setWidth 32) ⟨hserial, h.nul⟩
          exact ⟨{ s.withSerial serial with out }, by rw [if_pos habsent, hlog]; rfl⟩
        · exact ⟨_, by rw [if_neg habsent]; rfl⟩

/-- A registered port becomes the default without a message. -/
theorem serialSetDefaultPort_found {com : BitVec 16} (hreg : s.Registered com)
    (word : BitVec 32) : ∃ s', serialSetDefaultPort com word s = some (0, s') := by
  have hpos : 0 < com := (BitVec.pos_iff_ne_zero com).mpr hreg.1
  have hend : findLoop com s.serialPorts.toList 0 ≠ serialPortsMax := fun hend =>
    (findLoop_end com s.serialPorts).mp hend hreg.2
  exact ⟨_, by rw [serialSetDefaultPort, if_pos hpos, if_neg hend]; rfl⟩

end Returns

theorem PortTable.empty_represents {s : Driver}
    (hslots : s.serialPorts = Vector.replicate serialPortsMax 0) (hdefault : s.defaultPort = 0) :
    PortTable.empty.Represents s := ⟨by rw [hslots]; rfl, hdefault⟩

/-- After every sequence of calls from the zeroed table, with any ports and any
answers of the hardware: the table is in order, the next call of each function
does what it is for, and whatever is called later keeps what is there. -/
theorem serial_registry_invariant (s₀ : Driver)
    (hslots : s₀.serialPorts = Vector.replicate serialPortsMax 0) (hdefault : s₀.defaultPort = 0)
    (calls : List Call) (s : Driver) (hrun : runCalls calls s₀ = some s) :
    Tidy s ∧
      (∀ com s', serialInitPort com s = some s' → InitsPort com s s') ∧
      (∀ com word r s', serialSetDefaultPort com word s = some (r, s') →
        SetsDefault com s r s') ∧
      (∀ buffer n s', s.serialWrite buffer = some (n, s') →
        s'.serialPorts = s.serialPorts ∧ s'.defaultPort = s.defaultPort) ∧
      (∀ later s', runCalls later s = some s' → Keeps s s') ∧
      (∀ com word, s.Registered com → ∃ s', serialSetDefaultPort com word s = some (0, s')) ∧
      (s.out.Responds messageBytes →
        (∀ com word, 0 < com → ∃ r s', serialSetDefaultPort com word s = some (r, s')) ∧
        (s.out.io.serial.answers ≠ [] → ∀ com, ∃ s', serialInitPort com s = some s')) := by
  obtain ⟨t, h, -⟩ := runCalls_represents (PortTable.empty_represents hslots hdefault) hrun
  refine ⟨h.tidy, ?_, ?_, ?_, ?_, ?_, ?_⟩
  · intro com s' hinit
    exact serialInitPort_inits h hinit
  · intro com word r s' hset
    exact serialSetDefaultPort_sets h hset
  · intro buffer n s' hwrite
    have h' := Driver.serialWrite_represents h hwrite
    exact ⟨h.same_slots h', h'.defaultPort.trans h.defaultPort.symm⟩
  · intro later s' hlater
    obtain ⟨t', h', hgrows⟩ := runCalls_represents h hlater
    exact h.keeps h' hgrows
  · intro com word hreg
    exact serialSetDefaultPort_found hreg word
  · intro hresponds
    exact ⟨fun com word hcom => serialSetDefaultPort_returns hcom word hresponds,
      fun hanswers com => serialInitPort_returns com hanswers hresponds⟩

/-- The driver before any call. -/
def Driver.boot (answers : List Byte) : Driver :=
  ⟨Vector.replicate serialPortsMax 0, .boot (fun _ => 0) ⟨0, fun _ => 0⟩ ⟨0, answers, []⟩,
    ⟨fun _ => 0, []⟩, fun _ => 0⟩

/-- `COM1` answers, `COM2` does not, and a byte is written to `COM1`. -/
theorem serial_registry_invariant_com1 : ∃ s,
    runCalls [.serialInitPort 0x3F8, .serialInitPort 0x2F8, .serialSetDefaultPort 0x3F8 0,
      .serialWrite [0x68]] (.boot [0x60, 0xFF, 0x60]) = some s ∧
    s.serialPorts = #v[0x3F8, 0, 0, 0] ∧ s.defaultPort = 0x3F8 ∧ Tidy s := by
  refine ⟨_, rfl, rfl, rfl, ?_⟩
  exact (serial_registry_invariant (.boot [0x60, 0xFF, 0x60]) rfl rfl [.serialInitPort 0x3F8,
    .serialInitPort 0x2F8, .serialSetDefaultPort 0x3F8 0, .serialWrite [0x68]] _ rfl).1

end Yack.SerialRegistry
