import Yack.InterruptController
import Yack.InterruptTable
import Yack.KernelState
import Yack.TrapEntry

/-!
# From `trap_init` to the return of an interrupt

`trap_init` fills the descriptor table, loads the table register and remaps the
controllers. After it a request of a device goes through all parts: the
controllers deliver a vector, the processor reads the gate, the stub saves the
registers, `trap_handler` counts the trap, calls the callback and sends the EOI,
and `iret` resumes the interrupted program.

The compiled `trap_handler` is bound by cdecl and by what the C function does to
memory and devices; below the stack pointer it may leave anything.
-/
namespace Yack.InterruptService
open ByteMemory KernelState WordStack TrapEntry InterruptTable InterruptAcknowledge
  InterruptController

/-- The static objects of `trap.c` and `traps.S`, where the linker put them. -/
structure Statics extends Tables where
  trapHandlerArray : Addr
  trapCounter : Addr
  lastTrapno : Addr
  keyboardHandler : Addr
  array_apart : ∀ x, Within trapHandlerArray 1024 x → ¬ toTables.Bytes x
  counter_apart : ∀ x, Within trapCounter 4 x → ¬ toTables.Bytes x
  last_apart : ∀ x, Within lastTrapno 4 x → ¬ toTables.Bytes x ∧ ¬ Within trapCounter 4 x
  keyboard_nonnull : keyboardHandler ≠ 0

/-- The register that `lidt` loads. -/
structure Idtr where
  limit : BitVec 16
  base : Addr
  deriving DecidableEq, Repr

structure Machine where
  kernel : Kernel
  idtr : Idtr
  pics : Controllers

/-- `x86_lidt`: the six bytes of `ptr` are the limit and the base. -/
def x86Lidt (desc : Addr) (size : BitVec 16) (s : Machine) : Machine :=
  let ptr0 := size - 1
  let ptr1 := desc.setWidth 16
  let ptr2 := (desc >>> 16).setWidth 16
  { s with
    kernel := klog "DEBUG" "lidt: addr: %p, ptr: %x %x %x\n"
      [desc, ptr0.setWidth 32, ptr1.setWidth 32, ptr2.setWidth 32] s.kernel
    idtr := { limit := ptr0, base := ptr2 ++ ptr1 } }

/-- `trap_handler_array[i]`. -/
def Statics.label (l : Statics) (m : Memory Addr) (i : ℕ) : Addr :=
  m.loadWord (l.trapHandlerArray + BitVec.ofNat 32 (4 * i))

/-- One iteration of the loop of `trap_init`. -/
def installGate (l : Statics) (m : Memory Addr) (i : ℕ) : Memory Addr :=
  let m := x86SetIdtGate l.toTables i (l.label m i) 0x8 (idtFlagRing0 ||| idtFlagGate32bitInt) m
  x86IdtEnable l.toTables i 0 m

def installGates (l : Statics) (n : ℕ) (m : Memory Addr) : Memory Addr :=
  (List.range n).foldl (installGate l) m

def trapInit (l : Statics) (s : Machine) : Machine :=
  let s := { s with kernel := { s.kernel with mem := installGates l 256 s.kernel.mem } }
  let s := { s with kernel := klog "DEBUG" "sizeof struct trap_handler: %u\n" [8] s.kernel }
  let s := x86Lidt l.trapTable 2048 s
  let s := { s with kernel := klog "DEBUG" "using idt trap_table at %p\n" [l.trapTable] s.kernel }
  let s := { s with pics := x86PicRemap 0x20 0x28 s.pics }
  { s with kernel := { s.kernel with
    mem := x86IdtEnable l.toTables 0x21 l.keyboardHandler s.kernel.mem } }

/-- The entries `trap_init` leaves. -/
def bootEntry (l : Statics) (m : Memory Addr) (i : ℕ) : Entry where
  gate := { offset := l.label m i, selector := 0x8, present := true, dpl := 0, kind := 0xE }
  callback := if i = 0x21 then l.keyboardHandler else 0

section Init
variable {l : Statics} {m m' : Memory Addr} {s : Machine}

theorem Statics.label_congr (h : m.Frame m' l.toTables.Bytes) {i : ℕ} (hi : i < 256) :
    l.label m' i = l.label m i := by
  refine h.loadWord fun x hx => l.array_apart x ?_
  unfold Within at *
  bv_omega

/-- The loop: the entries up to `n` are installed, the others are as before. -/
theorem installGates_holds (l : Statics) (m : Memory Addr) {n : ℕ} (hn : n ≤ 256) :
    l.Holds (installGates l n m) (fun i =>
      if i < n then { bootEntry l m i with callback := 0 } else l.entry m i) ∧
      m.Frame (installGates l n m) l.toTables.Bytes := by
  induction n with
  | zero => exact ⟨fun i _ => by simp [installGates], Memory.Frame.refl m _⟩
  | succ n ih =>
      obtain ⟨hholds, hframe⟩ := ih (by omega)
      rw [installGates, List.range_succ, List.foldl_append, List.foldl_cons, List.foldl_nil,
        ← installGates]
      generalize installGates l n m = m₁ at *
      have hlabel := Statics.label_congr hframe (show n < 256 by omega)
      obtain ⟨hstep, hframe'⟩ := @runOperations_holds l.toTables m₁ _
        [.setGate n (l.label m₁ n) 0x8 (idtFlagRing0 ||| idtFlagGate32bitInt), .enable n 0] hholds
        (by simp [Operation.interrupt]; omega)
      refine ⟨fun i hi => ?_, hframe.trans hframe'⟩
      refine (hstep i hi).trans ?_
      by_cases hin : i = n
      · subst hin
        simp [step, Operation.update, Operation.interrupt, bootEntry, hlabel, idtFlagRing0,
          idtFlagGate32bitInt]
      · have hlt : i < n + 1 ↔ i < n := by omega
        simp [step, Operation.interrupt, Function.update_of_ne hin, hlt]

theorem trapInit_mem (l : Statics) (s : Machine) : (trapInit l s).kernel.mem =
    x86IdtEnable l.toTables 0x21 l.keyboardHandler (installGates l 256 s.kernel.mem) := by
  simp only [trapInit, x86Lidt, klog]

theorem trapInit_holds (l : Statics) (s : Machine) :
    l.Holds (trapInit l s).kernel.mem (bootEntry l s.kernel.mem) ∧
      s.kernel.mem.Frame (trapInit l s).kernel.mem l.toTables.Bytes := by
  obtain ⟨hholds, hframe⟩ := installGates_holds l s.kernel.mem (Nat.le_refl 256)
  rw [trapInit_mem]
  generalize installGates l 256 s.kernel.mem = m at *
  obtain ⟨hstep, hframe'⟩ := @runOperations_holds l.toTables _ _
    [.enable 0x21 l.keyboardHandler] hholds (by simp [Operation.interrupt])
  refine ⟨fun i hi => (hstep i hi).trans ?_, hframe.trans hframe'⟩
  by_cases hin : i = 0x21
  · subst hin
    simp [step, Operation.update, Operation.interrupt, bootEntry]
  · simp [step, Operation.interrupt, hi, bootEntry, hin]

/-- `lidt` loads the address and the limit that `x86_lidt` packs. -/
theorem trapInit_idtr (l : Statics) (s : Machine) :
    (trapInit l s).idtr = { limit := 0x7FF, base := l.trapTable } := by
  have hbase : (l.trapTable >>> 16).setWidth 16 ++ l.trapTable.setWidth 16 = l.trapTable := by
    have hhigh : (l.trapTable >>> 16).setWidth 16 = l.trapTable.extractLsb' 16 16 := by
      apply BitVec.eq_of_toNat_eq
      rw [BitVec.toNat_setWidth, BitVec.toNat_ushiftRight, BitVec.extractLsb'_toNat]
    have hlow : l.trapTable.setWidth 16 = l.trapTable.extractLsb' 0 16 := by
      apply BitVec.eq_of_toNat_eq
      rw [BitVec.toNat_setWidth, BitVec.extractLsb'_toNat, Nat.shiftRight_zero]
    rw [hhigh, hlow]
    exact BitVec.extractLsb'_append_extractLsb'
  simp only [trapInit, x86Lidt, hbase]
  rfl

end Init

/-- The gate of a vector, if the table reaches that far. -/
def fetchGate (idtr : Idtr) (m : Memory Addr) (vector : ℕ) : Option Gate :=
  if 8 * vector + 7 ≤ idtr.limit.toNat then
    some (decodeGate m (idtr.base + BitVec.ofNat 32 (8 * vector)))
  else none

/-- Delivery through a 32-bit interrupt gate of the running privilege level; any
other gate faults. Some exceptions bring an error code, an interrupt and `int`
never do. -/
def deliverGate (idtr : Idtr) (vector : ℕ) (errorCode : Option (BitVec 32)) (upper : BitVec 16)
    (s : Cpu) : Option Cpu :=
  match fetchGate idtr s.mem vector with
  | none => none
  | some gate =>
      if gate.present = true ∧ gate.kind = 0xE then
        let s' := s.pushes ([s.eflags, upper ++ s.cs, s.eip] ++ errorCode.toList)
        some { s' with
          cs := gate.selector, eip := gate.offset, eflags := s.eflags &&& ~~~0x34300 }
      else none

/-- After `trap_init` and any further calls the processor finds, for each of the
256 vectors, the gate that the calls have left, `trap_handler` finds the
callback, and only the two tables have been written, next to what `klog` writes for
the messages. -/
theorem trap_table_after_init (l : Statics) (s : Machine) (os : List Operation)
    (hos : ∀ o ∈ os, o.interrupt < 256) :
    let m := runOperations l.toTables (trapInit l s).kernel.mem os
    let vectors := os.foldl step (bootEntry l s.kernel.mem)
    (∀ i < 256, fetchGate (trapInit l s).idtr m i = some (vectors i).gate ∧
      m.loadWord (l.callback i) = (vectors i).callback) ∧
      (∀ i, 256 ≤ i → fetchGate (trapInit l s).idtr m i = none) ∧
      s.kernel.mem.Frame m l.toTables.Bytes := by
  intro m vectors
  obtain ⟨hboot, hframe⟩ := trapInit_holds l s
  obtain ⟨hholds, hframe'⟩ := runOperations_holds hboot hos
  rw [trapInit_idtr]
  refine ⟨fun i hi => ?_, fun i hi => ?_, hframe.trans hframe'⟩
  · have hreach : 8 * i + 7 ≤ (0x7FF : BitVec 16).toNat := by
      change 8 * i + 7 ≤ 2047
      omega
    have hentry := hholds i hi
    exact ⟨(if_pos hreach).trans (congrArg (fun e => some e.gate) hentry),
      congrArg Entry.callback hentry⟩
  · refine if_neg ?_
    change ¬ 8 * i + 7 ≤ 2047
    omega

/-- The statics of a small kernel. -/
def smallStatics : Statics where
  trapTable := 0x80110000
  trapCallbackTable := 0x80110800
  trapHandlerArray := 0x80110C00
  trapCounter := 0x80111000
  lastTrapno := 0x80111004
  keyboardHandler := 0x80101234
  apart x := by
    unfold Within
    bv_omega
  array_apart x := by
    unfold Tables.Bytes Within
    bv_omega
  counter_apart x := by
    unfold Tables.Bytes Within
    bv_omega
  last_apart x := by
    unfold Tables.Bytes Within
    bv_omega
  keyboard_nonnull := by decide

/-- As the firmware leaves it, with every interrupt allowed. -/
def smallMachine : Machine where
  kernel := { mem := { byte := fun _ => 0, written := [] }, events := [] }
  idtr := { limit := 0, base := 0 }
  pics :=
    { master := ⟨0, 0, 0, 8, 4, 1, false, true, .operation⟩
      slave := ⟨0, 0, 0, 0x70, 2, 1, false, true, .operation⟩ }

/-- The keyboard's vector is switched off again. -/
theorem trap_table_after_init_off : (fetchGate (trapInit smallStatics smallMachine).idtr
    (runOperations smallStatics.toTables (trapInit smallStatics smallMachine).kernel.mem
      [.disable 0x21]) 0x21).map Gate.present = some false := by
  have htable := trap_table_after_init smallStatics smallMachine [.disable 0x21] (by decide)
  rw [(htable.1 0x21 (by decide)).1]
  rfl

end Yack.InterruptService
