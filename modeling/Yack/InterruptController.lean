import Yack.InterruptAcknowledge
import Yack.BitSets
import Yack.ByteMemory
import Mathlib.Data.List.Find

/-!
# The two 8259s: `x86_pic_remap` and `x86_pic_eoi`

The controllers as registers behind four ports, with the initialisation sequence
a write to the command port starts, and the two functions of the kernel that
write to them. A request of a line is kept until the processor acknowledges it;
in service it blocks every line that does not outrank it until the EOI.

`Lines` says what the pair is for: requests of sixteen IRQs, of which the first in
the order of priority is delivered, once, as soon as nothing in service blocks it.
-/
namespace Yack.InterruptController
open InterruptAcknowledge BitSets

/-- The word of the initialisation sequence that is expected next. -/
inductive Expects where
  | icw2
  | icw3
  | icw4
  | operation
  deriving DecidableEq, Repr

structure Pic8259 where
  imr : Byte
  irr : Byte
  isr : Byte
  icw2 : Byte
  icw3 : Byte
  icw4 : Byte
  single : Bool
  needsIcw4 : Bool
  expects : Expects
  deriving DecidableEq, Repr

/-- The command port: the start of an initialisation, or a non-specific EOI. No
other command is sent by this kernel. -/
def Pic8259.command (p : Pic8259) (b : Byte) : Pic8259 :=
  if b.getLsbD 4 then
    { p with
      imr := 0, irr := 0, isr := 0, icw4 := 0, single := b.getLsbD 1, needsIcw4 := b.getLsbD 0
      expects := .icw2 }
  else if b &&& 0xF8 = 0x20 then { p with isr := p.isr &&& (p.isr - 1) }
  else p

def Pic8259.last (p : Pic8259) : Expects := if p.needsIcw4 then .icw4 else .operation

def Pic8259.data (p : Pic8259) (b : Byte) : Pic8259 :=
  match p.expects with
  | .icw2 => { p with icw2 := b, expects := if p.single then p.last else .icw3 }
  | .icw3 => { p with icw3 := b, expects := p.last }
  | .icw4 => { p with icw4 := b, expects := .operation }
  | .operation => { p with imr := b }

/-- The line to deliver: the first that is requested and not masked, unless one
up to it is in service. -/
def Pic8259.select (p : Pic8259) (requests : Byte) : Option ℕ :=
  ((List.range 8).find? fun n => (requests &&& ~~~p.imr).getLsbD n).filter fun n =>
    (List.range (n + 1)).all fun m => !p.isr.getLsbD m

/-- The processor acknowledges line `n`; with automatic EOI nothing stays in
service. -/
def Pic8259.serve (p : Pic8259) (n : ℕ) : Pic8259 :=
  { p with
    irr := p.irr &&& ~~~BitVec.twoPow 8 n
    isr := if p.icw4.getLsbD 1 then p.isr else p.isr ||| BitVec.twoPow 8 n }

/-- The vector of line `n` in 8086 mode. -/
def Pic8259.vector (p : Pic8259) (n : ℕ) : Byte := (p.icw2 &&& 0xF8) ||| BitVec.ofNat 8 n

/-- The output of the slave is wired to line 2 of the master. -/
structure Controllers where
  master : Pic8259
  slave : Pic8259
  deriving DecidableEq, Repr

def Controllers.slaveLine (c : Controllers) : Option ℕ := c.slave.select c.slave.irr

def Controllers.requests (c : Controllers) : Byte :=
  if c.slaveLine.isSome then c.master.irr ||| 0x04 else c.master.irr &&& ~~~0x04

/-- On a line that `icw3` marks the master gives way to the slave of that
number. -/
def Controllers.respond (c : Controllers) (n : ℕ) : Option (Byte × Controllers) :=
  if c.master.icw3.getLsbD n ∧ c.slave.icw3 = BitVec.ofNat 8 n then
    c.slaveLine.map fun k =>
      (c.slave.vector k, { master := c.master.serve n, slave := c.slave.serve k })
  else some (c.master.vector n, { c with master := c.master.serve n })

def Controllers.acknowledge (c : Controllers) : Option (Byte × Controllers) :=
  (c.master.select c.requests).bind c.respond

def Controllers.raise (c : Controllers) (irq : ℕ) : Controllers :=
  if irq < 8 then
    { c with master := { c.master with irr := c.master.irr ||| BitVec.twoPow 8 irq } }
  else { c with slave := { c.slave with irr := c.slave.irr ||| BitVec.twoPow 8 (irq - 8) } }

def x86Pic1Cmd : BitVec 16 := 0x20
def x86Pic1Data : BitVec 16 := 0x21
def x86Pic2Cmd : BitVec 16 := 0xA0
def x86Pic2Data : BitVec 16 := 0xA1

def icw1Icw4 : Byte := 0x01
def icw1Init : Byte := 0x10
def icw4_8086 : Byte := 0x01
def picEoi : Byte := 0x20

/-- Ports of other devices do not reach the controllers. -/
def Controllers.outb (c : Controllers) (port : BitVec 16) (b : Byte) : Controllers :=
  if port = x86Pic1Cmd then { c with master := c.master.command b }
  else if port = x86Pic1Data then { c with master := c.master.data b }
  else if port = x86Pic2Cmd then { c with slave := c.slave.command b }
  else if port = x86Pic2Data then { c with slave := c.slave.data b }
  else c

/-- Reads of the two data ports. -/
def Controllers.inb (c : Controllers) (port : BitVec 16) : Byte :=
  if port = x86Pic1Data then c.master.imr else c.slave.imr

def ioWait (c : Controllers) : Controllers := c.outb 0x80 0

def x86PicRemap (offset1 offset2 : Byte) (c : Controllers) : Controllers :=
  let a1 := c.inb x86Pic1Data
  let a2 := c.inb x86Pic2Data
  let c := ioWait (c.outb x86Pic1Cmd (icw1Init ||| icw1Icw4))
  let c := ioWait (c.outb x86Pic2Cmd (icw1Init ||| icw1Icw4))
  let c := ioWait (c.outb x86Pic1Data offset1)
  let c := ioWait (c.outb x86Pic2Data offset2)
  let c := ioWait (c.outb x86Pic1Data 4)
  let c := ioWait (c.outb x86Pic2Data 2)
  let c := ioWait (c.outb x86Pic1Data icw4_8086)
  let c := ioWait (c.outb x86Pic2Data icw4_8086)
  (c.outb x86Pic1Data a1).outb x86Pic2Data a2

/-- The argument is an `unsigned char`. -/
def x86PicEoi (irq : Byte) (c : Controllers) : Controllers :=
  let c := if x86Pic1Offset ≤ irq.toNat then c.outb x86Pic1Cmd picEoi else c
  if x86Pic2Offset ≤ irq.toNat then c.outb x86Pic2Cmd picEoi else c

/-- A controller after its initialisation by `x86_pic_remap`. -/
def Pic8259.remapped (p : Pic8259) (offset cascade : Byte) : Pic8259 :=
  { imr := p.imr, irr := 0, isr := 0, icw2 := offset, icw3 := cascade, icw4 := icw4_8086
    single := false, needsIcw4 := true, expects := .operation }

/-- Whatever the controllers were doing, the sequence of writes is followed, and
the masks are the old ones. -/
theorem x86PicRemap_eq (offset1 offset2 : Byte) (c : Controllers) :
    x86PicRemap offset1 offset2 c =
      { master := c.master.remapped offset1 4, slave := c.slave.remapped offset2 2 } := by
  rfl

inductive Signal where
  | raise (irq : ℕ)
  | acknowledge
  | eoi (irq : Byte)
  | setMasks (master slave : Byte)
  deriving DecidableEq, Repr

/-- One event of the devices, the processor or the kernel, with the vector that
is delivered. -/
def Controllers.step (c : Controllers) : Signal → Option ℕ × Controllers
  | .raise irq => (none, c.raise irq)
  | .acknowledge =>
      match c.acknowledge with
      | none => (none, c)
      | some (vector, c) => (some vector.toNat, c)
  | .eoi irq => (none, x86PicEoi irq c)
  | .setMasks master slave => (none, (c.outb x86Pic1Data master).outb x86Pic2Data slave)

def Controllers.run : Controllers → List Signal → List (Option ℕ) × Controllers
  | c, [] => ([], c)
  | c, s :: ss =>
      let a := c.step s
      let b := a.2.run ss
      (a.1 :: b.1, b.2)

/-- The sixteen IRQs. A masked IRQ 2 masks the slave. -/
structure Lines where
  pending : Finset ℕ
  masked : Finset ℕ
  inService : Pics
  deriving DecidableEq

def irqTrap (irq : ℕ) : Trap := if irq < 8 then .masterIrq irq else .slaveIrq (irq - 8)

/-- The lines of the slave come where the master has its line 2. -/
def priorityOrder : List ℕ := [0, 1] ++ ((List.range 8).map (8 + ·) ++ [3, 4, 5, 6, 7])

def Lines.Deliverable (a : Lines) (irq : ℕ) : Prop :=
  irq ∈ a.pending ∧ irq ∉ a.masked ∧ (8 ≤ irq → 2 ∉ a.masked) ∧
    a.inService.Accept (irqTrap irq).lines

instance (a : Lines) (irq : ℕ) : Decidable (a.Deliverable irq) :=
  inferInstanceAs (Decidable (_ ∧ _))

def Lines.next (a : Lines) : Option ℕ := priorityOrder.find? fun irq => a.Deliverable irq

def Lines.serve (a : Lines) (irq : ℕ) : Lines :=
  { a with pending := a.pending.erase irq, inService := a.inService.mark (irqTrap irq).lines }

/-- The EOIs that `x86_pic_eoi` sends for a vector. -/
def Lines.eoi (a : Lines) (vector : ℕ) : Lines :=
  { a with
    inService :=
      { master := if x86Pic1Offset ≤ vector then endOfInterrupt a.inService.master
          else a.inService.master
        slave := if x86Pic2Offset ≤ vector then endOfInterrupt a.inService.slave
          else a.inService.slave } }

def Lines.step (a : Lines) : Signal → Option ℕ × Lines
  | .raise irq => (none, { a with pending := insert irq a.pending })
  | .acknowledge =>
      match a.next with
      | none => (none, a)
      | some irq => (some (irqTrap irq).vector, a.serve irq)
  | .eoi irq => (none, a.eoi irq.toNat)
  | .setMasks master slave => (none, { a with masked := members (slave ++ master) })

def Lines.run : Lines → List Signal → List (Option ℕ) × Lines
  | a, [] => ([], a)
  | a, s :: ss =>
      let r := a.step s
      let rest := r.2.run ss
      (r.1 :: rest.1, rest.2)

/-- IRQ 2 is the slave and is raised by it alone. -/
def Signal.Legal : Signal → Prop
  | .raise irq => irq < 16 ∧ irq ≠ 2
  | .acknowledge | .eoi _ | .setMasks .. => True

instance (s : Signal) : Decidable s.Legal := by
  cases s with
  | raise irq => exact inferInstanceAs (Decidable (_ ∧ _))
  | _ => exact .isTrue trivial

theorem irqTrap_vector (irq : ℕ) : (irqTrap irq).vector = 0x20 + irq := by
  unfold irqTrap
  split
  · rfl
  · simp only [Trap.vector, x86Pic2Offset]
    omega

/-- What the registers say about the IRQs. -/
def Controllers.lines (c : Controllers) : Lines where
  pending := (members (c.slave.irr ++ c.master.irr)).erase 2
  masked := members (c.slave.imr ++ c.master.imr)
  inService := { master := members c.master.isr, slave := members c.slave.isr }

/-- Initialised as `trap_init` asks for. -/
structure Controllers.Ready (c : Controllers) : Prop where
  operation : c.master.expects = .operation ∧ c.slave.expects = .operation
  offsets : c.master.icw2 = 0x20 ∧ c.slave.icw2 = 0x28
  cascade : c.master.icw3 = 4 ∧ c.slave.icw3 = 2
  mode : c.master.icw4 = icw4_8086 ∧ c.slave.icw4 = icw4_8086

section Acknowledge
variable {c : Controllers} {p : Pic8259} {n irq : ℕ}

/-- The first line that could be delivered by itself. -/
theorem Pic8259.select_eq (p : Pic8259) (requests : Byte) :
    p.select requests = (List.range 8).find? fun n =>
      (requests &&& ~~~p.imr).getLsbD n && (List.range (n + 1)).all fun m => !p.isr.getLsbD m := by
  refine find?_filter_of_closed 8 ?_
  intro m n hmn hn
  rw [List.all_eq_true] at *
  intro k hk
  exact hn k (List.mem_range.mpr (by have := List.mem_range.mp hk; omega))

theorem mem_pending {k : ℕ} : k ∈ c.lines.pending ↔ k ≠ 2 ∧
    if k < 8 then c.master.irr.getLsbD k = true else c.slave.irr.getLsbD (k - 8) = true := by
  rw [Controllers.lines, Finset.mem_erase, mem_members, BitVec.getLsbD_append]
  split <;> simp

theorem mem_masked {k : ℕ} : k ∈ c.lines.masked ↔
    if k < 8 then c.master.imr.getLsbD k = true else c.slave.imr.getLsbD (k - 8) = true := by
  rw [Controllers.lines, mem_members, BitVec.getLsbD_append]
  split <;> simp

theorem accept_iff {isr : Byte} : (∀ m ∈ members isr, n < m) ↔
    (List.range (n + 1)).all (fun m => !isr.getLsbD m) = true := by
  simp only [List.all_eq_true, List.mem_range, Bool.not_eq_true', mem_members]
  constructor
  · intro h m hm
    refine Bool.eq_false_iff.mpr fun hbit => ?_
    have := h m hbit
    omega
  · intro h m hbit
    by_contra hm
    rw [h m (by omega)] at hbit
    cases hbit

/-- A line of the master is delivered as the scan of the master finds it. -/
theorem deliverable_master (hn : n < 8) (hne : n ≠ 2) : c.lines.Deliverable n ↔
    (c.requests &&& ~~~c.master.imr).getLsbD n = true ∧
      (List.range (n + 1)).all (fun m => !c.master.isr.getLsbD m) = true := by
  have hrequest : c.requests.getLsbD n = c.master.irr.getLsbD n := by
    have hfour : (0x04 : Byte) = BitVec.twoPow 8 2 := rfl
    rw [Controllers.requests, hfour]
    split
    · rw [getLsbD_set _ (by decide), decide_eq_false hne, Bool.or_false]
    · rw [getLsbD_clear, decide_eq_true hne, Bool.and_true]
  have haccept : c.lines.inService.Accept (irqTrap n).lines ↔
      ∀ m ∈ members c.master.isr, n < m := by
    simp [irqTrap, hn, Trap.lines, Pics.Accept, Controllers.lines]
  rw [Lines.Deliverable, mem_pending, mem_masked, if_pos hn, if_pos hn, haccept, accept_iff,
    BitVec.getLsbD_and, hrequest, BitVec.getLsbD_not]
  simp [hn, hne, and_assoc, Nat.not_le.mpr hn]

/-- The master lets its line 2 through. -/
def Controllers.Open (c : Controllers) : Prop :=
  c.master.imr.getLsbD 2 = false ∧ (List.range 3).all (fun m => !c.master.isr.getLsbD m) = true

instance (c : Controllers) : Decidable c.Open := inferInstanceAs (Decidable (_ ∧ _))

theorem deliverable_slave {k : ℕ} (hk : k < 8) : c.lines.Deliverable (8 + k) ↔
    ((c.slave.irr &&& ~~~c.slave.imr).getLsbD k &&
      (List.range (k + 1)).all fun m => !c.slave.isr.getLsbD m) = true ∧ c.Open := by
  have hge : ¬ 8 + k < 8 := by omega
  have hsub : 8 + k - 8 = k := by omega
  have haccept : c.lines.inService.Accept (irqTrap (8 + k)).lines ↔
      (∀ m ∈ members c.master.isr, 2 < m) ∧ ∀ m ∈ members c.slave.isr, k < m := by
    have htrap : irqTrap (8 + k) = .slaveIrq k := by rw [irqTrap, if_neg hge, hsub]
    simp [htrap, Trap.lines, Pics.Accept, Controllers.lines]
  have hmask : 2 ∈ c.lines.masked ↔ c.master.imr.getLsbD 2 = true := by
    rw [mem_masked, if_pos (by decide)]
  rw [Lines.Deliverable, mem_pending, mem_masked, if_neg hge, if_neg hge, hsub, haccept,
    accept_iff, accept_iff, hmask, Controllers.Open, BitVec.getLsbD_and, BitVec.getLsbD_not]
  simp only [hk, decide_true, Bool.true_and, Bool.and_eq_true, Bool.not_eq_true', Bool.not_eq_true]
  have hne : 8 + k ≠ 2 := by omega
  have hle : 8 ≤ 8 + k := by omega
  simp only [hne, hle, ne_eq, not_false_eq_true, true_and, forall_const]
  tauto

/-- The scan of the master, with its line 2 apart. -/
theorem Controllers.select_eq (c : Controllers) : c.master.select c.requests =
    ([0, 1].find? fun irq => c.lines.Deliverable irq).or
      ((if c.slaveLine.isSome ∧ c.Open then some 2 else none).or
        ([3, 4, 5, 6, 7].find? fun irq => c.lines.Deliverable irq)) := by
  have hline : ∀ irq < 8, irq ≠ 2 → ((c.requests &&& ~~~c.master.imr).getLsbD irq &&
      (List.range (irq + 1)).all fun m => !c.master.isr.getLsbD m) =
        decide (c.lines.Deliverable irq) := by
    intro irq hlt hne
    rw [Bool.eq_iff_iff, decide_eq_true_iff, deliverable_master hlt hne, Bool.and_eq_true]
  have htwo : ((c.requests &&& ~~~c.master.imr).getLsbD 2 &&
      (List.range 3).all fun m => !c.master.isr.getLsbD m) =
        decide (c.slaveLine.isSome ∧ c.Open) := by
    have hrequest : c.requests.getLsbD 2 = c.slaveLine.isSome := by
      have hfour : (0x04 : Byte) = BitVec.twoPow 8 2 := rfl
      rw [Controllers.requests, hfour]
      split
      · rename_i h
        rw [getLsbD_set _ (by decide), h, decide_eq_true rfl, Bool.or_true]
      · rename_i h
        rw [getLsbD_clear, Bool.eq_false_iff.mpr h]
        simp
    rw [BitVec.getLsbD_and, hrequest, BitVec.getLsbD_not, Bool.eq_iff_iff, decide_eq_true_iff,
      Controllers.Open]
    simp [and_assoc]
  rw [Pic8259.select_eq, show List.range 8 = [0, 1] ++ ([2] ++ [3, 4, 5, 6, 7]) from rfl,
    List.find?_append, List.find?_append]
  refine congrArg₂ Option.or (List.find?_congr ?_) (congrArg₂ Option.or ?_ (List.find?_congr ?_))
  · intro irq hirq
    exact hline irq (by simp at hirq; omega) (by simp at hirq; omega)
  · rw [List.find?_singleton, htwo]
    simp
  · intro irq hirq
    exact hline irq (by simp at hirq; omega) (by simp at hirq; omega)

theorem Controllers.slave_find (c : Controllers) :
    ((List.range 8).map (8 + ·)).find? (fun irq => c.lines.Deliverable irq) =
      if c.Open then c.slaveLine.map (8 + ·) else none := by
  rw [List.find?_map]
  split
  · rename_i h
    rw [Controllers.slaveLine, Pic8259.select_eq]
    refine congrArg _ (List.find?_congr fun k hk => ?_)
    rw [Function.comp_apply, Bool.eq_iff_iff, decide_eq_true_iff,
      deliverable_slave (List.mem_range.mp hk)]
    exact and_iff_left h
  · rename_i h
    rw [List.find?_eq_none.mpr, Option.map_none]
    intro k hk
    rw [Function.comp_apply, decide_eq_true_iff, deliverable_slave (List.mem_range.mp hk)]
    exact fun hd => h hd.2

/-- Acknowledging `irq`: the master too serves its line 2 for the slave. -/
def Controllers.serve (c : Controllers) (irq : ℕ) : Controllers :=
  if irq < 8 then { c with master := c.master.serve irq }
  else { master := c.master.serve 2, slave := c.slave.serve (irq - 8) }

theorem vector_eq {offset : Byte} (h : offset = 0x20 ∨ offset = 0x28) (hn : n < 8) :
    (offset &&& 0xF8) ||| BitVec.ofNat 8 n = BitVec.ofNat 8 (offset.toNat + n) := by
  obtain rfl | rfl := h
  · exact (by decide : ∀ n < 8, (0x20 &&& 0xF8 : Byte) ||| BitVec.ofNat 8 n =
      BitVec.ofNat 8 ((0x20 : Byte).toNat + n)) n hn
  · exact (by decide : ∀ n < 8, (0x28 &&& 0xF8 : Byte) ||| BitVec.ofNat 8 n =
      BitVec.ofNat 8 ((0x28 : Byte).toNat + n)) n hn

theorem Controllers.Ready.master_vector (h : c.Ready) (hn : n < 8) :
    c.master.vector n = BitVec.ofNat 8 (irqTrap n).vector := by
  rw [Pic8259.vector, h.offsets.1, vector_eq (.inl rfl) hn, irqTrap_vector]
  rfl

theorem Controllers.Ready.slave_vector (h : c.Ready) (hn : n < 8) :
    c.slave.vector n = BitVec.ofNat 8 (irqTrap (8 + n)).vector := by
  rw [Pic8259.vector, h.offsets.2, vector_eq (.inr rfl) hn, irqTrap_vector,
    show 0x20 + (8 + n) = (0x28 : Byte).toNat + n by simp; omega]

theorem Controllers.Ready.respond_master (h : c.Ready) (hn : n < 8) (hne : n ≠ 2) :
    c.respond n = some (BitVec.ofNat 8 (irqTrap n).vector, c.serve n) := by
  have hcascade : ¬ (c.master.icw3.getLsbD n ∧ c.slave.icw3 = BitVec.ofNat 8 n) := by
    rw [h.cascade.1, h.cascade.2]
    exact (by decide : ∀ n < 8, n ≠ 2 →
      ¬ ((4 : Byte).getLsbD n ∧ (2 : Byte) = BitVec.ofNat 8 n)) n hn hne
  rw [Controllers.respond, if_neg hcascade, h.master_vector hn, Controllers.serve, if_pos hn]

theorem Controllers.Ready.respond_slave (h : c.Ready) (hline : c.slaveLine = some n) :
    c.respond 2 = some (BitVec.ofNat 8 (irqTrap (8 + n)).vector, c.serve (8 + n)) := by
  have hn : n < 8 := by
    rw [Controllers.slaveLine, Pic8259.select_eq] at hline
    exact List.mem_range.mp (List.mem_of_find?_eq_some hline)
  have hcascade : c.master.icw3.getLsbD 2 ∧ c.slave.icw3 = BitVec.ofNat 8 2 := by
    rw [h.cascade.1, h.cascade.2]
    decide
  have hsub : 8 + n - 8 = n := by omega
  rw [Controllers.respond, if_pos hcascade, hline, Option.map_some, h.slave_vector hn,
    Controllers.serve, if_neg (by omega), hsub]

theorem Controllers.Ready.respond_find (h : c.Ready) {irqs : List ℕ}
    (hirqs : ∀ n ∈ irqs, n < 8 ∧ n ≠ 2) :
    (irqs.find? fun irq => c.lines.Deliverable irq).bind c.respond =
      (irqs.find? fun irq => c.lines.Deliverable irq).map fun irq =>
        (BitVec.ofNat 8 (irqTrap irq).vector, c.serve irq) := by
  cases hfind : irqs.find? fun irq => c.lines.Deliverable irq with
  | none => rfl
  | some irq =>
      obtain ⟨hlt, hne⟩ := hirqs irq (List.mem_of_find?_eq_some hfind)
      exact h.respond_master hlt hne

/-- The acknowledge cycle delivers the next IRQ in the order of priority. -/
theorem Controllers.Ready.acknowledge_eq (h : c.Ready) : c.acknowledge =
    c.lines.next.map fun irq => (BitVec.ofNat 8 (irqTrap irq).vector, c.serve irq) := by
  have hfirst := h.respond_find (by decide : ∀ n ∈ [0, 1], n < 8 ∧ n ≠ 2)
  have hlast := h.respond_find (by decide : ∀ n ∈ [3, 4, 5, 6, 7], n < 8 ∧ n ≠ 2)
  rw [Controllers.acknowledge, c.select_eq, Lines.next, priorityOrder, List.find?_append,
    List.find?_append, c.slave_find]
  cases hcase : [0, 1].find? fun irq => c.lines.Deliverable irq with
  | some irq =>
      rw [hcase] at hfirst
      exact hfirst
  | none =>
      rw [Option.none_or, Option.none_or]
      by_cases hopen : c.Open
      · cases hslave : c.slaveLine with
        | some k =>
            simp only [Option.isSome_some, hopen, and_self, if_true, Option.some_or,
              Option.map_some, Option.bind_some]
            exact h.respond_slave hslave
        | none =>
            simp only [Option.isSome_none, Bool.false_eq_true, false_and, if_false,
              Option.none_or, hopen, if_true, Option.map_none]
            exact hlast
      · simp only [hopen, and_false, if_false, Option.none_or]
        exact hlast

end Acknowledge

section Runs
variable {c : Controllers} {irq : ℕ}

theorem Controllers.raise_lines (h : irq < 16) (hne : irq ≠ 2) :
    (c.raise irq).lines = { c.lines with pending := insert irq c.lines.pending } := by
  have hpending : (c.raise irq).lines.pending = insert irq c.lines.pending := by
    ext k
    rw [Finset.mem_insert, mem_pending, mem_pending, Controllers.raise]
    by_cases hirq : irq < 8
    · simp only [if_pos hirq, getLsbD_set _ hirq, Bool.or_eq_true, decide_eq_true_eq]
      by_cases hk : k < 8
      · simp only [if_pos hk]
        grind
      · simp only [if_neg hk]
        grind
    · simp only [if_neg hirq, getLsbD_set c.slave.irr (by omega : irq - 8 < 8), Bool.or_eq_true,
        decide_eq_true_eq]
      by_cases hk : k < 8
      · simp only [if_pos hk]
        grind
      · simp only [if_neg hk]
        grind
  rw [← hpending, Controllers.raise]
  split <;> rfl

theorem Controllers.Ready.serve_lines (h : c.Ready) (hlt : irq < 16) :
    (c.serve irq).lines = c.lines.serve irq := by
  have hauto : c.master.icw4.getLsbD 1 = false ∧ c.slave.icw4.getLsbD 1 = false := by
    rw [h.mode.1, h.mode.2]
    decide
  have hpending : (c.serve irq).lines.pending = c.lines.pending.erase irq := by
    ext k
    rw [Finset.mem_erase, mem_pending, mem_pending, Controllers.serve]
    by_cases hirq : irq < 8
    · simp only [if_pos hirq, Pic8259.serve, getLsbD_clear, Bool.and_eq_true, decide_eq_true_eq]
      by_cases hk : k < 8
      · simp only [if_pos hk]
        grind
      · simp only [if_neg hk]
        grind
    · simp only [if_neg hirq, Pic8259.serve, getLsbD_clear, Bool.and_eq_true, decide_eq_true_eq]
      by_cases hk : k < 8
      · simp only [if_pos hk]
        grind
      · simp only [if_neg hk]
        grind
  have hservice : (c.serve irq).lines.inService = c.lines.inService.mark (irqTrap irq).lines := by
    by_cases hirq : irq < 8
    · simp only [Controllers.serve, if_pos hirq, Controllers.lines, Pic8259.serve, hauto.1,
        Bool.false_eq_true, if_false, members_set _ hirq, irqTrap, Trap.lines, Pics.mark,
        Finset.empty_union]
    · simp only [Controllers.serve, if_neg hirq, Controllers.lines, Pic8259.serve, hauto.1, hauto.2,
        Bool.false_eq_true, if_false, members_set c.slave.isr (by omega : irq - 8 < 8),
        members_set c.master.isr (by decide : 2 < 8), irqTrap, Trap.lines, Pics.mark]
  rw [Lines.serve, ← hpending, ← hservice, Controllers.serve]
  split <;> rfl

theorem members_clearLowest (isr : Byte) :
    members (isr &&& (isr - 1)) = endOfInterrupt (members isr) := by
  ext k
  rw [mem_members, getLsbD_clearLowest, endOfInterrupt, Finset.mem_filter, mem_members]
  refine and_congr_right fun _ => ⟨?_, ?_⟩
  · rintro ⟨m, hm, hbit⟩
    exact ⟨m, mem_members.mpr hbit, hm⟩
  · rintro ⟨m, hm, hlt⟩
    exact ⟨m, hlt, mem_members.mp hm⟩

theorem Controllers.eoi_master (c : Controllers) : (c.outb x86Pic1Cmd picEoi).lines =
    { c.lines with
      inService := { c.lines.inService with master := endOfInterrupt c.lines.inService.master } } :=
  congrArg (fun master => { c.lines with inService := { c.lines.inService with master } })
    (members_clearLowest c.master.isr)

theorem Controllers.eoi_slave (c : Controllers) : (c.outb x86Pic2Cmd picEoi).lines =
    { c.lines with
      inService := { c.lines.inService with slave := endOfInterrupt c.lines.inService.slave } } :=
  congrArg (fun slave => { c.lines with inService := { c.lines.inService with slave } })
    (members_clearLowest c.slave.isr)

theorem x86PicEoi_lines (irq : Byte) (c : Controllers) :
    (x86PicEoi irq c).lines = c.lines.eoi irq.toNat := by
  have hle : x86Pic1Offset ≤ x86Pic2Offset := by decide
  unfold x86PicEoi Lines.eoi
  by_cases hfirst : x86Pic1Offset ≤ irq.toNat
  · by_cases hsecond : x86Pic2Offset ≤ irq.toNat
    · simp only [if_pos hfirst, if_pos hsecond, Controllers.eoi_slave, Controllers.eoi_master]
    · simp only [if_pos hfirst, if_neg hsecond, Controllers.eoi_master]
  · have hsecond : ¬ x86Pic2Offset ≤ irq.toNat := fun h => hfirst (Nat.le_trans hle h)
    simp only [if_neg hfirst, if_neg hsecond]

theorem Controllers.Ready.outb_command (h : c.Ready) (port : BitVec 16)
    (hport : port = x86Pic1Cmd ∨ port = x86Pic2Cmd) : (c.outb port picEoi).Ready := by
  obtain rfl | rfl := hport <;> exact ⟨h.operation, h.offsets, h.cascade, h.mode⟩

theorem Controllers.Ready.step (h : c.Ready) (s : Signal) : (c.step s).2.Ready := by
  cases s with
  | raise irq =>
      simp only [Controllers.step, Controllers.raise]
      split <;> exact ⟨h.operation, h.offsets, h.cascade, h.mode⟩
  | acknowledge =>
      simp only [Controllers.step, h.acknowledge_eq]
      cases c.lines.next with
      | none => exact h
      | some irq =>
          simp only [Option.map_some, Controllers.serve]
          split <;> exact ⟨h.operation, h.offsets, h.cascade, h.mode⟩
  | eoi irq =>
      simp only [Controllers.step, x86PicEoi]
      split <;> split
      · exact (h.outb_command _ (.inl rfl)).outb_command _ (.inr rfl)
      · exact h.outb_command _ (.inr rfl)
      · exact h.outb_command _ (.inl rfl)
      · exact h
  | setMasks master slave =>
      obtain ⟨⟨hmaster, hslave⟩, hoffsets, hcascade, hmode⟩ := h
      obtain ⟨⟨⟩, ⟨⟩⟩ := c
      cases hmaster
      cases hslave
      exact ⟨⟨rfl, rfl⟩, hoffsets, hcascade, hmode⟩

theorem mem_priorityOrder {irq : ℕ} : irq ∈ priorityOrder ↔ irq < 16 ∧ irq ≠ 2 := by
  constructor
  · intro h
    exact (by decide : ∀ irq ∈ priorityOrder, irq < 16 ∧ irq ≠ 2) irq h
  · rintro ⟨hlt, hne⟩
    exact (by decide : ∀ irq < 16, irq ≠ 2 → irq ∈ priorityOrder) irq hlt hne

/-- The registers follow the sixteen IRQs, signal by signal. -/
theorem Controllers.Ready.step_lines (h : c.Ready) {s : Signal} (hs : s.Legal) :
    (c.step s).1 = (c.lines.step s).1 ∧ (c.step s).2.lines = (c.lines.step s).2 := by
  cases s with
  | raise irq => exact ⟨rfl, Controllers.raise_lines hs.1 hs.2⟩
  | acknowledge =>
      simp only [Controllers.step, Lines.step, h.acknowledge_eq]
      cases hnext : c.lines.next with
      | none => exact ⟨rfl, rfl⟩
      | some irq =>
          have hlt := (mem_priorityOrder.mp (List.mem_of_find?_eq_some hnext)).1
          have hvector : (BitVec.ofNat 8 (irqTrap irq).vector).toNat = (irqTrap irq).vector := by
            rw [BitVec.toNat_ofNat, irqTrap_vector]
            omega
          exact ⟨congrArg some hvector, h.serve_lines hlt⟩
  | eoi irq => exact ⟨rfl, x86PicEoi_lines irq c⟩
  | setMasks master slave =>
      obtain ⟨⟨hmaster, hslave⟩, -⟩ := h
      obtain ⟨⟨⟩, ⟨⟩⟩ := c
      cases hmaster
      cases hslave
      exact ⟨rfl, rfl⟩

theorem Controllers.Ready.run_lines (h : c.Ready) {signals : List Signal}
    (hlegal : ∀ s ∈ signals, s.Legal) : (c.run signals).1 = (c.lines.run signals).1 ∧
      (c.run signals).2.lines = (c.lines.run signals).2 := by
  induction signals generalizing c with
  | nil => exact ⟨rfl, rfl⟩
  | cons s ss ih =>
      obtain ⟨hreply, hlines⟩ := h.step_lines (hlegal s (by simp))
      obtain ⟨hreplies, hend⟩ := ih (h.step s) fun s hs => hlegal s (by simp [hs])
      simp only [Controllers.run, Lines.run, hreply, hreplies, hend, hlines, and_self]

theorem x86PicRemap_ready (c : Controllers) :
    (x86PicRemap 0x20 0x28 c).Ready ∧ (x86PicRemap 0x20 0x28 c).lines =
      { pending := ∅, masked := c.lines.masked, inService := { master := ∅, slave := ∅ } } := by
  rw [x86PicRemap_eq]
  refine ⟨⟨⟨rfl, rfl⟩, ⟨rfl, rfl⟩, ⟨rfl, rfl⟩, ⟨rfl, rfl⟩⟩, ?_⟩
  have hpending : (members ((0 : Byte) ++ (0 : Byte))).erase 2 = ∅ := by decide
  simp only [Controllers.lines, Pic8259.remapped, hpending, members_zero]

end Runs

section Deliveries
variable {a : Lines} {irq : ℕ} {s : Signal} {signals : List Signal}

def Lines.waiting (a : Lines) (irq : ℕ) : ℕ := if irq ∈ a.pending then 1 else 0

theorem Lines.acknowledge_some (h : a.next = some irq) :
    a.step .acknowledge = (some (0x20 + irq), a.serve irq) ∧ irq ∈ a.pending := by
  have hdeliverable : a.Deliverable irq := by
    simpa using List.find?_some h
  refine ⟨?_, hdeliverable.1⟩
  rw [Lines.step, h, ← irqTrap_vector]

/-- A request that is delivered is taken away. -/
theorem Lines.step_count (a : Lines) (s : Signal) (irq : ℕ) :
    (if (a.step s).1 = some (0x20 + irq) then 1 else 0) + (a.step s).2.waiting irq ≤
      a.waiting irq + if s = .raise irq then 1 else 0 := by
  cases s with
  | raise n =>
      simp only [Lines.step, Lines.waiting, Finset.mem_insert, Signal.raise.injEq]
      grind
  | acknowledge =>
      cases hnext : a.next with
      | none => simp [Lines.step, hnext]
      | some n =>
          obtain ⟨hstep, hpending⟩ := Lines.acknowledge_some hnext
          simp only [hstep, Lines.waiting, Lines.serve, Finset.mem_erase, Option.some.injEq,
            Nat.add_left_cancel_iff]
          grind
  | eoi n =>
      simp only [Lines.step, reduceCtorEq, if_false, Nat.zero_add, Nat.add_zero]
      exact Nat.le_refl (a.waiting irq)
  | setMasks master slave =>
      simp only [Lines.step, reduceCtorEq, if_false, Nat.zero_add, Nat.add_zero]
      exact Nat.le_refl (a.waiting irq)

theorem Lines.run_count (a : Lines) (signals : List Signal) (irq : ℕ) :
    (a.run signals).1.count (some (0x20 + irq)) + (a.run signals).2.waiting irq ≤
      a.waiting irq + signals.count (.raise irq) := by
  induction signals generalizing a with
  | nil => simp [Lines.run]
  | cons s ss ih =>
      have hstep := a.step_count s irq
      have hrest := ih (a.step s).2
      simp only [Lines.run, List.count_cons, beq_iff_eq] at *
      omega

/-- A request waits until it is delivered. -/
theorem Lines.step_waits (h : irq ∈ a.pending) :
    irq ∈ (a.step s).2.pending ∨ (a.step s).1 = some (0x20 + irq) := by
  cases s with
  | raise n => exact .inl (Finset.mem_insert_of_mem h)
  | acknowledge =>
      cases hnext : a.next with
      | none =>
          rw [Lines.step, hnext]
          exact .inl h
      | some n =>
          rw [(Lines.acknowledge_some hnext).1]
          by_cases hn : irq = n
          · exact .inr (by rw [hn])
          · exact .inl (Finset.mem_erase.mpr ⟨hn, h⟩)
  | eoi n => exact .inl h
  | setMasks master slave => exact .inl h

theorem Lines.run_waits (h : irq ∈ a.pending) :
    irq ∈ (a.run signals).2.pending ∨ some (0x20 + irq) ∈ (a.run signals).1 := by
  induction signals generalizing a with
  | nil => exact .inl h
  | cons s ss ih =>
      rcases @Lines.step_waits a irq s h with h | h
      · exact (ih h).imp_right (List.mem_cons_of_mem _)
      · exact .inr (List.mem_cons.mpr (.inl h.symm))

theorem Lines.run_append (a : Lines) (before after : List Signal) :
    a.run (before ++ after) = ((a.run before).1 ++ ((a.run before).2.run after).1,
      ((a.run before).2.run after).2) := by
  induction before generalizing a with
  | nil => rfl
  | cons s before ih => simp only [List.cons_append, Lines.run, ih]

theorem Lines.run_length (a : Lines) (signals : List Signal) :
    (a.run signals).1.length = signals.length := by
  induction signals generalizing a with
  | nil => rfl
  | cons s ss ih => simp only [Lines.run, List.length_cons, ih]

end Deliveries

/-- From any state of the controllers, and after it for any order of requests,
acknowledge cycles, EOIs and masks: the vector delivered is that of the first
request in the order of priority that nothing blocks, no request is delivered
twice, and none is lost. -/
theorem controllers_deliver_once (c : Controllers) (signals : List Signal)
    (hlegal : ∀ s ∈ signals, s.Legal) :
    let start : Lines := { c.lines with pending := ∅, inService := { master := ∅, slave := ∅ } }
    let after := (x86PicRemap 0x20 0x28 c).run signals
    after.1 = (start.run signals).1 ∧ after.2.lines = (start.run signals).2 ∧
      (∀ irq, after.1.count (some (0x20 + irq)) ≤ signals.count (.raise irq)) ∧
      ∀ before irq rest, signals = before ++ .raise irq :: rest →
        irq ∈ after.2.lines.pending ∨ some (0x20 + irq) ∈ after.1.drop (before.length + 1) := by
  intro start after
  obtain ⟨hready, hlines⟩ := x86PicRemap_ready c
  obtain ⟨hreplies, hend⟩ := hready.run_lines hlegal
  rw [hlines] at hreplies hend
  refine ⟨hreplies, hend, ?_, ?_⟩
  · intro irq
    have hcount := start.run_count signals irq
    have hnone : start.waiting irq = 0 := if_neg (Finset.notMem_empty irq)
    rw [hreplies]
    change (start.run signals).1.count _ ≤ _
    omega
  · intro before irq rest hsplit
    have hraised : irq ∈ ((start.run before).2.step (.raise irq)).2.pending :=
      Finset.mem_insert_self _ _
    have hrun : start.run signals = ((start.run before).1 ++
        none :: (((start.run before).2.step (.raise irq)).2.run rest).1,
        (((start.run before).2.step (.raise irq)).2.run rest).2) := by
      rw [hsplit, Lines.run_append]
      rfl
    have hdrop : (start.run signals).1.drop (before.length + 1) =
        (((start.run before).2.step (.raise irq)).2.run rest).1 := by
      rw [hrun, ← start.run_length before, List.drop_length_add_append]
      rfl
    rw [hend, hreplies, hdrop, hrun]
    exact Lines.run_waits hraised

/-- IRQ 12 waits behind IRQ 1 and, once that has its EOI, is delivered. -/
theorem controllers_deliver_once_mouse : ((x86PicRemap 0x20 0x28
    ⟨⟨0, 0, 0, 8, 4, 1, false, true, .icw3⟩, ⟨0, 0, 0, 0x70, 2, 1, false, true, .operation⟩⟩).run
      [.raise 12, .raise 1, .acknowledge, .acknowledge, .eoi 0x21, .acknowledge]).1 =
        [none, none, some 0x21, none, none, some 0x2C] :=
  ((controllers_deliver_once _ _ (by decide)).1).trans (by decide)

end Yack.InterruptController
