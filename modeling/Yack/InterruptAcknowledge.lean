import Yack.NestedActivations
import Mathlib.Data.Finset.Basic
import Mathlib.Data.Finset.Filter
import Mathlib.Data.Finset.Max

/-!
# Interrupt acknowledgement: `trap_handler` and `x86_pic_eoi`

The two 8259s are their in-service sets; a smaller number has the higher priority.
Traps nest between any two statements of `trap_handler` and anywhere in a
callback. What raised a trap and the in-service sets on entry are recorded in its
frame; the code reads neither.
-/
namespace Yack.InterruptAcknowledge
open NestedActivations

/-- Lines of the master and of the slave. -/
structure Pics where
  master : Finset ℕ
  slave : Finset ℕ
  deriving DecidableEq

def Pics.mark (p lines : Pics) : Pics :=
  { master := lines.master ∪ p.master, slave := lines.slave ∪ p.slave }

def Pics.clear (p lines : Pics) : Pics :=
  { master := p.master \ lines.master, slave := p.slave \ lines.slave }

def Pics.Covers (p lines : Pics) : Prop := lines.master ⊆ p.master ∧ lines.slave ⊆ p.slave

/-- A non-specific EOI clears the bit of highest priority. -/
def endOfInterrupt (inService : Finset ℕ) : Finset ℕ :=
  inService.filter fun n => ∃ m ∈ inService, m < n

/-- IRQ 0 to 7 are lines of the master, IRQ 8 to 15 lines of the slave. -/
inductive Trap where
  | exception (vector : ℕ)
  | masterIrq (line : ℕ)
  | slaveIrq (line : ℕ)
  | software (vector : ℕ)
  deriving DecidableEq, Repr

def x86Pic1Offset : ℕ := 0x20
def x86Pic2Offset : ℕ := 0x28

def Trap.vector : Trap → ℕ
  | .exception vector => vector
  | .masterIrq line => x86Pic1Offset + line
  | .slaveIrq line => x86Pic2Offset + line
  | .software vector => vector

/-- The bits a trap sets; the slave is cascaded at line 2 of the master. -/
def Trap.lines : Trap → Pics
  | .masterIrq line => { master := {line}, slave := ∅ }
  | .slaveIrq line => { master := {2}, slave := {line} }
  | _ => { master := ∅, slave := ∅ }

def Trap.Exists : Trap → Prop
  | .exception vector => vector < 0x20
  | .masterIrq line => line < 8
  | .slaveIrq line => line < 8
  | .software vector => vector < 256

instance (trap : Trap) : Decidable trap.Exists := by
  cases trap <;> exact inferInstanceAs (Decidable (_ < _))

/-- Everything in service has a lower priority. -/
def Pics.Accept (p lines : Pics) : Prop :=
  (∀ n ∈ lines.master, ∀ m ∈ p.master, n < m) ∧ ∀ n ∈ lines.slave, ∀ m ∈ p.slave, n < m

instance (p lines : Pics) : Decidable (p.Accept lines) := inferInstanceAs (Decidable (_ ∧ _))

/-- `log` is what `klog(TRAP, ...)` was called with. -/
structure Machine where
  pics : Pics
  trapCounter : BitVec 32
  lastTrapno : BitVec 32
  log : List (BitVec 32 × BitVec 32)
  deriving DecidableEq

/-- The statements of `trap_handler`, the two of `x86_pic_eoi` among them. -/
inductive Point where
  | count
  | note
  | report
  | callback
  | eoiMaster
  | eoiSlave
  | returning
  deriving DecidableEq, Repr

structure Frame where
  trap : Trap
  entry : Pics
  trapno : BitVec 32
  point : Point
  deriving DecidableEq

def deliver (m : Machine) (trap : Trap) : Option (Machine × Frame) :=
  let entry := m.pics.mark trap.lines
  if trap.Exists ∧ m.pics.Accept trap.lines then
    some ({ m with pics := entry },
      { trap, entry, trapno := BitVec.ofNat 32 trap.vector, point := .count })
  else none

/-- The `unsigned char` that `x86_pic_eoi` takes. -/
def eoiArgument (trapno : BitVec 32) : ℕ := (trapno.setWidth 8).toNat

/-- One statement. No callback writes the command ports of the PICs. -/
def trapHandler (m : Machine) (f : Frame) : Machine × Option Frame :=
  match f.point with
  | .count => ({ m with trapCounter := m.trapCounter + 1 }, some { f with point := .note })
  | .note => ({ m with lastTrapno := f.trapno }, some { f with point := .report })
  | .report =>
      (if m.lastTrapno ≠ BitVec.ofNat 32 x86Pic1Offset then
        { m with log := (m.trapCounter, f.trapno) :: m.log } else m,
        some { f with point := .callback })
  | .callback => (m, some { f with point := .eoiMaster })
  | .eoiMaster =>
      (if x86Pic1Offset ≤ eoiArgument f.trapno then
        { m with pics := { m.pics with master := endOfInterrupt m.pics.master } } else m,
        some { f with point := .eoiSlave })
  | .eoiSlave =>
      (if x86Pic2Offset ≤ eoiArgument f.trapno then
        { m with pics := { m.pics with slave := endOfInterrupt m.pics.slave } } else m,
        some { f with point := .returning })
  | .returning => (m, none)

def traps : Activations Machine Frame Trap Unit where
  enter := deliver
  advance m f _ := some (trapHandler m f)

/-- The bits of the trap's own IRQ that its handler has not sent the EOI for. -/
def Frame.owed (f : Frame) : Pics :=
  match f.point with
  | .eoiSlave => { f.trap.lines with master := ∅ }
  | .returning => { master := ∅, slave := ∅ }
  | _ => f.trap.lines

def Trap.Hardware : Trap → Prop
  | .masterIrq _ => True
  | .slaveIrq _ => True
  | _ => False

def PicVector (vector : ℕ) : Prop := x86Pic1Offset ≤ vector ∧ vector < x86Pic1Offset + 16

/-- No IRQ still being handled has been acknowledged, and a handler about to
return has cleared the bits of its own IRQ and no others. -/
structure Acknowledged (c : Config Machine Frame) : Prop where
  served : ∀ f ∈ c.2, c.1.pics.Covers f.owed
  returned : ∀ f fs, c.2 = f :: fs → f.point = .returning →
    f.trap.Hardware ∨ ¬ PicVector f.trap.vector → c.1.pics = f.entry.clear f.trap.lines

/-- A software interrupt finds nothing in service that the EOIs sent for its
vector could clear. -/
def Harmless (m : Machine) : Trap → Prop
  | .software vector =>
      (x86Pic1Offset ≤ vector → m.pics.master = ∅) ∧ (x86Pic2Offset ≤ vector → m.pics.slave = ∅)
  | _ => True

instance (m : Machine) (trap : Trap) : Decidable (Harmless m trap) := by
  cases trap with
  | software vector => exact inferInstanceAs (Decidable (_ ∧ _))
  | _ => exact .isTrue trivial

theorem endOfInterrupt_empty : endOfInterrupt ∅ = ∅ := Finset.filter_empty _

/-- An EOI while the last accepted IRQ is in service is that IRQ's own. -/
theorem endOfInterrupt_own {n : ℕ} {inService : Finset ℕ} (h : ∀ m ∈ inService, n < m) :
    endOfInterrupt ({n} ∪ inService) = inService := by
  ext k
  rw [endOfInterrupt, Finset.mem_filter, Finset.mem_union, Finset.mem_singleton]
  constructor
  · intro ⟨hk, m, hm, hlt⟩
    cases hk with
    | inr hk => exact hk
    | inl hk =>
        subst hk
        cases Finset.mem_union.mp hm with
        | inl hm => exact absurd hlt (Finset.mem_singleton.mp hm ▸ Nat.lt_irrefl k)
        | inr hm => exact absurd hlt (Nat.lt_asymm (h m hm))
  · intro hk
    exact ⟨.inr hk, n, Finset.mem_union_left _ (Finset.mem_singleton_self n), h k hk⟩

theorem endOfInterrupt_clears {inService : Finset ℕ} (h : inService.Nonempty) :
    ∃ n ∈ inService, n ∉ endOfInterrupt inService := by
  refine ⟨inService.min' h, inService.min'_mem h, fun hmem => ?_⟩
  obtain ⟨m, hm, hlt⟩ := (Finset.mem_filter.mp hmem).2
  exact absurd hlt (Nat.not_lt.mpr (inService.min'_le m hm))

theorem eoiArgument_eq {trap : Trap} (h : trap.Exists) :
    eoiArgument (BitVec.ofNat 32 trap.vector) = trap.vector := by
  have hlt : trap.vector < 256 := by
    cases trap with
    | exception vector => exact Nat.lt_trans h (by decide)
    | masterIrq line => exact Nat.lt_trans (Nat.add_lt_add_left h _) (by decide)
    | slaveIrq line => exact Nat.lt_trans (Nat.add_lt_add_left h _) (by decide)
    | software vector => exact h
  rw [eoiArgument, BitVec.toNat_setWidth, BitVec.toNat_ofNat]
  omega

section Deliveries
variable {m : Machine} {trap : Trap}

/-- The first EOI takes the master back to where it was before the trap. -/
theorem master_restored (hexists : trap.Exists) (haccept : m.pics.Accept trap.lines)
    (hharmless : Harmless m trap) :
    (if x86Pic1Offset ≤ trap.vector then endOfInterrupt (trap.lines.master ∪ m.pics.master)
      else trap.lines.master ∪ m.pics.master) = m.pics.master := by
  cases trap with
  | exception vector =>
      have hvector : ¬ x86Pic1Offset ≤ (Trap.exception vector).vector := Nat.not_le.mpr hexists
      rw [if_neg hvector]
      exact Finset.empty_union _
  | masterIrq line =>
      have hvector : x86Pic1Offset ≤ (Trap.masterIrq line).vector := Nat.le_add_right _ _
      rw [if_pos hvector]
      exact endOfInterrupt_own (haccept.1 line (Finset.mem_singleton_self line))
  | slaveIrq line =>
      have hvector : x86Pic1Offset ≤ (Trap.slaveIrq line).vector :=
        Nat.le_trans (by decide : x86Pic1Offset ≤ x86Pic2Offset) (Nat.le_add_right _ _)
      rw [if_pos hvector]
      exact endOfInterrupt_own (haccept.1 2 (Finset.mem_singleton_self 2))
  | software vector =>
      rw [show (Trap.software vector).lines.master = ∅ from rfl, Finset.empty_union]
      split_ifs with h
      · rw [hharmless.1 h, endOfInterrupt_empty]
      · rfl

theorem slave_restored (hexists : trap.Exists) (haccept : m.pics.Accept trap.lines)
    (hharmless : Harmless m trap) :
    (if x86Pic2Offset ≤ trap.vector then endOfInterrupt (trap.lines.slave ∪ m.pics.slave)
      else trap.lines.slave ∪ m.pics.slave) = m.pics.slave := by
  cases trap with
  | exception vector =>
      have hvector : ¬ x86Pic2Offset ≤ (Trap.exception vector).vector :=
        Nat.not_le.mpr (Nat.lt_trans hexists (by decide : 0x20 < x86Pic2Offset))
      rw [if_neg hvector]
      exact Finset.empty_union _
  | masterIrq line =>
      have hvector : ¬ x86Pic2Offset ≤ (Trap.masterIrq line).vector :=
        Nat.not_le.mpr (Nat.add_lt_add_left hexists x86Pic1Offset)
      rw [if_neg hvector]
      exact Finset.empty_union _
  | slaveIrq line =>
      have hvector : x86Pic2Offset ≤ (Trap.slaveIrq line).vector := Nat.le_add_right _ _
      rw [if_pos hvector]
      exact endOfInterrupt_own (haccept.2 line (Finset.mem_singleton_self line))
  | software vector =>
      rw [show (Trap.software vector).lines.slave = ∅ from rfl, Finset.empty_union]
      split_ifs with h
      · rw [hharmless.2 h, endOfInterrupt_empty]
      · rfl

/-- The bits a trap set were not set before. -/
theorem mark_clear (haccept : m.pics.Accept trap.lines) :
    (m.pics.mark trap.lines).clear trap.lines = m.pics := by
  have hdisjoint : ∀ lines inService : Finset ℕ, (∀ n ∈ lines, ∀ k ∈ inService, n < k) →
      (lines ∪ inService) \ lines = inService := by
    intro lines inService h
    apply Finset.union_sdiff_cancel_left
    exact Finset.disjoint_left.mpr fun n hn hk => Nat.lt_irrefl n (h n hn n hk)
  rw [Pics.mark, Pics.clear, hdisjoint _ _ haccept.1, hdisjoint _ _ haccept.2]

end Deliveries

/-- The handler of a trap that entered from `m₀` may run in `m`: the bits it
still owes an EOI are all that its IRQ has added. -/
structure Handling (m₀ m : Machine) (f : Frame) : Prop where
  real : f.trap.Exists
  accept : m₀.pics.Accept f.trap.lines
  harmless : Harmless m₀ f.trap
  trapno : f.trapno = BitVec.ofNat 32 f.trap.vector
  entry : f.entry = m₀.pics.mark f.trap.lines
  pics : m.pics = m₀.pics.mark f.owed

theorem deliver_handling {m₀ m : Machine} {f : Frame} {trap : Trap} (hharmless : Harmless m₀ trap)
    (h : deliver m₀ trap = some (m, f)) : Handling m₀ m f := by
  obtain ⟨⟨hreal, haccept⟩, heq⟩ := Option.ite_none_right_eq_some.mp h
  cases heq
  exact ⟨hreal, haccept, hharmless, rfl, rfl, rfl⟩

theorem Pics.mark_none (p : Pics) : p.mark { master := ∅, slave := ∅ } = p := by
  rw [Pics.mark, Finset.empty_union, Finset.empty_union]

theorem Pics.clear_none (p : Pics) : p.clear { master := ∅, slave := ∅ } = p := by
  rw [Pics.clear, Finset.sdiff_empty, Finset.sdiff_empty]

/-- A statement that leaves the pics as the next point needs them keeps the
invariant. -/
theorem Handling.goto {m₀ m m' : Machine} {f : Frame} (h : Handling m₀ m f) (point : Point)
    (hpics : m'.pics = m₀.pics.mark { f with point := point }.owed) :
    Handling m₀ m' { f with point := point } :=
  { h with pics := hpics }

/-- The EOIs compare the vector of the trap. -/
theorem Handling.eoiArgument_eq {m₀ m : Machine} {f : Frame} (h : Handling m₀ m f) :
    eoiArgument f.trapno = f.trap.vector := by
  rw [h.trapno, InterruptAcknowledge.eoiArgument_eq h.real]

/-- What one statement does, up to the return. -/
theorem Handling.trapHandler {m₀ m m' : Machine} {f f' : Frame} (h : Handling m₀ m f)
    (hstep : trapHandler m f = (m', some f')) : Handling m₀ m' f' := by
  have hpics := h.pics
  cases hpoint : f.point with
  | count =>
      rw [InterruptAcknowledge.trapHandler, hpoint] at hstep
      rw [Frame.owed, hpoint] at hpics
      cases hstep
      exact h.goto .note hpics
  | note =>
      rw [InterruptAcknowledge.trapHandler, hpoint] at hstep
      rw [Frame.owed, hpoint] at hpics
      cases hstep
      exact h.goto .report hpics
  | report =>
      rw [InterruptAcknowledge.trapHandler, hpoint] at hstep
      rw [Frame.owed, hpoint] at hpics
      cases hstep
      refine h.goto .callback ?_
      split_ifs
      · exact hpics
      · exact hpics
  | callback =>
      rw [InterruptAcknowledge.trapHandler, hpoint] at hstep
      rw [Frame.owed, hpoint] at hpics
      cases hstep
      exact h.goto .eoiMaster hpics
  | eoiMaster =>
      have hrestored := master_restored h.real h.accept h.harmless
      rw [InterruptAcknowledge.trapHandler, hpoint, h.eoiArgument_eq] at hstep
      rw [Frame.owed, hpoint] at hpics
      cases hstep
      refine h.goto .eoiSlave ?_
      have hmaster := hrestored.trans (Finset.empty_union m₀.pics.master).symm
      split_ifs at hmaster ⊢
      · rw [hpics]
        exact congrArg (Pics.mk · (f.trap.lines.slave ∪ m₀.pics.slave)) hmaster
      · rw [hpics]
        exact congrArg (Pics.mk · (f.trap.lines.slave ∪ m₀.pics.slave)) hmaster
  | eoiSlave =>
      have hrestored := slave_restored h.real h.accept h.harmless
      rw [InterruptAcknowledge.trapHandler, hpoint, h.eoiArgument_eq] at hstep
      rw [Frame.owed, hpoint] at hpics
      cases hstep
      refine h.goto .returning ?_
      have hslave := hrestored.trans (Finset.empty_union m₀.pics.slave).symm
      split_ifs at hslave ⊢
      · rw [hpics]
        exact congrArg (Pics.mk (∅ ∪ m₀.pics.master)) hslave
      · rw [hpics]
        exact congrArg (Pics.mk (∅ ∪ m₀.pics.master)) hslave
  | returning =>
      rw [InterruptAcknowledge.trapHandler, hpoint] at hstep
      cases hstep

/-- A handler that returns has put the pics back. -/
theorem Handling.returned {m₀ m m' : Machine} {f : Frame} (h : Handling m₀ m f)
    (hstep : InterruptAcknowledge.trapHandler m f = (m', none)) : m'.pics = m₀.pics := by
  have hpics := h.pics
  cases hpoint : f.point with
  | returning =>
      rw [InterruptAcknowledge.trapHandler, hpoint] at hstep
      rw [Frame.owed, hpoint, Pics.mark_none] at hpics
      cases hstep
      exact hpics
  | _ =>
      rw [InterruptAcknowledge.trapHandler, hpoint] at hstep
      cases hstep

theorem traps_invariant :
    traps.Invariant Harmless Handling fun m₀ m => m.pics = m₀.pics where
  enter _ _ _ _ hharmless hdeliver := deliver_handling hharmless hdeliver
  advance _ _ _ _ _ _ h hstep := h.trapHandler (Option.some.inj hstep)
  leave _ _ _ _ _ h hstep := h.returned (Option.some.inj hstep)
  resume _ _ _ _ h hpics := { h with pics := hpics.trans h.pics }
  trans _ _ _ h₁ h₂ := h₂.trans h₁

theorem acknowledged_of_stacked {base : Machine} {c : Config Machine Frame}
    (hs : Activations.Stacked Handling (fun m₀ m => m.pics = m₀.pics) base c.1 c.2) :
    Acknowledged c := by
  obtain ⟨m, frames⟩ := c
  constructor
  · apply hs.forall_frames (fun m₀ m => m.pics.Covers m₀.pics) (fun m f => m.pics.Covers f.owed)
    · intro m₀ m f h
      rw [h.pics]
      exact ⟨Finset.subset_union_right, Finset.subset_union_right⟩
    · intro m₀ m f h
      rw [h.pics]
      exact ⟨Finset.subset_union_left, Finset.subset_union_left⟩
    · intro m₀ m f howed hbelow
      exact ⟨howed.1.trans hbelow.1, howed.2.trans hbelow.2⟩
  · intro f fs hframes hpoint _
    cases hframes
    cases hs with
    | frame h _ =>
        have hpics := h.pics
        rw [Frame.owed, hpoint, Pics.mark_none] at hpics
        rw [h.entry, mark_clear h.accept]
        exact hpics

/-- In a run whose software interrupts are harmless every handler acknowledges
its own IRQ and no other. -/
theorem trap_handler_acknowledges {m : Machine} {events : List (Event Trap Unit)}
    {c : Config Machine Frame} (hrun : traps.run (m, []) events = some c)
    (hharmless : traps.Meets Harmless (m, []) events) : Acknowledged c :=
  acknowledged_of_stacked (traps_invariant.run hharmless (.idle rfl) hrun)

/-- A software interrupt outside of any handler, then nested IRQs of both PICs;
the handler of IRQ 9 is about to return. -/
theorem trap_handler_acknowledges_nested :
    let m : Machine :=
      { pics := { master := ∅, slave := ∅ }, trapCounter := 0, lastTrapno := 0, log := [] }
    let events : List (Event Trap Unit) :=
      .enter (.software 0x80) :: List.replicate 7 (.advance ()) ++
        .enter (.masterIrq 4) :: List.replicate 3 (.advance ()) ++
        .enter (.slaveIrq 1) :: List.replicate 6 (.advance ())
    ∃ c, traps.run (m, []) events = some c ∧ Acknowledged c := by
  intro m events
  have hmeets : traps.Meets Harmless (m, []) events := by decide
  have hrun : (traps.run (m, []) events).isSome := by decide
  obtain ⟨c, hc⟩ := Option.isSome_iff_exists.mp hrun
  exact ⟨c, hc, trap_handler_acknowledges hc hmeets⟩

/-- The state after the statements of `trap_handler`. -/
def Machine.handled (m : Machine) (trapno : BitVec 32) : Machine where
  pics :=
    { master := if x86Pic1Offset ≤ eoiArgument trapno then endOfInterrupt m.pics.master
        else m.pics.master
      slave := if x86Pic2Offset ≤ eoiArgument trapno then endOfInterrupt m.pics.slave
        else m.pics.slave }
  trapCounter := m.trapCounter + 1
  lastTrapno := trapno
  log := if trapno ≠ BitVec.ofNat 32 x86Pic1Offset then (m.trapCounter + 1, trapno) :: m.log
    else m.log

/-- A handler that nothing interrupts, up to its return. -/
theorem trapHandler_run (m : Machine) (trap : Trap) (entry : Pics) (trapno : BitVec 32)
    (frames : List Frame) :
    traps.run (m, { trap, entry, trapno, point := .count } :: frames)
        (List.replicate 6 (.advance ())) =
      some (m.handled trapno, { trap, entry, trapno, point := .returning } :: frames) := by
  change some (_, _) = _
  rw [Machine.handled]
  split_ifs <;> rfl

/-- A software interrupt is accepted whatever is in service. -/
theorem software_enters (c : Config Machine Frame) {vector : ℕ} (h : vector < 256) :
    traps.fire c (.enter (.software vector)) = some (c.1,
      { trap := .software vector, entry := c.1.pics, trapno := BitVec.ofNat 32 vector
        point := .count } :: c.2) := by
  have hmark : c.1.pics.mark (Trap.software vector).lines = c.1.pics := c.1.pics.mark_none
  have haccept : c.1.pics.Accept (Trap.software vector).lines :=
    ⟨fun _ hn => absurd hn (Finset.notMem_empty _), fun _ hn => absurd hn (Finset.notMem_empty _)⟩
  change (deliver c.1 (.software vector)).map _ = _
  rw [deliver, if_pos ⟨h, haccept⟩, hmark]
  rfl

/-- Every bit in service is owed an EOI by the handler of an IRQ. -/
def Owed (c : Config Machine Frame) : Prop :=
  (∀ n ∈ c.1.pics.master, ∃ f ∈ c.2, n ∈ f.owed.master) ∧
    ∀ n ∈ c.1.pics.slave, ∃ f ∈ c.2, n ∈ f.owed.slave

theorem owed_of_stacked {base m : Machine} {frames : List Frame}
    (hs : Activations.Stacked Handling (fun m₀ m => m.pics = m₀.pics) base m frames)
    (hbase : base.pics = { master := ∅, slave := ∅ }) : Owed (m, frames) := by
  induction hs with
  | idle hpics =>
      rw [Owed, hpics, hbase]
      exact ⟨fun _ hn => absurd hn (Finset.notMem_empty _),
        fun _ hn => absurd hn (Finset.notMem_empty _)⟩
  | @frame m₀ m f frames h hbelow ih =>
      rw [Owed, h.pics]
      constructor
      · intro n hn
        cases Finset.mem_union.mp hn with
        | inl hn => exact ⟨f, List.mem_cons_self, hn⟩
        | inr hn =>
            obtain ⟨g, hg, hn⟩ := ih.1 n hn
            exact ⟨g, List.mem_cons_of_mem f hg, hn⟩
      · intro n hn
        cases Finset.mem_union.mp hn with
        | inl hn => exact ⟨f, List.mem_cons_self, hn⟩
        | inr hn =>
            obtain ⟨g, hg, hn⟩ := ih.2 n hn
            exact ⟨g, List.mem_cons_of_mem f hg, hn⟩

/-- After a run from idle controllers whose software interrupts are harmless. -/
theorem owed_of_run {m : Machine} {events : List (Event Trap Unit)} {c : Config Machine Frame}
    (hidle : m.pics = { master := ∅, slave := ∅ }) (hrun : traps.run (m, []) events = some c)
    (hharmless : traps.Meets Harmless (m, []) events) : Owed c :=
  owed_of_stacked (traps_invariant.run hharmless (.idle rfl) hrun) hidle

/-- An EOI that finds something in service clears some of it. -/
theorem endOfInterrupt_ne {inService : Finset ℕ} (h : inService ≠ ∅) :
    endOfInterrupt inService ≠ inService := by
  intro heq
  obtain ⟨n, hn, hgone⟩ := endOfInterrupt_clears (Finset.nonempty_of_ne_empty h)
  exact hgone (heq.symm ▸ hn)

/-- The EOIs for a vector, by its number. -/
theorem handled_pics (m : Machine) {vector : ℕ} (hvector : vector < 256) :
    (m.handled (BitVec.ofNat 32 vector)).pics =
      { master := if x86Pic1Offset ≤ vector then endOfInterrupt m.pics.master else m.pics.master
        slave := if x86Pic2Offset ≤ vector then endOfInterrupt m.pics.slave
          else m.pics.slave } := by
  have harg : eoiArgument (BitVec.ofNat 32 vector) = vector :=
    @eoiArgument_eq (.software vector) hvector
  rw [Machine.handled, harg]

/-- The handler of a software interrupt keeps the controllers only if it is
harmless. -/
theorem harmless_of_pics {m : Machine} {vector : ℕ} (hvector : vector < 256)
    (h : (m.handled (BitVec.ofNat 32 vector)).pics = m.pics) : Harmless m (.software vector) := by
  rw [handled_pics m hvector] at h
  constructor
  · intro hfirst
    have hmaster := congrArg Pics.master h
    simp only [if_pos hfirst] at hmaster
    by_contra hne
    exact endOfInterrupt_ne hne hmaster
  · intro hsecond
    have hslave := congrArg Pics.slave h
    simp only [if_pos hsecond] at hslave
    by_contra hne
    exact endOfInterrupt_ne hne hslave

/-- Nor do the handlers below get the EOIs they are owed. -/
theorem harmless_of_owed {c : Config Machine Frame} {vector : ℕ} (hvector : vector < 256)
    (howed : Owed c)
    (h : ∀ f ∈ c.2, (c.1.handled (BitVec.ofNat 32 vector)).pics.Covers f.owed) :
    Harmless c.1 (.software vector) := by
  rw [handled_pics c.1 hvector] at h
  constructor
  · intro hfirst
    by_contra hne
    obtain ⟨n, hn, hgone⟩ := endOfInterrupt_clears (Finset.nonempty_of_ne_empty hne)
    obtain ⟨f, hf, hnf⟩ := howed.1 n hn
    have hstill := (h f hf).1 hnf
    rw [if_pos hfirst] at hstill
    exact hgone hstill
  · intro hsecond
    by_contra hne
    obtain ⟨n, hn, hgone⟩ := endOfInterrupt_clears (Finset.nonempty_of_ne_empty hne)
    obtain ⟨f, hf, hnf⟩ := howed.2 n hn
    have hstill := (h f hf).2 hnf
    rw [if_pos hsecond] at hstill
    exact hgone hstill

/-- The condition is needed, of each software interrupt by itself: wherever one comes
that is not harmless, its own handler, about to return, has acknowledged what is not
its own. For the vectors of the controllers the bits must be those of handlers that
wait below. -/
theorem unharmless_acknowledges_early {c : Config Machine Frame} {vector : ℕ}
    (hvector : vector < 256) (h : ¬ Harmless c.1 (.software vector))
    (howed : PicVector vector → Owed c) :
    ∃ c', traps.run c (.enter (.software vector) :: List.replicate 6 (.advance ())) = some c' ∧
      ¬ Acknowledged c' := by
  have henter := software_enters c hvector
  have hrun := trapHandler_run c.1 (.software vector) c.1.pics (BitVec.ofNat 32 vector) c.2
  refine ⟨_, by rw [Activations.run, henter, Option.bind_some, hrun], fun hack => h ?_⟩
  by_cases hpic : PicVector vector
  · exact harmless_of_owed hvector (howed hpic) fun f hf =>
      hack.served f (List.mem_cons_of_mem _ hf)
  · have hpics := hack.returned _ _ rfl rfl (.inr hpic)
    exact harmless_of_pics hvector (hpics.trans c.1.pics.clear_none)

/-- `int $0x80` in the callback of the keyboard's IRQ. -/
theorem trap_handler_acknowledges_early :
    ∃ (m : Machine) (events : List (Event Trap Unit)) (c : Config Machine Frame),
      traps.run (m, []) events = some c ∧ ¬ Acknowledged c := by
  let m : Machine :=
    { pics := { master := ∅, slave := ∅ }, trapCounter := 0, lastTrapno := 0, log := [] }
  let keyboard : Frame :=
    { trap := .masterIrq 1, entry := { master := {1}, slave := ∅ }, trapno := 0x21
      point := .callback }
  let call : Frame :=
    { trap := .software 0x80, entry := { master := {1}, slave := ∅ }, trapno := 0x80
      point := .returning }
  refine ⟨m, .enter (.masterIrq 1) :: List.replicate 3 (.advance ()) ++
    .enter (.software 0x80) :: List.replicate 6 (.advance ()),
    ({ pics := { master := ∅, slave := ∅ }, trapCounter := 2, lastTrapno := 0x80
       log := [(2, 0x80), (1, 0x21)] }, [call, keyboard]), by decide, fun h => ?_⟩
  have hpics := h.returned call [keyboard] rfl rfl (.inr fun hpic => absurd hpic.2 (by decide))
  exact absurd hpics (by decide)

end Yack.InterruptAcknowledge
