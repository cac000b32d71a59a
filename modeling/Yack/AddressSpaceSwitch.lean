import Yack.MemoryLayout

/-!
# Switching the address space

`x86_set_cr3` of `arch/i386/include/x86.h` and `kmv_switch` of `kernel/mm/kvm.c`.
The assembly reads `cr3`, joins the argument in with `orl` and writes the result
back, so the register collects the bits of every directory that was ever loaded.
What a switch is for is stated about the processor's walk, from every memory.
-/
namespace Yack.AddressSpaceSwitch
open ByteMemory MemoryLayout

/-- The control register and the static `kpagedir_`. -/
structure Cpu where
  cr3 : BitVec 32
  kpagedir : Addr
  deriving DecidableEq, Repr

/-- `movl %cr3, %eax; orl value, %eax; movl %eax, %cr3`. -/
def x86SetCr3 (value : BitVec 32) (cpu : Cpu) : Cpu :=
  let eax := cpu.cr3
  let eax := eax ||| value
  { cpu with cr3 := eax }

def kmvSwitch (cpu : Cpu) : Cpu := x86SetCr3 (mmPhysaddr cpu.kpagedir) cpu

inductive Switch where
  | x86SetCr3 (value : BitVec 32)
  | kmvSwitch
  deriving DecidableEq, Repr

/-- The physical address of the directory a call names. -/
def Switch.directory (kpagedir : Addr) : Switch → Addr
  | .x86SetCr3 value => value
  | .kmvSwitch => mmPhysaddr kpagedir

def Switch.run (cpu : Cpu) : Switch → Cpu
  | .x86SetCr3 value => AddressSpaceSwitch.x86SetCr3 value cpu
  | .kmvSwitch => AddressSpaceSwitch.kmvSwitch cpu

def runSwitches (cpu : Cpu) (calls : List Switch) : Cpu := calls.foldl Switch.run cpu

/-- The walk from `cr3` is the walk through `directory`, in every memory. -/
def TakesEffect (cr3 directory : Addr) : Prop :=
  ∀ m v, pageWalk m cr3 v = pageWalk m directory v

/-- No address bit of `cr3` or of an earlier directory is missing in the last. -/
def NothingLeft (cpu : Cpu) (calls : List Switch) (last : Switch) : Prop :=
  ∀ k, 12 ≤ k → (cpu.cr3.getLsbD k = true ∨
    ∃ c ∈ calls, (c.directory cpu.kpagedir).getLsbD k = true) →
    (last.directory cpu.kpagedir).getLsbD k = true

section Switches
variable {cpu : Cpu} {calls : List Switch} {last : Switch}

theorem Switch.run_eq (cpu : Cpu) (c : Switch) :
    c.run cpu = ⟨cpu.cr3 ||| c.directory cpu.kpagedir, cpu.kpagedir⟩ := by
  cases c <;> rfl

/-- The run lemma: `cr3` holds its old bits and those of every argument. -/
theorem runSwitches_bits (cpu : Cpu) (calls : List Switch) (k : ℕ) :
    (runSwitches cpu calls).kpagedir = cpu.kpagedir ∧
      ((runSwitches cpu calls).cr3.getLsbD k = true ↔ cpu.cr3.getLsbD k = true ∨
        ∃ c ∈ calls, (c.directory cpu.kpagedir).getLsbD k = true) := by
  induction calls generalizing cpu with
  | nil => simp [runSwitches]
  | cons c calls ih =>
      obtain ⟨hdir, hbits⟩ := ih (c.run cpu)
      rw [Switch.run_eq] at hdir hbits
      rw [runSwitches, List.foldl_cons, Switch.run_eq]
      refine ⟨hdir, hbits.trans ?_⟩
      simp only [BitVec.getLsbD_or, Bool.or_eq_true, List.mem_cons, exists_eq_or_imp, or_assoc]

/-- Only the bits above the page offset select the directory. -/
theorem takesEffect_of_base {cr3 directory : Addr}
    (h : x86PteAddr cr3 = x86PteAddr directory) : TakesEffect cr3 directory := by
  intro m v
  simp only [pageWalk, h]

/-- The word of the directory entry for address 0, as the processor reads it. -/
def firstEntry (directory : Addr) : Addr := mmVirtaddr (entryAddr (x86PteAddr directory) 0)

theorem firstEntry_aligned (directory : Addr) : Aligned4 (firstEntry directory) := by
  have hentry : Aligned4 (entryAddr (x86PteAddr directory) 0) :=
    entryAddr_aligned (pageAligned_pagedown directory) (by decide)
  unfold firstEntry Aligned4 mmVirtaddr x86KernelBase at *
  bv_omega

theorem firstEntry_inj {a b : Addr} (h : firstEntry a = firstEntry b) :
    x86PteAddr a = x86PteAddr b := by
  have hphys := congrArg mmPhysaddr h
  rw [firstEntry, firstEntry, mmPhysaddr_virtaddr, mmPhysaddr_virtaddr] at hphys
  exact ((entryAddr_inj (pageAligned_pagedown a) (pageAligned_pagedown b) (by decide)
    (by decide)).mp hphys).1

theorem pageWalk_absent {m : Memory Addr} {cr3 : Addr} (h : m.loadWord (firstEntry cr3) = 0) :
    pageWalk m cr3 0 = none := by
  have hentry : physWord m (entryAddr (x86PteAddr cr3) (x86PdIndex 0)) = 0 := h
  have hflag : hasFlag 0 x86PdePresent = false := by decide
  simp only [pageWalk, hentry, hflag]
  rfl

theorem pageWalk_present {m : Memory Addr} {cr3 : Addr} (h : m.loadWord (firstEntry cr3) = 0x81) :
    pageWalk m cr3 0 = some ⟨0, false, false⟩ := by
  have hentry : physWord m (entryAddr (x86PteAddr cr3) (x86PdIndex 0)) = 0x81 := h
  have hflag : hasFlag 0x81 x86PdePresent = true ∧ hasFlag 0x81 x86PdePs = true ∧
      hasFlag 0x81 reservedPs = false := by decide
  simp only [pageWalk, hentry, hflag, if_true]
  rfl

/-- A memory with one present entry tells two directories apart. -/
theorem TakesEffect.base {cr3 directory : Addr} (h : TakesEffect cr3 directory) :
    x86PteAddr cr3 = x86PteAddr directory := by
  by_contra hne
  have hapart : firstEntry cr3 ≠ firstEntry directory := fun e => hne (firstEntry_inj e)
  let zero : Memory Addr := ⟨fun _ => 0, []⟩
  have hblank : (zero.storeWord (firstEntry directory) 0x81).loadWord (firstEntry cr3) = 0 := by
    rw [Memory.loadWord_storeWord_aligned _ _ (firstEntry_aligned directory)
      (firstEntry_aligned cr3), if_neg hapart]
    simp only [Memory.loadWord, zero]
    rfl
  have hwalk := h (zero.storeWord (firstEntry directory) 0x81) 0
  rw [pageWalk_absent hblank, pageWalk_present (Memory.loadWord_storeWord _ _ _)] at hwalk
  cases hwalk

end Switches

/-- A switch takes effect exactly when no bit is left over from the register or
from a directory loaded before. -/
theorem switch_takes_effect_iff (cpu : Cpu) (calls : List Switch) (last : Switch)
    (haligned : ∀ c ∈ calls ++ [last], PageAligned (c.directory cpu.kpagedir)) :
    TakesEffect (runSwitches cpu (calls ++ [last])).cr3 (last.directory cpu.kpagedir) ↔
      NothingLeft cpu calls last := by
  have hlast : PageAligned (last.directory cpu.kpagedir) := haligned last (by simp)
  have hbits : ∀ k, (runSwitches cpu (calls ++ [last])).cr3.getLsbD k = true ↔
      (cpu.cr3.getLsbD k = true ∨ ∃ c ∈ calls, (c.directory cpu.kpagedir).getLsbD k = true) ∨
        (last.directory cpu.kpagedir).getLsbD k = true := by
    intro k
    rw [(runSwitches_bits cpu (calls ++ [last]) k).2]
    simp only [List.mem_append, List.mem_singleton, or_and_right, exists_or, exists_eq_left,
      or_assoc]
  constructor
  · intro h k hk hold
    have hbase := congrArg (fun a => a.getLsbD k) h.base
    simp only [x86PteAddr_eq, mmPagedown_getLsbD, hk, decide_true, Bool.true_and] at hbase
    rw [← hbase]
    exact (hbits k).mpr (.inl hold)
  · intro h
    apply takesEffect_of_base
    apply BitVec.eq_of_getLsbD_eq
    intro k hk
    rw [x86PteAddr_eq, x86PteAddr_eq, mmPagedown_getLsbD, mmPagedown_getLsbD]
    by_cases h12 : 12 ≤ k
    · simp only [h12, decide_true, Bool.true_and]
      rw [Bool.eq_iff_iff, hbits k]
      exact ⟨fun hor => hor.elim (h k h12) id, .inr⟩
    · simp [h12]

/-- From a directory at 1 MB to one whose address contains its bits. -/
theorem switch_takes_effect_contained :
    TakesEffect (runSwitches ⟨0x00110000, 0x80118000⟩ [.kmvSwitch]).cr3 0x00118000 :=
  (switch_takes_effect_iff ⟨0x00110000, 0x80118000⟩ [] .kmvSwitch (by decide)).mpr (by
    intro k hk hold
    obtain hold | ⟨c, hc, -⟩ := hold
    · have hbits : (0x00118000 : Addr) = 0x00110000 ||| 0x00118000 := by decide
      change (0x00118000 : Addr).getLsbD k = true
      rw [hbits, BitVec.getLsbD_or, hold, Bool.true_or]
    · cases hc)

/-- From `0x00111000` the switch to `0x00118000` loads `0x00119000`. -/
theorem switch_keeps_old_bits :
    (runSwitches ⟨0x00111000, 0x80118000⟩ [.kmvSwitch]).cr3 = 0x00119000 ∧
      ¬ TakesEffect (runSwitches ⟨0x00111000, 0x80118000⟩ [.kmvSwitch]).cr3
        (Switch.kmvSwitch.directory 0x80118000) := by
  refine ⟨by decide, ?_⟩
  intro h
  exact absurd h.base (by decide)

end Yack.AddressSpaceSwitch
