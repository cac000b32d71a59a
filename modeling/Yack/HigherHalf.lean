import Yack.MemoryLayout
import Mathlib.Logic.Relation
import Mathlib.Tactic.IntervalCases

/-!
# Into the higher half: `entry.S` and `paging.c`

The boot loader enters `_start` at its physical address with paging off. The code
turns paging on under its own feet: until the jump it runs at addresses that the
directory maps to themselves, after it at the addresses the kernel is linked to.

The processor fetches every instruction through the translation of the moment, so
a run exists only if no fetch and no push misses.
-/
namespace Yack.HigherHalf
open ByteMemory MemoryLayout

inductive Control where
  | cr0
  | cr3
  | cr4
  deriving DecidableEq, Repr

structure Cpu where
  control : Control → BitVec 32
  eax : BitVec 32
  ecx : BitVec 32
  esp : BitVec 32
  eip : BitVec 32
  mem : Memory Addr

def x86Cr0Wp : BitVec 32 := 0x00010000
def x86Cr0Pg : BitVec 32 := 0x80000000
def x86Cr4Pse : BitVec 32 := 0x10
def x86Cr4Pae : BitVec 32 := 0x20

/-- The walk without page size extension, where bit 7 of an entry means nothing. -/
def smallWalk (m : Memory Addr) (cr3 v : Addr) : Option Translation :=
  let pde := physWord m (entryAddr (x86PteAddr cr3) (x86PdIndex v))
  let pte := physWord m (entryAddr (x86PteAddr pde) (x86PtIndex v))
  if hasFlag pde x86PdePresent && hasFlag pte x86PtePresent then
    some ⟨x86PteAddr pte ||| (v &&& 0xFFF), hasFlag pde x86PdeRw && hasFlag pte x86PdeRw,
      hasFlag pde x86PdeUs && hasFlag pte x86PdeUs⟩
  else none

/-- Physical address extension is never on. -/
def Cpu.translate (s : Cpu) (v : Addr) : Option Translation :=
  if hasFlag (s.control .cr0) x86Cr0Pg then
    if hasFlag (s.control .cr4) x86Cr4Pae then none
    else if hasFlag (s.control .cr4) x86Cr4Pse then pageWalk s.mem (s.control .cr3) v
    else smallWalk s.mem (s.control .cr3) v
  else some ⟨v, true, true⟩

/-- The physical address of `v`, if the `size` bytes from there follow it. -/
def Cpu.reach (s : Cpu) (v : Addr) (size : ℕ) : Option Addr :=
  match s.translate v with
  | none => none
  | some t =>
      if ∀ k < size, (s.translate (v + BitVec.ofNat 32 k)).map Translation.phys =
          some (t.phys + BitVec.ofNat 32 k) then some t.phys
      else none

/-- The instructions of `entry.S`. -/
inductive Instr where
  | movlFromControl (c : Control)
  | orlEax (imm : BitVec 32)
  | movlToControl (c : Control)
  | leaEax (addr : Addr)
  | leaEcx (addr : Addr)
  | jmpEcx
  | movlEsp (imm : BitVec 32)
  | call (target : Addr)
  | cli
  | hlt
  | jmp (target : Addr)
  deriving DecidableEq, Repr

/-- The instruction at a physical address, and how many bytes it takes. -/
abbrev Text := Addr → Option (Instr × ℕ)

def Cpu.push (s : Cpu) (w : BitVec 32) : Option Cpu :=
  (s.reach (s.esp - 4) 4).map fun pa =>
    { s with esp := s.esp - 4, mem := s.mem.storeWord (mmVirtaddr pa) w }

/-- With interrupts off nothing ends a `hlt`. -/
def Cpu.exec (s : Cpu) (next : Addr) : Instr → Option Cpu
  | .movlFromControl c => some { s with eax := s.control c, eip := next }
  | .orlEax imm => some { s with eax := s.eax ||| imm, eip := next }
  | .movlToControl c => some { s with control := Function.update s.control c s.eax, eip := next }
  | .leaEax addr => some { s with eax := addr, eip := next }
  | .leaEcx addr => some { s with ecx := addr, eip := next }
  | .jmpEcx => some { s with eip := s.ecx }
  | .movlEsp imm => some { s with esp := imm, eip := next }
  | .call target => (s.push next).map fun s => { s with eip := target }
  | .cli => some { s with eip := next }
  | .hlt => none
  | .jmp target => some { s with eip := target }

def Text.step (text : Text) (s : Cpu) : Option Cpu :=
  match s.translate s.eip with
  | none => none
  | some t =>
      match text t.phys with
      | none => none
      | some (i, size) =>
          if s.reach s.eip size = some t.phys then s.exec (s.eip + BitVec.ofNat 32 size) i
          else none

def Text.Reaches (text : Text) : Cpu → Cpu → Prop :=
  Relation.ReflTransGen fun s s' => text.step s = some s'

/-- Where the linker put the symbols of `entry.S`, and the label `1`. -/
structure Symbols where
  start : Addr
  higherHalf : Addr
  x86PageDirectory : Addr
  stackTop : Addr
  init : Addr
  kmain : Addr
  hang : Addr

def startCode (l : Symbols) : List Instr :=
  [.movlFromControl .cr4, .orlEax x86Cr4Pse, .movlToControl .cr4,
    .leaEax (mmPhysaddr l.x86PageDirectory), .movlToControl .cr3,
    .movlFromControl .cr0, .orlEax (x86Cr0Pg ||| x86Cr0Wp), .movlToControl .cr0,
    .leaEcx l.higherHalf, .jmpEcx]

def higherHalfCode (l : Symbols) : List Instr :=
  [.movlEsp l.stackTop, .call l.init, .call l.kmain, .cli, .hlt, .jmp l.hang]

/-- The initialiser of `x86_page_directory`. -/
def x86PageDirectory (index : Addr) : BitVec 32 :=
  if index = 0 ∨ index = x86PdIndex x86KernelBase then
    x86PdePresent ||| x86PdeRw ||| x86PdePs
  else 0

/-- The loader put the code there, inside the first 4 MB. -/
def Text.Placed (text : Text) : Addr → List Instr → Prop
  | _, [] => True
  | pa, i :: is => ∃ size : ℕ, 0 < size ∧ pa.toNat + size ≤ 0x400000 ∧
      text pa = some (i, size) ∧ text.Placed (pa + BitVec.ofNat 32 size) is

/-- What the boot directory maps: the first 4 MB twice. -/
def bootMap (v : Addr) : Option Translation :=
  if v.toNat < 0x400000 then some ⟨v, true, false⟩
  else if 0x80000000 ≤ v.toNat ∧ v.toNat < 0x80400000 then some ⟨mmPhysaddr v, true, false⟩
  else none

/-- Without its first entry, as `kvm_init` leaves it. -/
def kernelMap (v : Addr) : Option Translation :=
  if 0x80000000 ≤ v.toNat ∧ v.toNat < 0x80400000 then some ⟨mmPhysaddr v, true, false⟩
  else none

section Directory
variable {m : Memory Addr} {directory v : Addr}

theorem offset_toNat (v : Addr) : (v &&& 0x3FFFFF).toNat = v.toNat % 0x400000 := by
  have hmask : (0x3FFFFF : Addr).toNat = 2 ^ 22 - 1 := rfl
  rw [BitVec.toNat_and, hmask, Nat.and_two_pow_sub_one_eq_mod]

/-- A 4 MB page of frame 0. -/
theorem walk_big (haligned : PageAligned directory)
    (hentry : m.loadWord (entryAddr directory (x86PdIndex v)) =
      x86PdePresent ||| x86PdeRw ||| x86PdePs) :
    pageWalk m (mmPhysaddr directory) v = some ⟨v &&& 0x3FFFFF, true, false⟩ := by
  have hbase : x86PteAddr (mmPhysaddr directory) = mmPhysaddr directory :=
    (pageAligned_physaddr.mpr haligned).pagedown
  have hpde : physWord m (entryAddr (x86PteAddr (mmPhysaddr directory)) (x86PdIndex v)) =
      x86PdePresent ||| x86PdeRw ||| x86PdePs := by
    rw [hbase, physWord_entry, mmVirtaddr_physaddr, hentry]
  simp only [pageWalk, hpde]
  simp [hasFlag, x86PdePresent, x86PdeRw, x86PdePs, x86PdeUs, reservedPs]

theorem walk_absent (haligned : PageAligned directory)
    (hentry : m.loadWord (entryAddr directory (x86PdIndex v)) = 0) :
    pageWalk m (mmPhysaddr directory) v = none := by
  have hbase : x86PteAddr (mmPhysaddr directory) = mmPhysaddr directory :=
    (pageAligned_physaddr.mpr haligned).pagedown
  have hpde : physWord m (entryAddr (x86PteAddr (mmPhysaddr directory)) (x86PdIndex v)) = 0 := by
    rw [hbase, physWord_entry, mmVirtaddr_physaddr, hentry]
  simp only [pageWalk, hpde]
  rfl

theorem index_cases (v : Addr) : (x86PdIndex v = 0 ↔ v.toNat < 0x400000) ∧
    (x86PdIndex v = x86PdIndex x86KernelBase ↔ 0x80000000 ≤ v.toNat ∧ v.toNat < 0x80400000) := by
  have hindex := x86PdIndex_toNat v
  have hbase : (x86PdIndex x86KernelBase).toNat = 512 := by decide
  constructor
  · constructor
    · intro h
      rw [h] at hindex
      have hzero : (0 : Addr).toNat = 0 := rfl
      omega
    · intro h
      apply BitVec.eq_of_toNat_eq
      rw [hindex]
      exact Nat.div_eq_of_lt h
  · constructor
    · intro h
      rw [h, hbase] at hindex
      omega
    · intro h
      apply BitVec.eq_of_toNat_eq
      rw [hindex, hbase]
      omega

theorem low_offset (h : v.toNat < 0x400000) : v &&& 0x3FFFFF = v := by
  apply BitVec.eq_of_toNat_eq
  rw [offset_toNat, Nat.mod_eq_of_lt h]

theorem high_offset (h : 0x80000000 ≤ v.toNat ∧ v.toNat < 0x80400000) :
    v &&& 0x3FFFFF = mmPhysaddr v := by
  have hphys : (mmPhysaddr v).toNat = v.toNat - 0x80000000 := by
    unfold mmPhysaddr x86KernelBase
    bv_omega
  apply BitVec.eq_of_toNat_eq
  rw [offset_toNat, hphys]
  omega

theorem directory_entry (v : Addr) : x86PageDirectory (x86PdIndex v) =
    if v.toNat < 0x400000 ∨ 0x80000000 ≤ v.toNat ∧ v.toNat < 0x80400000 then
      x86PdePresent ||| x86PdeRw ||| x86PdePs
    else 0 := by
  obtain ⟨hlow, hhigh⟩ := index_cases v
  simp only [x86PageDirectory, hlow, hhigh]

theorem boot_walk (haligned : PageAligned directory)
    (hentries : ∀ i : Addr, i.toNat < 1024 →
      m.loadWord (entryAddr directory i) = x86PageDirectory i) (v : Addr) :
    pageWalk m (mmPhysaddr directory) v = bootMap v := by
  have hentry := hentries (x86PdIndex v) (x86PdIndex_lt v)
  rw [directory_entry] at hentry
  rw [bootMap]
  by_cases h : v.toNat < 0x400000
  · rw [if_pos (.inl h)] at hentry
    rw [walk_big haligned hentry, low_offset h, if_pos h]
  · rw [if_neg h]
    by_cases h' : 0x80000000 ≤ v.toNat ∧ v.toNat < 0x80400000
    · rw [if_pos (.inr h')] at hentry
      rw [walk_big haligned hentry, high_offset h', if_pos h']
    · rw [if_neg (not_or.mpr ⟨h, h'⟩)] at hentry
      rw [walk_absent haligned hentry, if_neg h']

/-- The store of `kvm_init` clears the first entry and no other one. -/
theorem cleared_entries (haligned : PageAligned directory)
    (hentries : ∀ i : Addr, i.toNat < 1024 →
      m.loadWord (entryAddr directory i) = x86PageDirectory i) :
    ∀ i : Addr, i.toNat < 1024 → (m.storeWord (entryAddr directory 0) 0).loadWord
      (entryAddr directory i) = if i = 0 then 0 else x86PageDirectory i := by
  intro i hi
  have hinj : entryAddr directory i = entryAddr directory 0 ↔ i = 0 :=
    ⟨fun h => ((entryAddr_inj haligned haligned hi (by decide)).mp h).2, fun h => by rw [h]⟩
  rw [Memory.loadWord_storeWord_aligned _ _ (entryAddr_aligned haligned (by decide))
    (entryAddr_aligned haligned hi), hentries i hi]
  simp only [hinj]

/-- Without the first entry the low mapping is gone and nothing else. -/
theorem kernel_walk (haligned : PageAligned directory)
    (hentries : ∀ i : Addr, i.toNat < 1024 →
      m.loadWord (entryAddr directory i) = if i = 0 then 0 else x86PageDirectory i) (v : Addr) :
    pageWalk m (mmPhysaddr directory) v = kernelMap v := by
  have hlow := (index_cases v).1
  have hentry := hentries (x86PdIndex v) (x86PdIndex_lt v)
  rw [kernelMap]
  by_cases h : v.toNat < 0x400000
  · rw [if_pos (hlow.mpr h)] at hentry
    rw [walk_absent haligned hentry, if_neg (by omega)]
  · rw [if_neg (hlow.not.mpr h), directory_entry] at hentry
    by_cases h' : 0x80000000 ≤ v.toNat ∧ v.toNat < 0x80400000
    · rw [if_pos (.inr h')] at hentry
      rw [walk_big haligned hentry, high_offset h', if_pos h']
    · rw [if_neg (not_or.mpr ⟨h, h'⟩)] at hentry
      rw [walk_absent haligned hentry, if_neg h']

end Directory

section Fetch
variable {text : Text} {s s' : Cpu} {v pa : Addr} {size : ℕ} {i : Instr} {is : List Instr}

/-- From `v` on the processor sees the first 4 MB from `pa` on. -/
def Cpu.Sees (s : Cpu) (v pa : Addr) : Prop :=
  ∀ k : ℕ, pa.toNat + k < 0x400000 →
    (s.translate (v + BitVec.ofNat 32 k)).map Translation.phys = some (pa + BitVec.ofNat 32 k)

def Cpu.LowSeen (s : Cpu) : Prop :=
  ∀ v : Addr, v.toNat < 0x400000 → (s.translate v).map Translation.phys = some v

def Cpu.HighSeen (s : Cpu) : Prop :=
  ∀ v : Addr, 0x80000000 ≤ v.toNat ∧ v.toNat < 0x80400000 →
    (s.translate v).map Translation.phys = some (mmPhysaddr v)

theorem Cpu.LowSeen.sees (h : s.LowSeen) (pa : Addr) : s.Sees pa pa := by
  intro k hk
  refine h _ ?_
  bv_omega

theorem Cpu.HighSeen.sees (h : s.HighSeen) (pa : Addr) : s.Sees (mmVirtaddr pa) pa := by
  intro k hk
  have hphys : mmPhysaddr (mmVirtaddr pa + BitVec.ofNat 32 k) = pa + BitVec.ofNat 32 k := by
    unfold mmPhysaddr mmVirtaddr x86KernelBase
    bv_omega
  rw [← hphys]
  refine h _ ?_
  unfold mmVirtaddr x86KernelBase
  bv_omega

theorem Cpu.Sees.translate (h : s.Sees v pa) (hpa : pa.toNat < 0x400000) :
    ∃ t, s.translate v = some t ∧ t.phys = pa := by
  have hfirst := h 0 hpa
  rw [BitVec.add_zero, BitVec.add_zero] at hfirst
  exact Option.map_eq_some_iff.mp hfirst

theorem Cpu.Sees.reach (h : s.Sees v pa) (hsize : 0 < size) (hfit : pa.toNat + size ≤ 0x400000) :
    s.reach v size = some pa := by
  obtain ⟨t, htranslate, rfl⟩ := h.translate (by omega)
  rw [Cpu.reach, htranslate]
  exact if_pos fun k hk => h k (by omega)

/-- What is placed where the processor looks is executed. -/
theorem Text.step_placed (h : s.Sees s.eip pa) (hplaced : text.Placed pa (i :: is)) :
    ∃ size : ℕ, 0 < size ∧ pa.toNat + size ≤ 0x400000 ∧
      text.step s = s.exec (s.eip + BitVec.ofNat 32 size) i ∧
      text.Placed (pa + BitVec.ofNat 32 size) is := by
  obtain ⟨size, hsize, hfit, htext, hrest⟩ := hplaced
  obtain ⟨t, htranslate, rfl⟩ := h.translate (by omega)
  refine ⟨size, hsize, hfit, ?_, hrest⟩
  rw [Text.step, htranslate]
  simp only [htext, h.reach hsize hfit, if_true]

end Fetch

section Straight
variable {text : Text} {s : Cpu} {i : Instr} {is is' : List Instr}

/-- What an instruction does that goes on to the next one. -/
def Instr.effect (s : Cpu) : Instr → Cpu
  | .movlFromControl c => { s with eax := s.control c }
  | .orlEax imm => { s with eax := s.eax ||| imm }
  | .movlToControl c => { s with control := Function.update s.control c s.eax }
  | .leaEax addr => { s with eax := addr }
  | .leaEcx addr => { s with ecx := addr }
  | _ => s

def Instr.Straight : Instr → Prop
  | .movlFromControl _ | .orlEax _ | .movlToControl _ | .leaEax _ | .leaEcx _ => True
  | _ => False

theorem exec_straight (h : i.Straight) (s : Cpu) (next : Addr) :
    s.exec next i = some { i.effect s with eip := next } := by
  cases i <;> first | rfl | exact h.elim

theorem effect_eip (s : Cpu) (i : Instr) (eip : Addr) :
    i.effect { s with eip } = { i.effect s with eip } := by
  cases i <;> rfl

theorem effects_eip (is : List Instr) (s : Cpu) (eip : Addr) :
    is.foldl Instr.effect { s with eip } = { is.foldl Instr.effect s with eip } := by
  induction is generalizing s with
  | nil => rfl
  | cons i is ih => rw [List.foldl_cons, List.foldl_cons, effect_eip, ih]

/-- A straight line runs where the first 4 MB are seen at every step. -/
theorem runs_straight (hplaced : text.Placed s.eip (is ++ is')) (his : ∀ i ∈ is, i.Straight)
    (hlow : ∀ n ≤ is.length, ((is.take n).foldl Instr.effect s).LowSeen) :
    ∃ eip, text.Reaches s { is.foldl Instr.effect s with eip } ∧ text.Placed eip is' := by
  induction is generalizing s with
  | nil => exact ⟨s.eip, .refl, hplaced⟩
  | cons i is ih =>
      have hseen : s.Sees s.eip s.eip := Cpu.LowSeen.sees (hlow 0 (Nat.zero_le _)) s.eip
      obtain ⟨size, -, -, hstep, hrest⟩ := Text.step_placed hseen hplaced
      rw [exec_straight (his i (by simp))] at hstep
      obtain ⟨eip, hreach, hplaced'⟩ := @ih
        { i.effect s with eip := s.eip + BitVec.ofNat 32 size } hrest
        (fun j hj => his j (by simp [hj])) (by
          intro n hn v hv
          rw [effects_eip]
          exact hlow (n + 1) (by simpa using hn) v hv)
      refine ⟨eip, .head hstep ?_, hplaced'⟩
      rw [effects_eip] at hreach
      exact hreach

end Straight

/-- Paging through the boot directory. -/
structure Paged (l : Symbols) (s : Cpu) : Prop where
  pg : hasFlag (s.control .cr0) x86Cr0Pg = true
  pae : hasFlag (s.control .cr4) x86Cr4Pae = false
  pse : hasFlag (s.control .cr4) x86Cr4Pse = true
  cr3 : s.control .cr3 = mmPhysaddr l.x86PageDirectory

/-- As the boot loader leaves the machine. -/
structure Loaded (l : Symbols) (text : Text) (s : Cpu) : Prop where
  eip : s.eip = mmPhysaddr l.start
  pg : hasFlag (s.control .cr0) x86Cr0Pg = false
  pae : hasFlag (s.control .cr4) x86Cr4Pae = false
  start : text.Placed (mmPhysaddr l.start) (startCode l)
  higherHalf : text.Placed (mmPhysaddr l.higherHalf) (higherHalfCode l)
  aligned : PageAligned l.x86PageDirectory
  entries : ∀ i : Addr, i.toNat < 1024 →
    s.mem.loadWord (entryAddr l.x86PageDirectory i) = x86PageDirectory i
  stack : 0x80000004 ≤ l.stackTop.toNat ∧ l.stackTop.toNat ≤ 0x80400000
  apart : ∀ x, Within (l.stackTop - 4) 4 x → ¬ Within l.x86PageDirectory 4096 x

section Boot
variable {l : Symbols} {text : Text} {s s' : Cpu}

theorem Paged.congr (h : Paged l s) (hcontrol : s'.control = s.control) : Paged l s' :=
  ⟨hcontrol ▸ h.pg, hcontrol ▸ h.pae, hcontrol ▸ h.pse, hcontrol ▸ h.cr3⟩

theorem hasFlag_or (x y flag : BitVec 32) {k : ℕ} (hk : k < 32)
    (hflag : flag = BitVec.twoPow 32 k) :
    hasFlag (x ||| y) flag = (hasFlag x flag || hasFlag y flag) := by
  rw [hflag, hasFlag_twoPow _ hk, hasFlag_twoPow _ hk, hasFlag_twoPow _ hk, BitVec.getLsbD_or]

theorem Cpu.lowSeen_of_off (h : hasFlag (s.control .cr0) x86Cr0Pg = false) : s.LowSeen := by
  intro v _
  rw [Cpu.translate, h]
  rfl

theorem Paged.translate (h : Paged l s) (v : Addr) :
    s.translate v = pageWalk s.mem (mmPhysaddr l.x86PageDirectory) v := by
  rw [Cpu.translate, h.pg, h.pae, h.pse, h.cr3]
  rfl

theorem Paged.translate_boot (h : Paged l s) (haligned : PageAligned l.x86PageDirectory)
    (hentries : ∀ i : Addr, i.toNat < 1024 →
      s.mem.loadWord (entryAddr l.x86PageDirectory i) = x86PageDirectory i) (v : Addr) :
    s.translate v = bootMap v :=
  (h.translate v).trans (boot_walk haligned hentries v)

theorem lowSeen_of_boot (h : ∀ v, s.translate v = bootMap v) : s.LowSeen := by
  intro v hv
  rw [h v, bootMap, if_pos hv]
  rfl

theorem highSeen_of_boot (h : ∀ v, s.translate v = bootMap v) : s.HighSeen := by
  intro v hv
  rw [h v, bootMap, if_neg (by omega), if_pos hv]
  rfl

/-- The nine instructions before the jump. -/
theorem Loaded.start_effects (h : Loaded l text s) :
    let is := (startCode l).take 9
    let s' := is.foldl Instr.effect s
    (∀ v, s'.translate v = bootMap v) ∧ s'.ecx = l.higherHalf ∧ s'.mem = s.mem ∧
      Paged l s' ∧ s'.control .cr0 = s.control .cr0 ||| (x86Cr0Pg ||| x86Cr0Wp) ∧
      ∀ n ≤ is.length, ((is.take n).foldl Instr.effect s).LowSeen := by
  intro is s'
  have hcr0 : s'.control .cr0 = s.control .cr0 ||| (x86Cr0Pg ||| x86Cr0Wp) := rfl
  have hcr4 : s'.control .cr4 = s.control .cr4 ||| x86Cr4Pse := rfl
  have hpaged : Paged l s' := by
    refine ⟨?_, ?_, ?_, rfl⟩
    · rw [hcr0, hasFlag_or _ _ x86Cr0Pg (by decide : 31 < 32) rfl, h.pg]
      rfl
    · rw [hcr4, hasFlag_or _ _ x86Cr4Pae (by decide : 5 < 32) rfl, h.pae]
      rfl
    · rw [hcr4, hasFlag_or _ _ x86Cr4Pse (by decide : 4 < 32) rfl, Bool.or_eq_true]
      exact .inr rfl
  have hboot := hpaged.translate_boot h.aligned h.entries
  refine ⟨hboot, rfl, rfl, hpaged, hcr0, fun n hn => ?_⟩
  -- paging comes on with the eighth instruction
  have hoff : ∀ n < 8, ((is.take n).foldl Instr.effect s).control .cr0 = s.control .cr0 := by
    intro n hn
    interval_cases n <;> rfl
  obtain hlt | rfl | rfl : n < 8 ∨ n = 8 ∨ n = 9 := by
    have hlength : is.length = 9 := rfl
    omega
  · exact Cpu.lowSeen_of_off (by rw [hoff n hlt, h.pg])
  · exact lowSeen_of_boot hboot
  · exact lowSeen_of_boot hboot

/-- `_start` runs through to the jump, and the jump lands. -/
theorem Loaded.runs_start (h : Loaded l text s) : ∃ s', text.Reaches s s' ∧
    s'.eip = l.higherHalf ∧ s'.mem = s.mem ∧ Paged l s' ∧
      s'.control .cr0 = s.control .cr0 ||| (x86Cr0Pg ||| x86Cr0Wp) := by
  obtain ⟨hboot, hecx, hmem, hpaged, hcr0, hlow⟩ := h.start_effects
  have hplaced : text.Placed s.eip ((startCode l).take 9 ++ [.jmpEcx]) := by
    rw [h.eip]
    exact h.start
  obtain ⟨eip, hreach, hplaced'⟩ := runs_straight hplaced (by simp [startCode, Instr.Straight]) hlow
  have hseen := Cpu.LowSeen.sees
    (lowSeen_of_boot (s := { ((startCode l).take 9).foldl Instr.effect s with eip }) hboot) eip
  obtain ⟨size, -, -, hstep, -⟩ := Text.step_placed hseen hplaced'
  exact ⟨_, hreach.tail hstep, hecx, hmem, hpaged.congr rfl, hcr0⟩

/-- In the higher half the next instruction is where it was linked. -/
theorem Text.step_high {i : Instr} {is : List Instr} (hhigh : s.HighSeen)
    (hplaced : text.Placed (mmPhysaddr s.eip) (i :: is)) : ∃ next,
    text.step s = s.exec next i ∧ text.Placed (mmPhysaddr next) is := by
  have hseen := hhigh.sees (mmPhysaddr s.eip)
  rw [mmVirtaddr_physaddr] at hseen
  obtain ⟨size, -, -, hstep, hrest⟩ := Text.step_placed hseen hplaced
  refine ⟨s.eip + BitVec.ofNat 32 size, hstep, ?_⟩
  have hnext : mmPhysaddr (s.eip + BitVec.ofNat 32 size) =
      mmPhysaddr s.eip + BitVec.ofNat 32 size := by
    unfold mmPhysaddr
    bv_omega
  rwa [hnext]

theorem Cpu.HighSeen.push (hhigh : s.HighSeen)
    (hesp : 0x80000004 ≤ s.esp.toNat ∧ s.esp.toNat ≤ 0x80400000) (w : BitVec 32) :
    s.push w = some { s with esp := s.esp - 4, mem := s.mem.storeWord (s.esp - 4) w } := by
  have hseen := hhigh.sees (mmPhysaddr (s.esp - 4))
  rw [mmVirtaddr_physaddr] at hseen
  have hfit : (mmPhysaddr (s.esp - 4)).toNat + 4 ≤ 0x400000 := by
    unfold mmPhysaddr x86KernelBase
    bv_omega
  rw [Cpu.push, hseen.reach (by decide) hfit, Option.map_some, mmVirtaddr_physaddr]

/-- The entries of the boot directory are in its page. -/
theorem entries_congr {m m' : Memory Addr}
    (h : ∀ x, Within l.x86PageDirectory 4096 x → m'.byte x = m.byte x)
    (hentries : ∀ i : Addr, i.toNat < 1024 →
      m.loadWord (entryAddr l.x86PageDirectory i) = x86PageDirectory i) :
    ∀ i : Addr, i.toNat < 1024 →
      m'.loadWord (entryAddr l.x86PageDirectory i) = x86PageDirectory i := by
  intro i hi
  rw [← hentries i hi]
  refine Memory.loadWord_congr fun x hx => h x ?_
  unfold Within entryAddr at *
  bv_omega

/-- `_init` returns: it pops the return address and keeps the control registers
and the directory. -/
structure InitReturn (l : Symbols) (s s' : Cpu) : Prop where
  eip : s'.eip = s.mem.loadWord s.esp
  esp : s'.esp = s.esp + 4
  control : s'.control = s.control
  directory : ∀ x, Within l.x86PageDirectory 4096 x → s'.mem.byte x = s.mem.byte x

end Boot

/-- From the state a boot loader leaves, with paging off, the code is fetched and
the stack reached at every step until `kmain` is entered. There both halves are
mapped to the first 4 MB, and when `kvm_init` clears the first entry of the
directory, the higher half alone. -/
theorem entry_reaches_kmain (l : Symbols) (text : Text) (s : Cpu) (h : Loaded l text s) :
    ∃ s₁, text.Reaches s s₁ ∧ s₁.eip = l.init ∧ ∀ s₂, InitReturn l s₁ s₂ →
      ∃ s₃, text.Reaches s₂ s₃ ∧ s₃.eip = l.kmain ∧ s₃.esp = l.stackTop - 4 ∧
        s₃.control .cr0 = s.control .cr0 ||| (x86Cr0Pg ||| x86Cr0Wp) ∧
        (∀ v, s₃.translate v = bootMap v) ∧
        ∀ v, ({ s₃ with mem := s₃.mem.storeWord (entryAddr l.x86PageDirectory 0) 0 } :
          Cpu).translate v = kernelMap v := by
  obtain ⟨s', hreach, heip, hmem, hpaged, hcr0⟩ := h.runs_start
  have hentries : ∀ i : Addr, i.toNat < 1024 →
      s'.mem.loadWord (entryAddr l.x86PageDirectory i) = x86PageDirectory i := hmem ▸ h.entries
  have hhigh := highSeen_of_boot (hpaged.translate_boot h.aligned hentries)
  have hplaced : text.Placed (mmPhysaddr s'.eip) (higherHalfCode l) := by
    rw [heip]
    exact h.higherHalf
  obtain ⟨next, hstep, hplaced⟩ := Text.step_high hhigh hplaced
  have hhigh₀ : ({ s' with esp := l.stackTop, eip := next } : Cpu).HighSeen := hhigh
  obtain ⟨ret, hstep', hplaced⟩ := Text.step_high hhigh₀ hplaced
  rw [Cpu.exec, Cpu.HighSeen.push hhigh₀ h.stack ret, Option.map_some] at hstep'
  refine ⟨_, (hreach.tail hstep).tail hstep', rfl, fun s₂ hreturn => ?_⟩
  -- `_init` comes back to the second call
  have heip₂ : s₂.eip = ret := hreturn.eip.trans (Memory.loadWord_storeWord _ _ _)
  have hesp₂ : s₂.esp = l.stackTop := hreturn.esp.trans (BitVec.sub_add_cancel _ _)
  have hpaged₂ : Paged l s₂ := hpaged.congr hreturn.control
  have hstack : ∀ (m : Memory Addr) (w : BitVec 32) (x : Addr), Within l.x86PageDirectory 4096 x →
      (m.storeWord (l.stackTop - 4) w).byte x = m.byte x := fun m w x hx =>
    (m.frame_storeWord (l.stackTop - 4) w).1 x fun hw => h.apart x hw hx
  have hentries₂ := entries_congr
    (fun x hx => (hreturn.directory x hx).trans (hstack s'.mem ret x hx)) hentries
  have hhigh₂ := highSeen_of_boot (hpaged₂.translate_boot h.aligned hentries₂)
  rw [← heip₂] at hplaced
  obtain ⟨next₂, hstep₂, -⟩ := Text.step_high hhigh₂ hplaced
  have hpush₂ := Cpu.HighSeen.push hhigh₂ (hesp₂.symm ▸ h.stack) next₂
  rw [Cpu.exec, hpush₂, Option.map_some, hesp₂] at hstep₂
  have hentries₃ := entries_congr (fun x hx => hstack s₂.mem next₂ x hx) hentries₂
  obtain ⟨s₃, hstep₃, heip₃, hesp₃, hcontrol₃, hmem₃⟩ : ∃ s₃, text.step s₂ = some s₃ ∧
      s₃.eip = l.kmain ∧ s₃.esp = l.stackTop - 4 ∧ s₃.control = s₂.control ∧
      s₃.mem = s₂.mem.storeWord (l.stackTop - 4) next₂ := ⟨_, hstep₂, rfl, rfl, rfl, rfl⟩
  rw [← hmem₃] at hentries₃
  have hpaged₃ := hpaged₂.congr hcontrol₃
  refine ⟨s₃, .single hstep₃, heip₃, hesp₃, ?_, hpaged₃.translate_boot h.aligned hentries₃, ?_⟩
  · rw [hcontrol₃, hreturn.control]
    exact hcr0
  · intro v
    have hcleared : Paged l { s₃ with
        mem := s₃.mem.storeWord (entryAddr l.x86PageDirectory 0) 0 } := hpaged₃.congr rfl
    rw [hcleared.translate]
    exact kernel_walk h.aligned (cleared_entries h.aligned hentries₃) v

/-- The initialiser in bytes: two of them are not zero. -/
theorem entry_of_bytes {m : Memory Addr} {d i : Addr} (hd : PageAligned d)
    (hbyte : ∀ x, Within d 4096 x → m.byte x = if x = d ∨ x = d + 2048 then 0x83 else 0)
    (hi : i.toNat < 1024) : m.loadWord (entryAddr d i) = x86PageDirectory i := by
  unfold PageAligned at hd
  have hhigh : ∀ k : Addr, 0 < k.toNat → k.toNat < 4 → m.byte (entryAddr d i + k) = 0 := by
    intro k hk hk'
    rw [hbyte _ (by unfold Within entryAddr; bv_omega)]
    refine if_neg ?_
    unfold entryAddr
    rintro (heq | heq) <;> bv_omega
  have hlow := hbyte (entryAddr d i) (by unfold Within entryAddr; bv_omega)
  have hfirst : entryAddr d i = d ↔ i = 0 := by
    unfold entryAddr
    constructor <;> intro heq <;> bv_omega
  have hmiddle : entryAddr d i = d + 2048 ↔ i = x86PdIndex x86KernelBase := by
    rw [show x86PdIndex x86KernelBase = 512 from rfl]
    unfold entryAddr
    constructor <;> intro heq <;> bv_omega
  simp only [hfirst, hmiddle] at hlow
  rw [Memory.loadWord, hhigh 3 (by decide) (by decide), hhigh 2 (by decide) (by decide),
    hhigh 1 (by decide) (by decide), hlow, x86PageDirectory]
  split <;> rfl

/-- The symbols of a small kernel. -/
def smallSymbols : Symbols where
  start := 0x80101000
  higherHalf := 0x80101025
  x86PageDirectory := 0x80110000
  stackTop := 0x80118000
  init := 0x80102000
  kmain := 0x80103000
  hang := 0x80101035

def smallText : Text := fun pa =>
  ([(0x101000, .movlFromControl .cr4, 3), (0x101003, .orlEax x86Cr4Pse, 3),
    (0x101006, .movlToControl .cr4, 3), (0x101009, .leaEax 0x110000, 6),
    (0x10100F, .movlToControl .cr3, 3), (0x101012, .movlFromControl .cr0, 3),
    (0x101015, .orlEax (x86Cr0Pg ||| x86Cr0Wp), 5), (0x10101A, .movlToControl .cr0, 3),
    (0x10101D, .leaEcx 0x80101025, 6), (0x101023, .jmpEcx, 2), (0x101025, .movlEsp 0x80118000, 5),
    (0x10102A, .call 0x80102000, 5), (0x10102F, .call 0x80103000, 5), (0x101034, .cli, 1),
    (0x101035, .hlt, 1), (0x101036, .jmp 0x80101035, 2)] : List (Addr × Instr × ℕ)).lookup pa

def smallCpu : Cpu where
  control
    | .cr0 => 0x11
    | .cr3 => 0x5000
    | .cr4 => 0
  eax := 0x2BADB002
  ecx := 0
  esp := 0x7000
  eip := 0x101000
  mem :=
    { byte := fun x => if x = 0x80110000 ∨ x = 0x80110800 then 0x83 else 0, written := [] }

theorem smallCpu_loaded : Loaded smallSymbols smallText smallCpu := by
  refine ⟨by decide, by decide, by decide, ?_, ?_, by decide, fun i hi => ?_, by decide, ?_⟩
  · refine ⟨3, by decide, by decide, rfl, 3, by decide, by decide, rfl, 3, by decide, by decide,
      rfl, 6, by decide, by decide, rfl, 3, by decide, by decide, rfl, 3, by decide, by decide, rfl,
      5, by decide, by decide, rfl, 3, by decide, by decide, rfl, 6, by decide, by decide, rfl, 2,
      by decide, by decide, rfl, trivial⟩
  · refine ⟨5, by decide, by decide, rfl, 5, by decide, by decide, rfl, 5, by decide, by decide,
      rfl, 1, by decide, by decide, rfl, 1, by decide, by decide, rfl, 2, by decide, by decide, rfl,
      trivial⟩
  · exact entry_of_bytes (by decide) (fun x _ => rfl) hi
  · intro x
    unfold smallSymbols Within
    bv_omega

/-- Nothing in `_init`. -/
theorem entry_reaches_kmain_small : ∃ s₁ s₂ s₃, smallText.Reaches smallCpu s₁ ∧
    InitReturn smallSymbols s₁ s₂ ∧ smallText.Reaches s₂ s₃ ∧ s₃.eip = 0x80103000 ∧
    s₃.translate 0x80103000 = some ⟨0x103000, true, false⟩ := by
  obtain ⟨s₁, hreach, -, hrest⟩ :=
    entry_reaches_kmain smallSymbols smallText smallCpu smallCpu_loaded
  have hreturn : InitReturn smallSymbols s₁
      { s₁ with eip := s₁.mem.loadWord s₁.esp, esp := s₁.esp + 4 } :=
    ⟨rfl, rfl, rfl, fun _ _ => rfl⟩
  obtain ⟨s₃, hreach', heip, -, -, htranslate, -⟩ := hrest _ hreturn
  exact ⟨s₁, _, s₃, hreach, hreturn, hreach', heip, (htranslate 0x80103000).trans (by decide)⟩

end Yack.HigherHalf
