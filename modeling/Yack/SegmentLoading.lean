import Yack.SegmentDescriptors
import Yack.WordStack

/-!
# Loading the segments: `x86_lgdt` and the end of `segments_init`

`x86_lgdt` of `helpers.S` loads the table register and reloads every segment
register: five by `mov`, the code segment by a far jump through two words it
pushes. The processor checks each descriptor, keeps a copy of it and marks it
accessed in the table.

All memory operands go through the segments of the moment, so the function
replaces the segments it runs in.
-/
namespace Yack.SegmentLoading
open ByteMemory KernelState WordStack SegmentDescriptors

inductive Register where
  | cs
  | ss
  | ds
  | es
  | fs
  | gs
  deriving DecidableEq, Repr

/-- What `lgdt` loads. -/
structure Gdtr where
  limit : BitVec 16
  base : Addr
  deriving DecidableEq, Repr

/-- A segment register holds a selector and a copy of the descriptor, or nothing
usable after a null selector. -/
structure Cpu where
  eax : BitVec 32
  edx : BitVec 32
  esp : BitVec 32
  eip : BitVec 32
  selector : Register → BitVec 16
  descriptor : Register → Option Segment
  gdtr : Gdtr
  mem : Memory Addr

/-- The linear address of `size` bytes at an offset, up to the limit. -/
def Cpu.linear (s : Cpu) (r : Register) (offset : BitVec 32) (size : ℕ) : Option Addr :=
  match s.descriptor r with
  | none => none
  | some seg =>
      if offset.toNat + size ≤ seg.limit.toNat + 1 then some (seg.base + offset) else none

def Cpu.read (s : Cpu) (r : Register) (offset : BitVec 32) : Option (BitVec 32) :=
  (s.linear r offset 4).map s.mem.loadWord

def Cpu.push (s : Cpu) (w : BitVec 32) : Option Cpu :=
  (s.linear .ss (s.esp - 4) 4).map fun a => { s with esp := s.esp - 4, mem := s.mem.storeWord a w }

/-- The checks at privilege level 0 of the access byte against the register it is
for and the requested level: present, not a system segment, of the kind and the
level that the register takes. -/
def permits (r : Register) (rpl : BitVec 2) (access : Byte) : Bool :=
  let dpl := access.extractLsb' 5 2
  access.getLsbD 7 && access.getLsbD 4 &&
    match r with
    | .cs => access.getLsbD 3 && dpl == 0 && rpl == 0
    | .ss => !access.getLsbD 3 && access.getLsbD 1 && dpl == 0 && rpl == 0
    | _ => if access.getLsbD 3 then access.getLsbD 1 && (access.getLsbD 2 || rpl.ule dpl)
        else rpl.ule dpl

/-- Loading a segment register; `none` is a fault. There is no local table. -/
def Cpu.load (s : Cpu) (r : Register) (selector : BitVec 16) : Option Cpu :=
  if selector &&& 0xFFFC = 0 then
    if r = .cs ∨ r = .ss then none
    else some { s with
      selector := Function.update s.selector r selector
      descriptor := Function.update s.descriptor r none }
  else if selector.getLsbD 2 ∨ s.gdtr.limit.toNat < 8 * (selector.toNat / 8) + 7 then none
  else
    let entry := s.gdtr.base + BitVec.ofNat 32 (8 * (selector.toNat / 8))
    let seg := decode s.mem entry
    if permits r (selector.extractLsb' 0 2) seg.access then
      some { s with
        selector := Function.update s.selector r selector
        descriptor := Function.update s.descriptor r (some { seg with access := seg.access ||| 1 })
        mem := if seg.access.getLsbD 0 then s.mem else s.mem.store (entry + 5) (seg.access ||| 1) }
    else none

/-- The instructions of `x86_lgdt`. -/
inductive Instr where
  | movlStackEdx (disp : BitVec 32)
  | movlStackEax (disp : BitVec 32)
  | lgdt
  | movEax (r : Register)
  | pushlStack (disp : BitVec 32)
  | pushl (imm : BitVec 32)
  | ljmpStack
  | addlEsp (imm : BitVec 32)
  | ret
  deriving DecidableEq, Repr

def Cpu.exec (s : Cpu) : Instr → Option Cpu
  | .movlStackEdx disp => (s.read .ss (s.esp + disp)).map fun edx => { s with edx }
  | .movlStackEax disp => (s.read .ss (s.esp + disp)).map fun eax => { s with eax }
  | .lgdt => (s.linear .ds s.edx 6).map fun a =>
      { s with gdtr := { limit := s.mem.loadHalf a, base := s.mem.loadWord (a + 2) } }
  | .movEax r => s.load r (s.eax.setWidth 16)
  | .pushlStack disp => (s.read .ss (s.esp + disp)).bind s.push
  | .pushl imm => s.push imm
  | .ljmpStack => do
      let offset ← s.read .ss s.esp
      let selector ← s.read .ss (s.esp + 4)
      let s ← s.load .cs (selector.setWidth 16)
      return { s with eip := offset }
  | .addlEsp imm => some { s with esp := s.esp + imm }
  | .ret => (s.read .ss s.esp).map fun eip => { s with eip, esp := s.esp + 4 }

def runInstrs (s : Cpu) (is : List Instr) : Option Cpu := is.foldlM Cpu.exec s

/-- `x86_lgdt` up to the far jump. -/
def beforeJump (setcs : Addr) : List Instr :=
  [.movlStackEdx 4, .movlStackEax 8, .lgdt, .movEax .ds, .movEax .es, .movEax .gs, .movEax .fs,
    .movEax .ss, .pushlStack 12, .pushl setcs, .ljmpStack]

/-- What is at the label `.setcs`. -/
def afterJump : List Instr := [.addlEsp 8, .ret]

def x86Lgdt (setcs : Addr) (s : Cpu) : Option Cpu := do
  let s ← runInstrs s (beforeJump setcs)
  if s.eip = setcs then runInstrs s afterJump else none

structure Machine where
  cpu : Cpu
  events : List Event

/-- Where the linker and the compiler put what `segments_init` uses. -/
structure Places where
  cpuGdt : Addr
  tss : Addr
  ptr : Addr
  values : Addr
  setcs : Addr
  returnAddress : Addr

/-- The arguments of `x86_lgdt`, the last one first, and the return address. -/
def lgdtWords (l : Places) : List (BitVec 32) := [0x8, 0x10, l.ptr, l.returnAddress]

def callLgdt (l : Places) (s : Cpu) : Option Cpu := do
  let s ← (lgdtWords l).foldlM Cpu.push s
  let s ← x86Lgdt l.setcs s
  return { s with esp := s.esp + 12 }

/-- The six bytes of `ptr`. -/
def storePtr (l : Places) (m : Memory Addr) : Memory Addr :=
  let m := m.storeHalf l.ptr (8 * 6 - 1)
  let m := m.storeHalf (l.ptr + 2) (l.cpuGdt.setWidth 16)
  m.storeHalf (l.ptr + 4) ((l.cpuGdt >>> 16).setWidth 16)

def logSegment (fmt : String) (r : Register) (s : Machine) : Machine :=
  { s with events := .klog "DEBUG" fmt [(s.cpu.selector r).setWidth 32] :: s.events }

/-- The table, its register and the segment registers. -/
def loadSegments (l : Places) (s : Machine) : Option Machine := do
  let kernel := SegmentDescriptors.segmentsInit l.cpuGdt l.tss ⟨s.cpu.mem, s.events⟩
  let cpu ← callLgdt l { s.cpu with mem := storePtr l kernel.mem }
  return ⟨cpu, kernel.events⟩

/-- What `sgdt` stores. -/
def storeGdtr (a : Addr) (gdtr : Gdtr) (m : Memory Addr) : Memory Addr :=
  (m.storeHalf a gdtr.limit).storeWord (a + 2) gdtr.base

/-- `x86_get_gdt` and the message that shows what it returns. -/
def logGdtr (l : Places) (s : Machine) : Option Machine :=
  (s.cpu.linear .ds l.values 6).map fun a =>
    let mem := storeGdtr a s.cpu.gdtr s.cpu.mem
    let values := [mem.loadHalf l.values, mem.loadHalf (l.values + 2), mem.loadHalf (l.values + 4)]
    { s with
      cpu := { s.cpu with mem }
      events := .klog "DEBUG" "SGDT: %x %x %x\n" (values.map (·.setWidth 32)) :: s.events }

/-- The messages at the end. -/
def logSegments (l : Places) (s : Machine) : Option Machine :=
  let s := { s with events := .klog "DEBUG" "Segments loaded\n" [] :: s.events }
  let s := logSegment "CS: %x\n" .cs s
  let s := logSegment "ES: %x\n" .es s
  let s := logSegment "SS: %x\n" .ss s
  let s := logSegment "DS: %x\n" .ds s
  let s := logSegment "FS: %x\n" .fs s
  let s := logSegment "GS: %x\n" .gs s
  logGdtr l s

def segmentsInit (l : Places) (s : Machine) : Option Machine :=
  (loadSegments l s).bind (logSegments l)

/-- All 4 GB, present, at level 0. -/
def flatSegment (access : Byte) : Segment := ⟨0, 0xFFFFFFFF, access, 0xC⟩

def Cpu.Flat (s : Cpu) (r : Register) : Prop :=
  ∃ seg, s.descriptor r = some seg ∧ seg.base = 0 ∧ seg.limit = 0xFFFFFFFF

section Flat
variable {s : Cpu} {r : Register} {sp : Addr}

theorem Cpu.Flat.linear (h : s.Flat r) {offset : BitVec 32} {size : ℕ}
    (hfit : offset.toNat + size ≤ 2 ^ 32) : s.linear r offset size = some offset := by
  obtain ⟨seg, hseg, hbase, hlimit⟩ := h
  have hmax : (0xFFFFFFFF : BitVec 32).toNat + 1 = 2 ^ 32 := rfl
  rw [Cpu.linear, hseg]
  simp only [hlimit, hbase, hmax, hfit, if_true]
  exact congrArg some (BitVec.zero_add offset)

theorem Cpu.Flat.read (h : s.Flat r) {offset : BitVec 32} (hfit : offset.toNat + 4 ≤ 2 ^ 32) :
    s.read r offset = some (s.mem.loadWord offset) := by
  rw [Cpu.read, h.linear hfit, Option.map_some]

theorem slot_toNat {sp : Addr} {k : ℕ} (h : 4 * k ≤ sp.toNat) :
    (slot sp k).toNat = sp.toNat - 4 * k := by
  unfold slot
  bv_omega

theorem Cpu.Flat.push (h : s.Flat .ss) (hesp : 4 ≤ s.esp.toNat) (w : BitVec 32) :
    s.push w = some { s with esp := s.esp - 4, mem := s.mem.storeWord (s.esp - 4) w } := by
  rw [Cpu.push, h.linear (by bv_omega), Option.map_some]

theorem Cpu.Flat.pushes (h : s.Flat .ss) (ws : List (BitVec 32))
    (hesp : 4 * ws.length ≤ s.esp.toNat) : ws.foldlM Cpu.push s =
      some { s with esp := slot s.esp ws.length, mem := pushWords s.mem s.esp ws } := by
  induction ws generalizing s with
  | nil =>
      rw [List.length_nil, slot_zero]
      rfl
  | cons w ws ih =>
      rw [List.length_cons] at hesp
      have hrest : 4 * ws.length ≤ (s.esp - 4).toNat := by bv_omega
      rw [List.foldlM_cons, h.push (by omega), List.length_cons, ← slot_next]
      exact @ih { s with esp := s.esp - 4, mem := s.mem.storeWord (s.esp - 4) w } h hrest

theorem readSlot {n k : ℕ} (h : s.Flat .ss) (hesp : s.esp = slot sp n) (hroom : 4 * n ≤ sp.toNat)
    (hk : k < n) : s.read .ss (s.esp + BitVec.ofNat 32 (4 * k)) =
      some (s.mem.loadWord (slot sp (n - k))) := by
  have hslot := slot_toNat (@le_trans _ _ (4 * (n - k)) _ _ (by omega) hroom)
  rw [hesp, slot_add sp hk.le, h.read]
  omega

end Flat

def accessed (seg : Segment) : Segment := { seg with access := seg.access ||| 1 }

/-- What a load stores in the table. -/
def markAccessed (m : Memory Addr) (entry : Addr) : Memory Addr :=
  let access := (decode m entry).access
  if access.getLsbD 0 then m else m.store (entry + 5) (access ||| 1)

section Accessed
variable {m : Memory Addr} {entry : Addr}

theorem or_one_of_set {b : Byte} (h : b.getLsbD 0 = true) : b ||| 1 = b := by
  apply BitVec.eq_of_getLsbD_eq
  intro k hk
  interval_cases k <;> simp_all

theorem markAccessed_frame (m : Memory Addr) (entry : Addr) :
    m.Frame (markAccessed m entry) (Within entry 8) := by
  rw [markAccessed]
  split
  · exact Memory.Frame.refl m _
  · apply Memory.frame_store
    unfold Within
    bv_omega

theorem decode_store_access (m : Memory Addr) (entry : Addr) (access : Byte) :
    decode (m.store (entry + 5) access) entry = { decode m entry with access } := by
  have hbyte : ∀ k : Addr, k ≠ 5 →
      (m.store (entry + 5) access).byte (entry + k) = m.byte (entry + k) := by
    intro k hk
    refine m.store_byte_of_ne _ ?_
    simpa using hk
  have hfirst : (m.store (entry + 5) access).byte entry = m.byte entry :=
    m.store_byte_of_ne _ (by bv_omega)
  simp only [decode, limitField, Memory.loadHalf, BitVec.add_assoc, BitVec.reduceAdd, hfirst,
    hbyte 1 (by decide), hbyte 2 (by decide), hbyte 3#32 (by decide), hbyte 4 (by decide),
    hbyte 6 (by decide), hbyte 7 (by decide), Memory.store_byte_same]

theorem decode_markAccessed (m : Memory Addr) (entry : Addr) :
    decode (markAccessed m entry) entry = accessed (decode m entry) := by
  rw [markAccessed, accessed]
  split
  · rename_i hset
    rw [or_one_of_set hset]
  · rw [decode_store_access]

theorem markAccessed_of_set (h : (decode m entry).access.getLsbD 0 = true) :
    markAccessed m entry = m := by
  rw [markAccessed]
  exact if_pos h

end Accessed

/-- The table register and the two descriptors that the kernel loads. -/
structure Cpu.TableReady (s : Cpu) (cpuGdt : Addr) : Prop where
  gdtr : s.gdtr = ⟨47, cpuGdt⟩
  code : accessed (decode s.mem (gdtEntry cpuGdt x86GdtSegCodek)) = flatSegment 0x9B
  data : accessed (decode s.mem (gdtEntry cpuGdt x86GdtSegDatak)) = flatSegment 0x93

/-- The index in the table of what a register takes. -/
def kernelIndex (r : Register) : Addr := if r = .cs then x86GdtSegCodek else x86GdtSegDatak

def kernelSelector (r : Register) : BitVec 16 := ((kernelIndex r) <<< 3).setWidth 16

def kernelSegment (r : Register) : Segment := flatSegment (if r = .cs then 0x9B else 0x93)

section Run
variable {s : Cpu} {cpuGdt : Addr}

theorem Cpu.TableReady.entry (h : s.TableReady cpuGdt) (r : Register) :
    accessed (decode s.mem (gdtEntry cpuGdt (kernelIndex r))) = kernelSegment r := by
  cases r with
  | cs => exact h.code
  | ss => exact h.data
  | ds => exact h.data
  | es => exact h.data
  | fs => exact h.data
  | gs => exact h.data

theorem permits_accessed (r : Register) (rpl : BitVec 2) (access : Byte) :
    permits r rpl (access ||| 1) = permits r rpl access := by
  have hlevel : (access ||| 1).extractLsb' 5 2 = access.extractLsb' 5 2 := by
    apply BitVec.eq_of_getLsbD_eq
    intro k hk
    interval_cases k <;> simp
  simp only [permits, hlevel]
  simp

/-- A register takes the kernel segment that is meant for it. -/
theorem Cpu.TableReady.load (h : s.TableReady cpuGdt) (r : Register) :
    s.load r (kernelSelector r) = some { s with
      selector := Function.update s.selector r (kernelSelector r)
      descriptor := Function.update s.descriptor r (some (kernelSegment r))
      mem := markAccessed s.mem (gdtEntry cpuGdt (kernelIndex r)) } := by
  have hentry := h.entry r
  have hpermits : permits r 0 (decode s.mem (gdtEntry cpuGdt (kernelIndex r))).access = true := by
    have haccess := congrArg Segment.access hentry
    simp only [accessed] at haccess
    rw [← permits_accessed, haccess]
    cases r <;> decide
  have hlimit : ¬ ((kernelSelector r).getLsbD 2 ∨
      (47 : BitVec 16).toNat < 8 * ((kernelSelector r).toNat / 8) + 7) := by cases r <;> decide
  have haddress : cpuGdt + BitVec.ofNat 32 (8 * ((kernelSelector r).toNat / 8)) =
      gdtEntry cpuGdt (kernelIndex r) := by cases r <;> rfl
  have hnull : ¬ kernelSelector r &&& 0xFFFC = 0 := by cases r <;> decide
  have hlevel : (kernelSelector r).extractLsb' 0 2 = 0 := by cases r <;> decide
  rw [Cpu.load, if_neg hnull, h.gdtr, if_neg hlimit]
  simp only [haddress, hlevel, hpermits, if_true]
  rw [← hentry]
  rfl

theorem accessed_set (seg : Segment) : (accessed seg).access.getLsbD 0 = true := by
  simp [accessed]

theorem accessed_accessed (seg : Segment) : accessed (accessed seg) = accessed seg := by
  rw [accessed, or_one_of_set (accessed_set seg)]

theorem gdtEntry_disjoint {i j x : Addr} (hi : i.toNat < 6) (hj : j.toNat < 6) (hne : i ≠ j)
    (hx : Within (gdtEntry cpuGdt i) 8 x) : ¬ Within (gdtEntry cpuGdt j) 8 x := by
  unfold Within gdtEntry at *
  bv_omega

theorem decode_markAccessed_other (m : Memory Addr) {i j : Addr} (hi : i.toNat < 6)
    (hj : j.toNat < 6) (hne : i ≠ j) :
    decode (markAccessed m (gdtEntry cpuGdt j)) (gdtEntry cpuGdt i) =
      decode m (gdtEntry cpuGdt i) :=
  decode_congr fun _ hx => (markAccessed_frame m _).1 _ (gdtEntry_disjoint hi hj hne hx)

theorem kernelIndex_lt (r : Register) : (kernelIndex r).toNat < 6 := by cases r <;> decide

/-- The table stays ready through a load, and the next load of that descriptor
stores nothing. -/
theorem Cpu.TableReady.marked (h : s.TableReady cpuGdt) (r : Register) {t : Cpu}
    (hgdtr : t.gdtr = s.gdtr)
    (hmem : t.mem = markAccessed s.mem (gdtEntry cpuGdt (kernelIndex r))) :
    t.TableReady cpuGdt := by
  have hentry : ∀ r', accessed (decode t.mem (gdtEntry cpuGdt (kernelIndex r'))) =
      kernelSegment r' := by
    intro r'
    rw [hmem]
    by_cases heq : kernelIndex r' = kernelIndex r
    · rw [← heq, decode_markAccessed, accessed_accessed, h.entry]
    · rw [decode_markAccessed_other _ (kernelIndex_lt r') (kernelIndex_lt r) heq, h.entry]
  exact ⟨hgdtr.trans h.gdtr, hentry .cs, hentry .ds⟩

/-- The registers of a list hold the kernel segments. -/
def Cpu.reload (s : Cpu) (rs : List Register) : Cpu :=
  { s with
    selector := fun r => if r ∈ rs then kernelSelector r else s.selector r
    descriptor := fun r => if r ∈ rs then some (kernelSegment r) else s.descriptor r }

theorem reload_cons (s : Cpu) (r : Register) (rs : List Register) :
    Cpu.reload { s with
      selector := Function.update s.selector r (kernelSelector r)
      descriptor := Function.update s.descriptor r (some (kernelSegment r)) } rs =
      s.reload (r :: rs) := by
  rw [Cpu.reload, Cpu.reload, Cpu.mk.injEq]
  refine ⟨rfl, rfl, rfl, rfl, ?_, ?_, rfl, rfl⟩
  · funext q
    by_cases hq : q = r
    · subst q; simp
    · simp [hq]
  · funext q
    by_cases hq : q = r
    · subst q; simp
    · simp [hq]

theorem runInstrs_reload (rs : List Register) (hrs : .cs ∉ rs) (h : s.TableReady cpuGdt)
    (hset : (decode s.mem (gdtEntry cpuGdt x86GdtSegDatak)).access.getLsbD 0 = true)
    (heax : s.eax = 0x10) : runInstrs s (rs.map .movEax) = some (s.reload rs) := by
  induction rs generalizing s with
  | nil => simp [runInstrs, Cpu.reload]
  | cons r rs ih =>
      obtain ⟨hr, hrs⟩ : Register.cs ≠ r ∧ .cs ∉ rs := by simpa using hrs
      have hselector : s.eax.setWidth 16 = kernelSelector r := by
        rw [heax, kernelSelector, kernelIndex, if_neg hr.symm]
        rfl
      have hindex : kernelIndex r = x86GdtSegDatak := if_neg hr.symm
      have hload := h.load r
      rw [hindex, markAccessed_of_set hset] at hload
      rw [List.map_cons, runInstrs, List.foldlM_cons, Cpu.exec, hselector, hload]
      have hrest := @ih { s with
        selector := Function.update s.selector r (kernelSelector r)
        descriptor := Function.update s.descriptor r (some (kernelSegment r)) }
        hrs ⟨h.gdtr, h.code, h.data⟩ hset heax
      rwa [reload_cons] at hrest

def dataRegisters : List Register := [.ds, .es, .gs, .fs, .ss]

theorem runInstrs_dataRegisters (h : s.TableReady cpuGdt) (heax : s.eax = 0x10) :
    runInstrs s (dataRegisters.map .movEax) =
      some (Cpu.reload { s with mem := markAccessed s.mem (gdtEntry cpuGdt x86GdtSegDatak) }
        dataRegisters) := by
  have hselector : s.eax.setWidth 16 = kernelSelector .ds := by rw [heax]; rfl
  have hmarked := decode_markAccessed s.mem (gdtEntry cpuGdt x86GdtSegDatak)
  have hset : (decode (markAccessed s.mem (gdtEntry cpuGdt x86GdtSegDatak))
      (gdtEntry cpuGdt x86GdtSegDatak)).access.getLsbD 0 = true := by
    rw [hmarked]
    exact accessed_set _
  rw [dataRegisters, List.map_cons, runInstrs, List.foldlM_cons, Cpu.exec, hselector, h.load .ds]
  have hrest := @runInstrs_reload { s with
    selector := Function.update s.selector .ds (kernelSelector .ds)
    descriptor := Function.update s.descriptor .ds (some (kernelSegment .ds))
    mem := markAccessed s.mem (gdtEntry cpuGdt x86GdtSegDatak) } cpuGdt [.es, .gs, .fs, .ss]
    (by decide) (h.marked .ds rfl rfl) hset heax
  rwa [reload_cons { s with mem := markAccessed s.mem (gdtEntry cpuGdt x86GdtSegDatak) }] at hrest

/-- Each word of the list is where it was pushed. -/
def Stacked (m : Memory Addr) (sp : Addr) (ws : List (BitVec 32)) : Prop :=
  ∀ k w, ws[k]? = some w → m.loadWord (slot sp (k + 1)) = w

theorem Stacked.frame {m m' : Memory Addr} {sp : Addr} {ws : List (BitVec 32)}
    {region : Addr → Prop} (h : Stacked m sp ws) (hframe : m.Frame m' region)
    (hregion : ∀ x, Below sp ws.length x → ¬ region x) : Stacked m' sp ws := by
  intro k w hw
  have hk : k < ws.length := (List.getElem?_eq_some_iff.mp hw).1
  rw [hframe.loadWord fun x hx => hregion x (within_slot hk hx), h k w hw]

theorem Stacked.pushes {m : Memory Addr} {sp : Addr} {ws ws' : List (BitVec 32)}
    (h : Stacked m sp ws) (hlen : 4 * (ws.length + ws'.length) ≤ 2 ^ 32) :
    Stacked (pushWords m (slot sp ws.length) ws') sp (ws ++ ws') := by
  intro k w hw
  by_cases hk : k < ws.length
  · rw [List.getElem?_append_left hk] at hw
    rw [(pushWords_frame m _ ws' (by omega)).loadWord, h k w hw]
    intro x hx hbelow
    unfold Below slot Within at *
    bv_omega
  · rw [List.getElem?_append_right (by omega)] at hw
    have hload := pushWords_load m (slot sp ws.length) ws' (by omega) hw
    rwa [slot_slot, show ws.length + (k - ws.length + 1) = k + 1 by omega] at hload

/-- The regions that `segments_init` uses: room on the stack for six words below
`sp`, which is not in the table or in `ptr`, and these two and `values` apart. -/
structure Placed (l : Places) (sp : Addr) : Prop where
  room : 24 ≤ sp.toNat
  ptr : l.ptr.toNat + 6 ≤ 2 ^ 32
  values : l.values.toNat + 6 ≤ 2 ^ 32
  stackGdt : ∀ x, Below sp 6 x → ¬ Within l.cpuGdt 48 x
  stackPtr : ∀ x, Below sp 6 x → ¬ Within l.ptr 6 x
  gdtPtr : ∀ x, Within l.cpuGdt 48 x → ¬ Within l.ptr 6 x
  gdtValues : ∀ x, Within l.cpuGdt 48 x → ¬ Within l.values 6 x

variable {l : Places} {sp : Addr}

theorem Stacked.read {ws : List (BitVec 32)} {n k : ℕ} {w : BitVec 32} (h : Stacked s.mem sp ws)
    (hflat : s.Flat .ss) (hesp : s.esp = slot sp n) (hroom : 4 * n ≤ sp.toNat) (hk : k < n)
    (hw : ws[n - k - 1]? = some w) : s.read .ss (s.esp + BitVec.ofNat 32 (4 * k)) = some w := by
  have hword := h _ _ hw
  rw [show n - k - 1 + 1 = n - k by omega] at hword
  rw [readSlot hflat hesp hroom hk, hword]

/-- The arguments are read and the table register is loaded. -/
theorem runInstrs_lgdt (hss : s.Flat .ss) (hds : s.Flat .ds) (hplaced : Placed l sp)
    (hesp : s.esp = slot sp 4) (hstack : Stacked s.mem sp (lgdtWords l))
    (hlimit : s.mem.loadHalf l.ptr = 47) (hbase : s.mem.loadWord (l.ptr + 2) = l.cpuGdt) :
    runInstrs s [.movlStackEdx 4, .movlStackEax 8, .lgdt] =
      some { s with eax := 0x10, edx := l.ptr, gdtr := ⟨47, l.cpuGdt⟩ } := by
  have hroom : 4 * 4 ≤ sp.toNat := by have := hplaced.room; omega
  have hedx : s.read .ss (s.esp + 4) = some l.ptr :=
    @Stacked.read s sp _ 4 1 _ hstack hss hesp hroom (by decide) rfl
  have heax : s.read .ss (s.esp + 8) = some 0x10 :=
    @Stacked.read s sp _ 4 2 _ hstack hss hesp hroom (by decide) rfl
  have hlinear : s.linear .ds l.ptr 6 = some l.ptr := hds.linear hplaced.ptr
  have hfirst : s.exec (.movlStackEdx 4) = some { s with edx := l.ptr } := by
    rw [Cpu.exec, hedx, Option.map_some]
  have hsecond : Cpu.exec { s with edx := l.ptr } (.movlStackEax 8) =
      some { s with eax := 0x10, edx := l.ptr } := by
    rw [Cpu.exec]
    exact congrArg (Option.map fun eax => Cpu.mk eax l.ptr s.esp s.eip _ _ _ _) heax
  have hthird : Cpu.exec { s with eax := 0x10, edx := l.ptr } .lgdt =
      some { s with eax := 0x10, edx := l.ptr, gdtr := ⟨47, l.cpuGdt⟩ } := by
    have hload := congrArg (Option.map fun a => { s with
      eax := 0x10
      edx := l.ptr
      gdtr := { limit := s.mem.loadHalf a, base := s.mem.loadWord (a + 2) } }) hlinear
    rw [Option.map_some, hlimit, hbase] at hload
    exact hload
  simp only [runInstrs, List.foldlM_cons, List.foldlM_nil, hfirst, hsecond, hthird,
    Option.bind_eq_bind, Option.bind_some, Option.pure_def]

/-- A change outside the table leaves it ready. -/
theorem Cpu.TableReady.frame {t : Cpu} {region : Addr → Prop} (h : s.TableReady cpuGdt)
    (hgdtr : t.gdtr = s.gdtr) (hframe : s.mem.Frame t.mem region)
    (hregion : ∀ x, Within cpuGdt 48 x → ¬ region x) : t.TableReady cpuGdt := by
  have hentry : ∀ i : Addr, i.toNat < 6 →
      decode t.mem (gdtEntry cpuGdt i) = decode s.mem (gdtEntry cpuGdt i) := by
    intro i hi
    refine decode_congr fun x hx => hframe.1 x (hregion x ?_)
    unfold Within gdtEntry at *
    bv_omega
  refine ⟨hgdtr.trans h.gdtr, ?_, ?_⟩
  · rw [hentry _ (by decide), h.code]
  · rw [hentry _ (by decide), h.data]

theorem below_six {x : Addr} (h : Below (slot sp 4) 2 x) : Below sp 6 x := by
  unfold Below slot Within at *
  bv_omega

/-- The far pointer is pushed and jumped through. -/
theorem runInstrs_ljmp (hss : s.Flat .ss) (hplaced : Placed l sp) (hesp : s.esp = slot sp 4)
    (hstack : Stacked s.mem sp (lgdtWords l)) (hready : s.TableReady l.cpuGdt) :
    runInstrs s [.pushlStack 12, .pushl l.setcs, .ljmpStack] =
      some { s with
        esp := slot sp 6
        eip := l.setcs
        selector := Function.update s.selector .cs (kernelSelector .cs)
        descriptor := Function.update s.descriptor .cs (some (kernelSegment .cs))
        mem := markAccessed (pushWords s.mem (slot sp 4) [0x8, l.setcs])
          (gdtEntry l.cpuGdt x86GdtSegCodek) } := by
  have hroom := hplaced.room
  have hpushed : s.read .ss (s.esp + 12) = some 0x8 :=
    @Stacked.read s sp _ 4 3 _ hstack hss hesp (by omega) (by decide) rfl
  have hdepth : 4 * 2 ≤ s.esp.toNat := by
    rw [hesp, slot_toNat (by omega)]
    omega
  have hpushes := hss.pushes [0x8, l.setcs] hdepth
  have hslot : slot s.esp 2 = slot sp 6 := by rw [hesp, slot_slot]
  rw [List.length_cons, List.length_singleton, hslot, hesp] at hpushes
  -- The far pointer is read from the stack after both pushes.
  let t : Cpu := { s with esp := slot sp 6, mem := pushWords s.mem (slot sp 4) [0x8, l.setcs] }
  have hframe := pushWords_frame s.mem (slot sp 4) [0x8, l.setcs] (by simp)
  have hstacked : Stacked t.mem sp (lgdtWords l ++ [0x8, l.setcs]) :=
    hstack.pushes (by simp [lgdtWords])
  have hflat : t.Flat .ss := hss
  have hoffset : t.read .ss t.esp = some l.setcs := by
    have h := @Stacked.read t sp _ 6 0 l.setcs hstacked hflat rfl (by omega) (by decide) rfl
    rwa [BitVec.add_zero] at h
  have hselector : t.read .ss (t.esp + 4) = some 0x8 :=
    @Stacked.read t sp _ 6 1 _ hstacked hflat rfl (by omega) (by decide) rfl
  have hload := (hready.frame (t := t) rfl hframe fun x hx hbelow =>
    hplaced.stackGdt x (below_six hbelow) hx).load .cs
  have hjump : t.exec .ljmpStack = some { t with
      eip := l.setcs
      selector := Function.update s.selector .cs (kernelSelector .cs)
      descriptor := Function.update s.descriptor .cs (some (kernelSegment .cs))
      mem := markAccessed t.mem (gdtEntry l.cpuGdt x86GdtSegCodek) } := by
    have hcs : (0x8 : BitVec 32).setWidth 16 = kernelSelector .cs := rfl
    rw [Cpu.exec, hoffset, hselector]
    simp only [Option.bind_eq_bind, Option.bind_some, hcs, hload]
    rfl
  have hsteps : runInstrs s [.pushlStack 12, .pushl l.setcs, .ljmpStack] =
      ([0x8, l.setcs].foldlM Cpu.push s).bind fun t => t.exec .ljmpStack := by
    simp only [runInstrs, List.foldlM_cons, List.foldlM_nil, Cpu.exec, hpushed, Option.bind_some,
      Option.bind_eq_bind, Option.pure_def, Option.bind_assoc, Option.bind_fun_some]
  rw [hsteps, hpushes, Option.bind_some]
  exact hjump

theorem runInstrs_afterJump (hss : s.Flat .ss) (hplaced : Placed l sp) (hesp : s.esp = slot sp 6)
    (hstack : Stacked s.mem sp (lgdtWords l)) :
    runInstrs s afterJump = some { s with esp := slot sp 3, eip := l.returnAddress } := by
  have hroom := hplaced.room
  have hdrop : s.esp + 8 = slot sp 4 := by
    rw [hesp]
    exact slot_add sp (k := 6) (j := 2) (by decide)
  have hpop : slot sp 4 + 4 = slot sp 3 := slot_add sp (k := 4) (j := 1) (by decide)
  let t : Cpu := { s with esp := slot sp 4 }
  have hflat : t.Flat .ss := hss
  have hread : t.read .ss t.esp = some l.returnAddress := by
    have h := @Stacked.read t sp _ 4 0 l.returnAddress hstack hflat rfl (by omega) (by decide) rfl
    rwa [BitVec.add_zero] at h
  have hret : t.exec .ret = some { t with esp := slot sp 3, eip := l.returnAddress } := by
    rw [Cpu.exec, hread, Option.map_some, hpop]
  rw [runInstrs, afterJump, List.foldlM_cons, Cpu.exec, hdrop]
  simp only [Option.bind_eq_bind, Option.bind_some, List.foldlM_cons, List.foldlM_nil,
    Option.pure_def, Option.bind_fun_some]
  exact hret

theorem runInstrs_append (s : Cpu) (is js : List Instr) :
    runInstrs s (is ++ js) = (runInstrs s is).bind fun s => runInstrs s js :=
  List.foldlM_append

theorem within_gdt {i x : Addr} (hi : i.toNat < 6) (hx : Within (gdtEntry cpuGdt i) 8 x) :
    Within cpuGdt 48 x := by
  unfold Within gdtEntry at *
  bv_omega

theorem below_four {x : Addr} (h : Below sp 4 x) : Below sp 6 x := by
  unfold Below Within at *
  bv_omega

theorem far_disjoint {x : Addr} (h : Below sp 4 x) : ¬ Below (slot sp 4) 2 x := by
  unfold Below slot Within at *
  bv_omega

/-- The memory after a call of `x86_lgdt`: each push and each mark, in order. -/
def lgdtMemory (l : Places) (m : Memory Addr) (sp : Addr) : Memory Addr :=
  let m := pushWords m sp (lgdtWords l)
  let m := markAccessed m (gdtEntry l.cpuGdt x86GdtSegDatak)
  let m := pushWords m (slot sp 4) [0x8, l.setcs]
  markAccessed m (gdtEntry l.cpuGdt x86GdtSegCodek)

theorem pushed_words (l : Places) (m : Memory Addr) (sp : Addr) :
    m.Frame (pushWords m sp (lgdtWords l)) (Below sp 6) := by
  have h := pushWords_frame m sp (lgdtWords l) (by simp [lgdtWords])
  exact h.mono fun x hx => below_four hx

theorem pushed_far (l : Places) (m : Memory Addr) (sp : Addr) :
    m.Frame (pushWords m (slot sp 4) [0x8, l.setcs]) (Below sp 6) := by
  have h := pushWords_frame m (slot sp 4) [0x8, l.setcs] (by simp)
  exact h.mono fun x hx => below_six hx

theorem marked_entry (m : Memory Addr) {i : Addr} (hi : i.toNat < 6) :
    m.Frame (markAccessed m (gdtEntry cpuGdt i)) (Within cpuGdt 48) :=
  (markAccessed_frame m _).mono fun _ hx => within_gdt hi hx

theorem lgdtMemory_frame (l : Places) (m : Memory Addr) (sp : Addr) :
    m.Frame (lgdtMemory l m sp) fun x => Within l.cpuGdt 48 x ∨ Below sp 6 x := by
  have hdata : x86GdtSegDatak.toNat < 6 := by decide
  have hcode : x86GdtSegCodek.toNat < 6 := by decide
  have h := ((pushed_words l m sp).mono fun _ => .inr).trans
    ((marked_entry _ hdata).mono fun x hx => (.inl hx : Within l.cpuGdt 48 x ∨ Below sp 6 x))
  have h := h.trans ((pushed_far l _ sp).mono fun _ => .inr)
  exact h.trans ((marked_entry _ hcode).mono fun _ => .inl)

/-- The kernel's descriptors are marked, and no other one changes. -/
theorem decode_lgdtMemory (hplaced : Placed l sp) (m : Memory Addr) {i : Addr} (hi : i.toNat < 6) :
    decode (lgdtMemory l m sp) (gdtEntry l.cpuGdt i) =
      if i = x86GdtSegCodek ∨ i = x86GdtSegDatak then accessed (decode m (gdtEntry l.cpuGdt i))
      else decode m (gdtEntry l.cpuGdt i) := by
  have hkept : ∀ {m m' : Memory Addr}, m.Frame m' (Below sp 6) →
      decode m' (gdtEntry l.cpuGdt i) = decode m (gdtEntry l.cpuGdt i) := by
    intro m m' h
    refine decode_congr fun x hx => h.1 x fun hbelow => ?_
    exact hplaced.stackGdt x hbelow (within_gdt hi hx)
  rw [lgdtMemory]
  by_cases hcode : i = x86GdtSegCodek
  · subst i
    rw [decode_markAccessed, hkept (pushed_far l _ sp),
      decode_markAccessed_other _ (by decide) (by decide) (by decide), hkept (pushed_words l m sp),
      if_pos (.inl rfl)]
  · rw [decode_markAccessed_other _ hi (by decide) hcode, hkept (pushed_far l _ sp)]
    by_cases hdata : i = x86GdtSegDatak
    · subst i
      rw [decode_markAccessed, hkept (pushed_words l m sp), if_pos (.inr rfl)]
    · rw [decode_markAccessed_other _ hi (by decide) hdata, hkept (pushed_words l m sp),
        if_neg (not_or.mpr ⟨hcode, hdata⟩)]

/-- The call returns with every segment register reloaded. -/
theorem callLgdt_eq (hss : s.Flat .ss) (hds : s.Flat .ds) (hplaced : Placed l s.esp)
    (hlimit : s.mem.loadHalf l.ptr = 47) (hbase : s.mem.loadWord (l.ptr + 2) = l.cpuGdt)
    (hready : Cpu.TableReady { s with gdtr := ⟨47, l.cpuGdt⟩ } l.cpuGdt) :
    callLgdt l s = some { s with
      eax := 0x10
      edx := l.ptr
      eip := l.returnAddress
      selector := kernelSelector
      descriptor := fun r => some (kernelSegment r)
      gdtr := ⟨47, l.cpuGdt⟩
      mem := lgdtMemory l s.mem s.esp } := by
  have hroom := hplaced.room
  let m₁ := pushWords s.mem s.esp (lgdtWords l)
  let m₂ := markAccessed m₁ (gdtEntry l.cpuGdt x86GdtSegDatak)
  let s₁ : Cpu := { s with esp := slot s.esp 4, mem := m₁ }
  let s₂ : Cpu := { s₁ with eax := 0x10, edx := l.ptr, gdtr := ⟨47, l.cpuGdt⟩ }
  let s₃ : Cpu := Cpu.reload { s₂ with mem := m₂ } dataRegisters
  let s₄ : Cpu := { s₃ with
    esp := slot s.esp 6
    eip := l.setcs
    selector := Function.update s₃.selector .cs (kernelSelector .cs)
    descriptor := Function.update s₃.descriptor .cs (some (kernelSegment .cs))
    mem := lgdtMemory l s.mem s.esp }
  let s₅ : Cpu := { s₄ with esp := slot s.esp 3, eip := l.returnAddress }
  have hpushes : (lgdtWords l).foldlM Cpu.push s = some s₁ :=
    hss.pushes (lgdtWords l) (by simp only [lgdtWords, List.length_cons, List.length_nil]; omega)
  -- No push reaches the table or `ptr`, and no mark reaches the stack.
  have hptr : ∀ x, Within l.ptr 6 x → m₁.byte x = s.mem.byte x := fun x hx =>
    (pushed_words l s.mem s.esp).1 x fun hbelow => hplaced.stackPtr x hbelow hx
  have hmarked : ∀ x, Below s.esp 4 x → ¬ Within l.cpuGdt 48 x := fun x hx =>
    hplaced.stackGdt x (below_four hx)
  have hstack₁ : Stacked m₁ s.esp (lgdtWords l) := fun k w hw =>
    pushWords_load s.mem s.esp (lgdtWords l) (by simp [lgdtWords]) hw
  have hstack₂ : Stacked m₂ s.esp (lgdtWords l) :=
    hstack₁.frame (marked_entry m₁ (by decide)) hmarked
  have hstack₄ : Stacked s₄.mem s.esp (lgdtWords l) := by
    have hfar := pushWords_frame m₂ (slot s.esp 4) [0x8, l.setcs] (by simp)
    have hpushed := hstack₂.frame hfar fun x hx => far_disjoint hx
    exact hpushed.frame (marked_entry _ (by decide)) hmarked
  have hready₁ : Cpu.TableReady { s with gdtr := ⟨47, l.cpuGdt⟩, mem := m₁ } l.cpuGdt :=
    hready.frame rfl (pushed_words l s.mem s.esp) fun x hx hbelow => hplaced.stackGdt x hbelow hx
  have hlgdt : runInstrs s₁ [.movlStackEdx 4, .movlStackEax 8, .lgdt] = some s₂ := by
    refine runInstrs_lgdt hss hds hplaced rfl hstack₁ ?_ ?_
    · rw [← hlimit]
      refine Memory.loadHalf_congr fun x hx => hptr x ?_
      unfold Within at *
      omega
    · rw [← hbase]
      refine Memory.loadWord_congr fun x hx => hptr x ?_
      unfold Within at *
      bv_omega
  have hdata : runInstrs s₂ (dataRegisters.map .movEax) = some s₃ :=
    runInstrs_dataRegisters ⟨hready₁.gdtr, hready₁.code, hready₁.data⟩ rfl
  have hready₃ : s₃.TableReady l.cpuGdt := hready₁.marked .ds rfl rfl
  have hljmp : runInstrs s₃ [.pushlStack 12, .pushl l.setcs, .ljmpStack] = some s₄ :=
    runInstrs_ljmp ⟨kernelSegment .ss, rfl, rfl, rfl⟩ hplaced rfl hstack₂ hready₃
  have hafter : runInstrs s₄ afterJump = some s₅ :=
    runInstrs_afterJump ⟨kernelSegment .ss, rfl, rfl, rfl⟩ hplaced rfl hstack₄
  have hbefore : runInstrs s₁ (beforeJump l.setcs) = some s₄ := by
    have hsplit : beforeJump l.setcs = [.movlStackEdx 4, .movlStackEax 8, .lgdt] ++
        (dataRegisters.map .movEax ++ [.pushlStack 12, .pushl l.setcs, .ljmpStack]) := rfl
    rw [hsplit, runInstrs_append, hlgdt, Option.bind_some, runInstrs_append, hdata,
      Option.bind_some, hljmp]
  have hcall : x86Lgdt l.setcs s₁ = some s₅ := by
    rw [x86Lgdt, hbefore]
    exact (if_pos rfl).trans hafter
  have hesp : s₅.esp + 12 = s.esp := (slot_add s.esp (le_refl 3)).trans (slot_zero _)
  rw [callLgdt, hpushes]
  simp only [Option.bind_eq_bind, Option.bind_some, hcall, Option.pure_def, hesp]
  have hselector : s₅.selector = kernelSelector := by
    funext r
    cases r <;> rfl
  have hdescriptor : s₅.descriptor = fun r => some (kernelSegment r) := by
    funext r
    cases r <;> rfl
  rw [hselector, hdescriptor]
  rfl

end Run

section Whole
variable {l : Places} {sp : Addr}

theorem loadHalf_storeHalf_other {a b : Addr} (m : Memory Addr) (h : BitVec 16)
    (hne : b = a + 2 ∨ a = b + 2 ∨ a = b + 4) : (m.storeHalf a h).loadHalf b = m.loadHalf b := by
  refine Memory.loadHalf_congr fun x hx => (m.frame_storeHalf a h).1 x fun hx' => ?_
  unfold Within at hx hx'
  bv_omega

theorem loadWord_halves (m : Memory Addr) (a : Addr) :
    m.loadWord a = m.loadHalf (a + 2) ++ m.loadHalf a := by
  have hnext : a + 2 + 1 = a + 3 := by bv_omega
  rw [Memory.loadWord, Memory.loadHalf, Memory.loadHalf, hnext, BitVec.append_assoc]
  rfl

theorem halves_append (w : BitVec 32) : (w >>> 16).setWidth 16 ++ w.setWidth 16 = w := by
  apply BitVec.eq_of_getLsbD_eq
  intro i hi
  rw [BitVec.getLsbD_append]
  split
  · simp_all
  · rw [BitVec.getLsbD_setWidth, BitVec.getLsbD_ushiftRight, show 16 + (i - 16) = i by omega]
    simp [show i - 16 < 16 by omega]

theorem append_halves (hi lo : BitVec 16) :
    (hi ++ lo).setWidth 16 = lo ∧ (hi ++ lo) >>> 16 = hi.setWidth 32 := by
  constructor
  · rw [BitVec.setWidth_append]
    simp
  · apply BitVec.eq_of_getLsbD_eq
    intro i hlt
    rw [BitVec.getLsbD_ushiftRight, BitVec.getLsbD_append, if_neg (by omega),
      Nat.add_sub_cancel_left, BitVec.getLsbD_setWidth]
    simp [hlt]

/-- `ptr` is what `lgdt` takes: 48 bytes at the table. -/
theorem storePtr_record (l : Places) (m : Memory Addr) : (storePtr l m).loadHalf l.ptr = 47 ∧
    (storePtr l m).loadWord (l.ptr + 2) = l.cpuGdt := by
  have hupper : l.ptr + 2 + 2 = l.ptr + 4 := by bv_omega
  rw [loadWord_halves, hupper, storePtr]
  constructor
  · rw [loadHalf_storeHalf_other _ _ (.inr (.inr rfl)),
      loadHalf_storeHalf_other _ _ (.inr (.inl rfl)), Memory.loadHalf_storeHalf]
    rfl
  · rw [Memory.loadHalf_storeHalf, loadHalf_storeHalf_other _ _ (.inr (.inl hupper.symm)),
      Memory.loadHalf_storeHalf, halves_append]

theorem storePtr_frame (l : Places) (m : Memory Addr) :
    m.Frame (storePtr l m) (Within l.ptr 6) := by
  have hhalf : ∀ (k : Addr) (m : Memory Addr) (h : BitVec 16), k.toNat + 1 < 6 →
      m.Frame (m.storeHalf (l.ptr + k) h) (Within l.ptr 6) := by
    intro k m h hk
    refine (m.frame_storeHalf _ h).mono fun x hx => ?_
    unfold Within at *
    bv_omega
  have hfirst : m.Frame (m.storeHalf l.ptr (8 * 6 - 1)) (Within l.ptr 6) := by
    refine (m.frame_storeHalf l.ptr _).mono fun x hx => ?_
    unfold Within at *
    omega
  exact (hfirst.trans (hhalf 2 _ _ (by decide))).trans (hhalf 4 _ _ (by decide))

theorem gdtSegments_lt {tss : Addr} {e : Addr × Request} (he : e ∈ gdtSegments tss) :
    e.1.toNat < 6 := by
  have hall : ∀ e ∈ gdtSegments tss, e.1.toNat < 6 := by
    simp [gdtSegments, x86GdtSegCodek, x86GdtSegDatak, x86GdtSegCodeu, x86GdtSegDatau,
      x86GdtSegTss]
  exact hall e he

theorem segmentsInit_frame (cpuGdt tss : Addr) (s : Kernel) :
    s.mem.Frame (SegmentDescriptors.segmentsInit cpuGdt tss s).mem (Within cpuGdt 48) := by
  have hset : ∀ (segments : List (Addr × Request)) (m : Memory Addr),
      (∀ e ∈ segments, e.1.toNat < 6) →
        m.Frame (storeSegments cpuGdt m segments) (Within cpuGdt 48) := by
    intro segments
    induction segments with
    | nil => exact fun m _ => Memory.Frame.refl m _
    | cons e rest ih =>
        intro m hlt
        have hfirst := (storeDescriptor_frame m (gdtEntry cpuGdt e.1) e.2.base e.2.limit e.2.access
          e.2.flags).mono fun x hx => within_gdt (hlt e (by simp)) hx
        exact hfirst.trans (ih _ fun e he => hlt e (by simp [he]))
  have hzero : s.mem.Frame (Memop.memset s.mem cpuGdt 0 (8 * x86GdtSegSize)).2 (Within cpuGdt 48) :=
    Memop.memsetLoop_frame 0 48 cpuGdt s.mem (by decide)
  rw [segmentsInit_mem]
  exact hzero.trans (hset (gdtSegments tss) _ fun e he => gdtSegments_lt he)

/-- What `sgdt` shows is what `lgdt` took. -/
theorem storeGdtr_values (a : Addr) (gdtr : Gdtr) (m : Memory Addr) :
    let m' := storeGdtr a gdtr m
    m'.loadHalf a = gdtr.limit ∧ m'.loadHalf (a + 2) = gdtr.base.setWidth 16 ∧
      (m'.loadHalf (a + 4)).setWidth 32 = gdtr.base >>> 16 := by
  intro m'
  have hword : m'.loadWord (a + 2) = gdtr.base := Memory.loadWord_storeWord _ _ _
  have hupper : a + 2 + 2 = a + 4 := by bv_omega
  rw [loadWord_halves, hupper] at hword
  have hlimit : m'.loadHalf a = gdtr.limit := by
    rw [← (m.loadHalf_storeHalf a gdtr.limit)]
    refine Memory.loadHalf_congr fun x hx => ?_
    refine (Memory.frame_storeWord _ (a + 2) gdtr.base).1 x fun hx' => ?_
    unfold Within at *
    bv_omega
  obtain ⟨hlow, hhigh⟩ := append_halves (m'.loadHalf (a + 4)) (m'.loadHalf (a + 2))
  rw [← hword]
  exact ⟨hlimit, hlow.symm, hhigh.symm⟩

theorem storeGdtr_frame (a : Addr) (gdtr : Gdtr) (m : Memory Addr) :
    m.Frame (storeGdtr a gdtr m) (Within a 6) := by
  refine Memory.Frame.trans ((m.frame_storeHalf a _).mono fun x hx => ?_)
    ((Memory.frame_storeWord _ (a + 2) _).mono fun x hx => ?_)
  · unfold Within at *
    omega
  · unfold Within at *
    bv_omega

/-- A descriptor that is marked already is loaded without a store. -/
theorem Cpu.TableReady.load_accessed {s : Cpu} {cpuGdt : Addr} (h : s.TableReady cpuGdt)
    (r : Register)
    (hset : (decode s.mem (gdtEntry cpuGdt (kernelIndex r))).access.getLsbD 0 = true) :
    s.load r (kernelSelector r) = some { s with
      selector := Function.update s.selector r (kernelSelector r)
      descriptor := Function.update s.descriptor r (some (kernelSegment r)) } := by
  rw [h.load r, markAccessed_of_set hset]

/-- Loading what a register holds already changes nothing. -/
theorem Cpu.TableReady.again {s : Cpu} {cpuGdt : Addr} {r : Register} (h : s.TableReady cpuGdt)
    (hselector : s.selector r = kernelSelector r)
    (hdescriptor : s.descriptor r = some (kernelSegment r))
    (hset : (decode s.mem (gdtEntry cpuGdt (kernelIndex r))).access.getLsbD 0 = true) :
    s.load r (s.selector r) = some s := by
  have hload := h.load_accessed r hset
  rw [← hdescriptor, ← hselector, Function.update_eq_self, Function.update_eq_self] at hload
  exact hload

/-- The messages of `segments_init` after the table is loaded, newest first. -/
def loadedMessages (l : Places) : List Event :=
  [.klog "DEBUG" "SGDT: %x %x %x\n" [47, (l.cpuGdt.setWidth 16).setWidth 32, l.cpuGdt >>> 16],
    .klog "DEBUG" "GS: %x\n" [0x10], .klog "DEBUG" "FS: %x\n" [0x10],
    .klog "DEBUG" "DS: %x\n" [0x10], .klog "DEBUG" "SS: %x\n" [0x10],
    .klog "DEBUG" "ES: %x\n" [0x10], .klog "DEBUG" "CS: %x\n" [0x8],
    .klog "DEBUG" "Segments loaded\n" []]

theorem logSegments_eq (hplaced : Placed l sp) {s : Machine}
    (hselector : s.cpu.selector = kernelSelector) (hflat : s.cpu.Flat .ds)
    (hgdtr : s.cpu.gdtr = ⟨47, l.cpuGdt⟩) : logSegments l s =
      some ⟨{ s.cpu with mem := storeGdtr l.values ⟨47, l.cpuGdt⟩ s.cpu.mem },
        loadedMessages l ++ s.events⟩ := by
  obtain ⟨hlimit, hlow, hhigh⟩ := storeGdtr_values l.values ⟨47, l.cpuGdt⟩ s.cpu.mem
  have hlinear : s.cpu.linear .ds l.values 6 = some l.values := hflat.linear hplaced.values
  simp only [logSegments, logGdtr, logSegment, hlinear, Option.map_some, List.map_cons,
    List.map_nil, hgdtr, hselector, hlimit, hlow, hhigh]
  rfl

/-- What `segments_init` leaves in the processor: the new table in its register,
every segment register on a kernel segment of it, and the call returned. What `klog`
writes for the messages is not in the frame. -/
structure Loaded (l : Places) (s s' : Cpu) : Prop where
  gdtr : s'.gdtr = ⟨47, l.cpuGdt⟩
  returned : s'.eip = l.returnAddress ∧ s'.esp = s.esp
  selector : ∀ r, s'.selector r = if r = .cs then 0x8 else 0x10
  flat : ∀ r offset size, offset.toNat + size ≤ 2 ^ 32 → s'.linear r offset size = some offset
  reload : ∀ r, s'.load r (s'.selector r) = some s'
  segments : ∀ e ∈ gdtSegments l.tss, decode s'.mem (gdtEntry l.cpuGdt e.1) =
    if e.1 = x86GdtSegCodek ∨ e.1 = x86GdtSegDatak then accessed e.2.granted else e.2.granted
  frame : s.mem.Frame s'.mem fun x =>
    Within l.cpuGdt 48 x ∨ Below s.esp 6 x ∨ Within l.ptr 6 x ∨ Within l.values 6 x

/-- The run of `segments_init`: next to what it leaves, the table is ready for
further loads and each register holds the descriptor that a load would take. -/
theorem segmentsInit_run (l : Places) (s : Machine) (hds : s.cpu.Flat .ds) (hss : s.cpu.Flat .ss)
    (hplaced : Placed l s.cpu.esp) : ∃ cpu, segmentsInit l s = some ⟨cpu, loadedMessages l ++
        (SegmentDescriptors.segmentsInit l.cpuGdt l.tss ⟨s.cpu.mem, s.events⟩).events⟩ ∧
      Loaded l s.cpu cpu ∧ cpu.TableReady l.cpuGdt ∧
      cpu.descriptor = fun r => some (kernelSegment r) := by
  let kernel := SegmentDescriptors.segmentsInit l.cpuGdt l.tss ⟨s.cpu.mem, s.events⟩
  let m := storePtr l kernel.mem
  let cpu : Cpu := { s.cpu with mem := m }
  let called : Cpu := { s.cpu with
    eax := 0x10
    edx := l.ptr
    eip := l.returnAddress
    selector := kernelSelector
    descriptor := fun r => some (kernelSegment r)
    gdtr := ⟨47, l.cpuGdt⟩
    mem := lgdtMemory l m s.cpu.esp }
  have htable : s.cpu.mem.Frame kernel.mem (Within l.cpuGdt 48) :=
    segmentsInit_frame l.cpuGdt l.tss ⟨s.cpu.mem, s.events⟩
  have hptr : kernel.mem.Frame m (Within l.ptr 6) := storePtr_frame l kernel.mem
  have hdecode : ∀ e ∈ gdtSegments l.tss,
      decode m (gdtEntry l.cpuGdt e.1) = e.2.granted := by
    intro e he
    rw [← decode_segmentsInit l.cpuGdt l.tss ⟨s.cpu.mem, s.events⟩ he]
    exact decode_congr fun x hx => hptr.1 x (hplaced.gdtPtr x (within_gdt (gdtSegments_lt he) hx))
  obtain ⟨hlimit, hbase⟩ := storePtr_record l kernel.mem
  have hready : Cpu.TableReady { cpu with gdtr := ⟨47, l.cpuGdt⟩ } l.cpuGdt := by
    refine ⟨rfl, ?_, ?_⟩
    · have h := hdecode (x86GdtSegCodek, ⟨0, 0xFFFFFFFF, 0x9A, 0xCF⟩) (by simp [gdtSegments])
      exact congrArg accessed h
    · have h := hdecode (x86GdtSegDatak, ⟨0, 0xFFFFFFFF, 0x92, 0xCF⟩) (by simp [gdtSegments])
      exact congrArg accessed h
  have hcall : callLgdt l cpu = some called := callLgdt_eq hss hds hplaced hlimit hbase hready
  have hlog := @logSegments_eq l s.cpu.esp hplaced ⟨called, kernel.events⟩ rfl
    ⟨kernelSegment .ds, rfl, rfl, rfl⟩ rfl
  have hrun : loadSegments l s = some ⟨called, kernel.events⟩ := by
    change (callLgdt l cpu).bind (fun cpu => some (Machine.mk cpu kernel.events)) = _
    rw [hcall, Option.bind_some]
  let last : Cpu := { called with mem := storeGdtr l.values ⟨47, l.cpuGdt⟩ called.mem }
  have hcalled := lgdtMemory_frame l m s.cpu.esp
  have hvalues := storeGdtr_frame l.values ⟨47, l.cpuGdt⟩ called.mem
  have hsegments : ∀ e ∈ gdtSegments l.tss, decode last.mem (gdtEntry l.cpuGdt e.1) =
      if e.1 = x86GdtSegCodek ∨ e.1 = x86GdtSegDatak then accessed e.2.granted
      else e.2.granted := by
    intro e he
    have hlt := gdtSegments_lt he
    have hkept : decode last.mem (gdtEntry l.cpuGdt e.1) =
        decode called.mem (gdtEntry l.cpuGdt e.1) :=
      decode_congr fun x hx => hvalues.1 x (hplaced.gdtValues x (within_gdt hlt hx))
    rw [hkept, decode_lgdtMemory hplaced m hlt, hdecode e he]
  have hcode : decode last.mem (gdtEntry l.cpuGdt x86GdtSegCodek) = flatSegment 0x9B :=
    hsegments (x86GdtSegCodek, ⟨0, 0xFFFFFFFF, 0x9A, 0xCF⟩) (by simp [gdtSegments])
  have hdata : decode last.mem (gdtEntry l.cpuGdt x86GdtSegDatak) = flatSegment 0x93 :=
    hsegments (x86GdtSegDatak, ⟨0, 0xFFFFFFFF, 0x92, 0xCF⟩) (by simp [gdtSegments])
  have hlast : last.TableReady l.cpuGdt :=
    ⟨rfl, congrArg accessed hcode, congrArg accessed hdata⟩
  refine ⟨last, ?_, ⟨rfl, ⟨rfl, rfl⟩, ?_, ?_, ?_, hsegments, ?_⟩, hlast, rfl⟩
  · rw [segmentsInit, hrun, Option.bind_some, hlog]
  · intro r
    cases r <;> rfl
  · intro r offset size hfit
    exact Cpu.Flat.linear ⟨kernelSegment r, rfl, rfl, rfl⟩ hfit
  · intro r
    refine hlast.again rfl rfl ?_
    cases r with
    | cs => exact congrArg (fun seg => seg.access.getLsbD 0) hcode
    | ss | ds | es | fs | gs => exact congrArg (fun seg => seg.access.getLsbD 0) hdata
  · refine Memory.Frame.trans (htable.mono fun x hx => .inl hx) ?_
    refine Memory.Frame.trans (hptr.mono fun x hx => .inr (.inr (.inl hx))) ?_
    refine Memory.Frame.trans (hcalled.mono fun x hx => hx.imp_right .inl) ?_
    exact hvalues.mono fun x hx => .inr (.inr (.inr hx))

/-- From flat segments of whatever table, `segments_init` moves the processor to
its own. The selectors can be loaded again at any time, as every trap does, and
that changes nothing. -/
theorem segments_loaded (l : Places) (s : Machine) (hds : s.cpu.Flat .ds) (hss : s.cpu.Flat .ss)
    (hplaced : Placed l s.cpu.esp) : ∃ s', segmentsInit l s = some s' ∧ Loaded l s.cpu s'.cpu ∧
      s'.events = loadedMessages l ++
        (SegmentDescriptors.segmentsInit l.cpuGdt l.tss ⟨s.cpu.mem, s.events⟩).events := by
  obtain ⟨cpu, hrun, hloaded, -⟩ := segmentsInit_run l s hds hss hplaced
  exact ⟨_, hrun, hloaded, rfl⟩

end Whole

/-- A layout with `ptr` on the stack, right above the arguments. -/
def smallPlaces : Places where
  cpuGdt := 0x80110004
  tss := 0x80111000
  ptr := 0x8010FFE2
  values := 0x80112000
  setcs := 0x80101234
  returnAddress := 0x80102345

/-- The segments of a boot loader, whose table is gone. -/
def loaderMachine : Machine where
  cpu := {
    eax := 0
    edx := 0
    esp := 0x8010FFE0
    eip := 0x80102300
    selector := fun r => if r = .cs then 0x10 else 0x18
    descriptor := fun r => some (flatSegment (if r = .cs then 0x9B else 0x93))
    gdtr := ⟨0, 0⟩
    mem := ⟨fun _ => 0, []⟩ }
  events := []

theorem segments_loaded_small : ∃ s', segmentsInit smallPlaces loaderMachine = some s' ∧
    Loaded smallPlaces loaderMachine.cpu s'.cpu ∧ s'.events = loadedMessages smallPlaces ++
      (SegmentDescriptors.segmentsInit 0x80110004 0x80111000 ⟨⟨fun _ => 0, []⟩, []⟩).events := by
  have hplaced : Placed smallPlaces 0x8010FFE0 := by
    refine ⟨by decide, by decide, by decide, ?_, ?_, ?_, ?_⟩
    all_goals
      intro x hx hx'
      simp only [smallPlaces, Below, Within] at hx hx'
      bv_omega
  exact segments_loaded smallPlaces loaderMachine ⟨_, rfl, rfl, rfl⟩ ⟨_, rfl, rfl, rfl⟩ hplaced

end Yack.SegmentLoading
