import Yack.ByteMemory

/-!
# Addresses, pages and the two-level page walk

The macros of `arch/i386/include/x86.h` and `memlayout.h` that paging and the
page allocator use, on 32-bit words, and the walk the processor performs.

The memory is indexed by the kernel's own view of it: the byte at physical
address `pa` sits at `mmVirtaddr pa`, so the processor's reads go through that
map and the kernel's reads do not. Video memory and ports are devices and are
not part of it.
-/
namespace Yack.MemoryLayout
open ByteMemory

def x86ExtendedMemory : Addr := 0x00100000
def x86KernelBase : Addr := 0x80000000
def x86KernelLink : Addr := x86KernelBase + x86ExtendedMemory
def x86Pagesz : Addr := 4096
def fourMb : Addr := 0x00400000

/-- `MM_PHYSADDR` and `MM_VIRTADDR`, inverse to each other modulo `2 ^ 32`. -/
def mmPhysaddr (va : Addr) : Addr := va - x86KernelBase
def mmVirtaddr (pa : Addr) : Addr := pa + x86KernelBase

def mmPageup (address : Addr) : Addr := (address + x86Pagesz - 1) &&& ~~~(x86Pagesz - 1)
def mmPagedown (address : Addr) : Addr := address &&& ~~~(x86Pagesz - 1)
def mmIsPageAligned (addr : Addr) : Bool := addr % x86Pagesz == 0

def x86PdIndex (va : Addr) : Addr := (va >>> 22) &&& 0x3FF
def x86PtIndex (va : Addr) : Addr := (va >>> 12) &&& 0x3FF
def x86PteAddr (pte : BitVec 32) : Addr := pte &&& ~~~0xFFF

/-- Flags of directory entries; table entries use the same three low bits. -/
def x86PdePresent : BitVec 32 := 1
def x86PdeRw : BitVec 32 := 2
def x86PdeUs : BitVec 32 := 4
def x86PdePs : BitVec 32 := 0x80
def x86PtePresent : BitVec 32 := 1
def x86PteRdonly : BitVec 16 := 0
def x86PteRdwr : BitVec 16 := 2

/-- A bit that has to be clear in the entry of a 4 MB page. -/
def reservedPs : BitVec 32 := 0x200000

def hasFlag (entry flag : BitVec 32) : Bool := entry &&& flag != 0

/-- `&table[index]` for an array of 32-bit entries. -/
def entryAddr (table index : Addr) : Addr := table + 4 * index

structure Translation where
  phys : Addr
  writable : Bool
  user : Bool
deriving DecidableEq, Repr

/-- The word the processor reads at a physical address. -/
def physWord (m : Memory Addr) (pa : Addr) : BitVec 32 := m.loadWord (mmVirtaddr pa)

/-- The walk of `v` from the directory base in `cr3`, with `CR4.PSE` set as
`entry.S` leaves it. Rights are the conjunction over the two levels; without a
translation, also behind a reserved bit, the access faults. -/
def pageWalk (m : Memory Addr) (cr3 v : Addr) : Option Translation :=
  let pde := physWord m (entryAddr (x86PteAddr cr3) (x86PdIndex v))
  if hasFlag pde x86PdePresent then
    if hasFlag pde x86PdePs then
      if hasFlag pde reservedPs then none
      else
        some ⟨(pde &&& 0xFFC00000) ||| (v &&& 0x3FFFFF), hasFlag pde x86PdeRw,
          hasFlag pde x86PdeUs⟩
    else
      let pte := physWord m (entryAddr (x86PteAddr pde) (x86PtIndex v))
      if hasFlag pte x86PtePresent then
        some ⟨x86PteAddr pte ||| (v &&& 0xFFF), hasFlag pde x86PdeRw && hasFlag pte x86PdeRw,
          hasFlag pde x86PdeUs && hasFlag pte x86PdeUs⟩
      else none
  else none

@[simp] theorem mmPhysaddr_virtaddr (pa : Addr) : mmPhysaddr (mmVirtaddr pa) = pa := by
  simp only [mmPhysaddr, mmVirtaddr]
  exact BitVec.add_sub_cancel _ _

@[simp] theorem mmVirtaddr_physaddr (va : Addr) : mmVirtaddr (mmPhysaddr va) = va := by
  simp only [mmPhysaddr, mmVirtaddr]
  exact BitVec.sub_add_cancel _ _

theorem mask_getLsbD (w n k : ℕ) (hn : n ≤ w) :
    (BitVec.ofNat w (2 ^ n - 1)).getLsbD k = decide (k < n) := by
  rw [BitVec.getLsbD_ofNat, Nat.testBit_two_pow_sub_one]
  by_cases hk : k < n
  · simp [hk, show k < w by omega]
  · simp [hk]

theorem mmPagedown_getLsbD (a : Addr) (k : ℕ) :
    (mmPagedown a).getLsbD k = (decide (12 ≤ k) && a.getLsbD k) := by
  have hmask : (x86Pagesz - 1).getLsbD k = decide (k < 12) := mask_getLsbD 32 12 k (by decide)
  by_cases hk : k < 32
  · rw [mmPagedown, BitVec.getLsbD_and, BitVec.getLsbD_not, hmask]
    by_cases h12 : k < 12
    · simp [h12, Nat.not_le.mpr h12]
    · simp [h12, hk, Nat.not_lt.mp h12]
  · simp [BitVec.getLsbD_of_ge _ _ (Nat.not_lt.mp hk)]

theorem mmPagedown_toNat (a : Addr) : (mmPagedown a).toNat = a.toNat / 4096 * 4096 := by
  have hbits : mmPagedown a = (a >>> 12) <<< 12 := by
    apply BitVec.eq_of_getLsbD_eq
    intro k hk
    rw [mmPagedown_getLsbD, BitVec.getLsbD_shiftLeft, BitVec.getLsbD_ushiftRight]
    by_cases h12 : 12 ≤ k
    · simp [h12, hk, Nat.not_lt.mpr h12, show 12 + (k - 12) = k by omega]
    · simp [h12, Nat.not_le.mp h12]
  rw [hbits, BitVec.toNat_shiftLeft, BitVec.toNat_ushiftRight, Nat.shiftLeft_eq,
    Nat.shiftRight_eq_div_pow]
  omega

theorem mmPageup_toNat (a : Addr) :
    (mmPageup a).toNat = (a.toNat + 4095) % 2 ^ 32 / 4096 * 4096 := by
  have hsum : a + x86Pagesz - 1 = a + 4095 := by
    rw [BitVec.sub_eq_add_neg, BitVec.add_assoc]
    rfl
  rw [show mmPageup a = mmPagedown (a + x86Pagesz - 1) from rfl, mmPagedown_toNat, hsum,
    BitVec.toNat_add]
  rfl

theorem x86PteAddr_eq (e : BitVec 32) : x86PteAddr e = mmPagedown e := rfl

theorem x86PdIndex_toNat (a : Addr) : (x86PdIndex a).toNat = a.toNat / 2 ^ 22 := by
  rw [x86PdIndex, BitVec.toNat_and, BitVec.toNat_ushiftRight, Nat.shiftRight_eq_div_pow]
  rw [show (0x3FF : Addr).toNat = 2 ^ 10 - 1 from rfl, Nat.and_two_pow_sub_one_eq_mod]
  omega

theorem x86PtIndex_toNat (a : Addr) : (x86PtIndex a).toNat = a.toNat / 4096 % 1024 := by
  rw [x86PtIndex, BitVec.toNat_and, BitVec.toNat_ushiftRight, Nat.shiftRight_eq_div_pow]
  rw [show (0x3FF : Addr).toNat = 2 ^ 10 - 1 from rfl, Nat.and_two_pow_sub_one_eq_mod]

def PageAligned (a : Addr) : Prop := a.toNat % 4096 = 0

instance (a : Addr) : Decidable (PageAligned a) := inferInstanceAs (Decidable (_ = _))

theorem mmIsPageAligned_iff (a : Addr) : mmIsPageAligned a = true ↔ PageAligned a := by
  simp only [mmIsPageAligned, beq_iff_eq, PageAligned]
  constructor
  · intro h
    have := congrArg BitVec.toNat h
    simpa [x86Pagesz] using this
  · intro h
    apply BitVec.eq_of_toNat_eq
    simpa [x86Pagesz] using h

theorem pageAligned_pagedown (a : Addr) : PageAligned (mmPagedown a) := by
  rw [PageAligned, mmPagedown_toNat]
  omega

theorem pageAligned_pageup (a : Addr) : PageAligned (mmPageup a) := pageAligned_pagedown _

theorem pageAligned_add {p : Addr} (h : PageAligned p) (k : ℕ) :
    PageAligned (p + BitVec.ofNat 32 (4096 * k)) := by
  unfold PageAligned at *
  rw [BitVec.toNat_add, BitVec.toNat_ofNat]
  omega

theorem PageAligned.pagedown {p : Addr} (h : PageAligned p) : mmPagedown p = p := by
  apply BitVec.eq_of_toNat_eq
  rw [mmPagedown_toNat]
  unfold PageAligned at h
  omega

theorem PageAligned.aligned4 {p : Addr} (h : PageAligned p) : Aligned4 p := by
  unfold PageAligned at h
  unfold Aligned4
  omega

/-- An address lies in the page that `mmPagedown` names, and in no other. -/
theorem within_page {p x : Addr} (h : PageAligned p) : Within p 4096 x ↔ mmPagedown x = p := by
  rw [← BitVec.toNat_inj, mmPagedown_toNat]
  unfold PageAligned at h
  unfold Within
  bv_omega

/-- The four bytes of an aligned word share a page. -/
theorem Aligned4.pagedown_within {a x : Addr} (h : Aligned4 a) (hx : Within a 4 x) :
    mmPagedown x = mmPagedown a := by
  rw [← BitVec.toNat_inj, mmPagedown_toNat, mmPagedown_toNat]
  unfold Aligned4 at h
  unfold Within at hx
  bv_omega

theorem entryAddr_toNat {p i : Addr} (h : PageAligned p) (hi : i.toNat < 1024) :
    (entryAddr p i).toNat = p.toNat + 4 * i.toNat := by
  unfold PageAligned at h
  unfold entryAddr
  bv_omega

theorem entryAddr_pagedown {p i : Addr} (h : PageAligned p) (hi : i.toNat < 1024) :
    mmPagedown (entryAddr p i) = p := by
  rw [← BitVec.toNat_inj, mmPagedown_toNat, entryAddr_toNat h hi]
  unfold PageAligned at h
  omega

theorem entryAddr_aligned {p i : Addr} (h : PageAligned p) (hi : i.toNat < 1024) :
    Aligned4 (entryAddr p i) := by
  unfold PageAligned at h
  rw [Aligned4, entryAddr_toNat h hi]
  omega

theorem entryAddr_inj {p q i j : Addr} (hp : PageAligned p) (hq : PageAligned q)
    (hi : i.toNat < 1024) (hj : j.toNat < 1024) :
    entryAddr p i = entryAddr q j ↔ p = q ∧ i = j := by
  constructor
  · intro h
    have hpage : p = q := by rw [← entryAddr_pagedown hp hi, h, entryAddr_pagedown hq hj]
    subst q
    have hval := congrArg BitVec.toNat h
    rw [entryAddr_toNat hp hi, entryAddr_toNat hp hj] at hval
    exact ⟨rfl, BitVec.eq_of_toNat_eq (by omega)⟩
  · rintro ⟨rfl, rfl⟩
    rfl

theorem x86PdIndex_lt (a : Addr) : (x86PdIndex a).toNat < 1024 := by
  rw [x86PdIndex_toNat]
  omega

theorem x86PtIndex_lt (a : Addr) : (x86PtIndex a).toNat < 1024 := by
  rw [x86PtIndex_toNat]
  omega

/-- The two indices identify the page. -/
theorem pagedown_eq_iff {v w : Addr} :
    mmPagedown v = mmPagedown w ↔ x86PdIndex v = x86PdIndex w ∧ x86PtIndex v = x86PtIndex w := by
  simp only [← BitVec.toNat_inj, mmPagedown_toNat, x86PdIndex_toNat, x86PtIndex_toNat]
  omega

/-- The processor reaches an entry of the page at `mmVirtaddr pa` from `pa`. -/
theorem physWord_entry (m : Memory Addr) (pa i : Addr) :
    physWord m (entryAddr pa i) = m.loadWord (entryAddr (mmVirtaddr pa) i) := by
  unfold physWord entryAddr mmVirtaddr
  rw [BitVec.add_assoc, BitVec.add_comm (4 * i), ← BitVec.add_assoc]

theorem pageAligned_physaddr {p : Addr} : PageAligned (mmPhysaddr p) ↔ PageAligned p := by
  unfold PageAligned mmPhysaddr x86KernelBase
  constructor <;> intro h <;> bv_omega

theorem hasFlag_twoPow (e : BitVec 32) {k : ℕ} (hk : k < 32) :
    hasFlag e (BitVec.twoPow 32 k) = e.getLsbD k := by
  rw [hasFlag, BitVec.and_twoPow]
  cases he : e.getLsbD k
  · rfl
  · simp only [if_true, bne_iff_ne, ne_eq]
    intro h
    have := congrArg (fun x => x.getLsbD k) h
    simp [hk] at this

theorem hasFlag_present (e : BitVec 32) : hasFlag e x86PdePresent = e.getLsbD 0 :=
  hasFlag_twoPow e (k := 0) (by decide)

theorem hasFlag_ptePresent (e : BitVec 32) : hasFlag e x86PtePresent = e.getLsbD 0 :=
  hasFlag_twoPow e (k := 0) (by decide)

theorem hasFlag_rw (e : BitVec 32) : hasFlag e x86PdeRw = e.getLsbD 1 :=
  hasFlag_twoPow e (k := 1) (by decide)

theorem hasFlag_us (e : BitVec 32) : hasFlag e x86PdeUs = e.getLsbD 2 :=
  hasFlag_twoPow e (k := 2) (by decide)

theorem hasFlag_ps (e : BitVec 32) : hasFlag e x86PdePs = e.getLsbD 7 :=
  hasFlag_twoPow e (k := 7) (by decide)

theorem hasFlag_reserved (e : BitVec 32) : hasFlag e reservedPs = e.getLsbD 21 :=
  hasFlag_twoPow e (k := 21) (by decide)

theorem PageAligned.getLsbD {p : Addr} (h : PageAligned p) {k : ℕ} (hk : k < 12) :
    p.getLsbD k = false := by
  rw [← h.pagedown, mmPagedown_getLsbD]
  simp [Nat.not_le.mpr hk]

/-- Flags below bit 12 do not disturb the frame address of an entry. -/
theorem x86PteAddr_or {p f : BitVec 32} (hp : PageAligned p) (hf : f.toNat < 4096) :
    x86PteAddr (p ||| f) = p := by
  rw [x86PteAddr_eq]
  apply BitVec.eq_of_getLsbD_eq
  intro k hk
  rw [mmPagedown_getLsbD, BitVec.getLsbD_or]
  by_cases h12 : 12 ≤ k
  · have : f.getLsbD k = false := by
      rw [BitVec.getLsbD, Nat.testBit_lt_two_pow]
      exact Nat.lt_of_lt_of_le hf (Nat.pow_le_pow_right (by omega) h12 : 2 ^ 12 ≤ 2 ^ k)
    simp [h12, this]
  · simp [h12, hp.getLsbD (Nat.not_le.mp h12)]

/-- Joining a frame and a page offset is addition. -/
theorem frame_or_offset {p v : Addr} (hp : PageAligned p) :
    p ||| (v &&& 0xFFF) = p + (v - mmPagedown v) := by
  have hoff : v &&& 0xFFF = v - mmPagedown v := by
    apply BitVec.eq_of_toNat_eq
    rw [BitVec.toNat_and, show (0xFFF : Addr).toNat = 2 ^ 12 - 1 from rfl,
      Nat.and_two_pow_sub_one_eq_mod]
    have := mmPagedown_toNat v
    bv_omega
  rw [← hoff]
  refine (BitVec.add_eq_or_of_and_eq_zero _ _ ?_).symm
  apply BitVec.eq_of_getLsbD_eq
  intro k hk
  rw [BitVec.getLsbD_and, BitVec.getLsbD_and, BitVec.getLsbD_zero]
  by_cases h12 : k < 12
  · rw [hp.getLsbD h12, Bool.false_and]
  · have hmask : (0xFFF : Addr).getLsbD k = false :=
      (mask_getLsbD 32 12 k (by decide)).trans (decide_eq_false h12)
    rw [hmask, Bool.and_false, Bool.and_false]

end Yack.MemoryLayout
