import Yack.Memop
import Yack.PageAllocator
import Mathlib.Data.Int.Notation

/-!
# Mapping pages: `vm_map_page_` and `vm_map_pages`

The two functions of `kernel/mm/kvm.c` on the memory that also holds the free
list. A directory entry that is not present gets a page from `kpalloc`, zeroed,
before the table entry is written.

`TableTree` is the shape that keeps directories, tables and free pages apart:
a present entry of a directory points to a table of its own, taken from the
pool, and everything else in a directory is zero. The lemma about one page says
what the processor's walk finds afterwards, for every directory and address.
-/
namespace Yack.PageTables
open ByteMemory MemoryLayout KernelState PageAllocator Memop

/-- `(pde_t)MM_PHYSADDR(page_table) | X86_PDE_PRESENT | X86_PDE_RW | X86_PDE_US`. -/
def tableEntry (pageTable : Addr) : BitVec 32 :=
  mmPhysaddr pageTable ||| x86PdePresent ||| x86PdeRw ||| x86PdeUs

/-- `(u32)paddr | permissions | X86_PTE_PRESENT`. -/
def pageEntry (paddr : Addr) (permissions : BitVec 16) : BitVec 32 :=
  paddr ||| permissions.setWidth 32 ||| x86PtePresent

/-- The branch of `vm_map_page_` that allocates a table for a missing entry. -/
def ensureTable (registry dirEntry : Addr) (s : Kernel) : Outcome Kernel :=
  if hasFlag (s.mem.loadWord dirEntry) x86PdePresent then .ok s
  else do
    let s := klog "DEBUG" "Allocating a new page directory\n" [] s
    let (pageTable, s) ← kpalloc registry s
    kassert (pageTable != 0) "kvm.c" 226 "page_table != NULL"
    let mem := (memset s.mem pageTable 0 x86Pagesz.toNat).2
    return { s with mem := mem.storeWord dirEntry (tableEntry pageTable) }

def vmMapPage_ (registry directory vaddr paddr : Addr) (permissions : BitVec 16) (s : Kernel) :
    Outcome (ℤ × Kernel) := do
  kassert (mmIsPageAligned vaddr && mmIsPageAligned paddr) "kvm.c" 210
    "mm_is_page_aligned(vaddr) && mm_is_page_aligned(paddr)"
  let tableIndex := x86PtIndex vaddr
  let pageIndex := x86PdIndex vaddr
  let dirEntry := entryAddr directory pageIndex
  let s ← ensureTable registry dirEntry s
  let pageTable := mmVirtaddr (x86PteAddr (s.mem.loadWord dirEntry))
  return (0, { s with
    mem := s.mem.storeWord (entryAddr pageTable tableIndex) (pageEntry paddr permissions) })

/-- One iteration; the state is the running `paddr`, `total_maps` and memory. -/
def mapBody (registry directory : Addr) (permissions : BitVec 16) (curr : Addr) :
    Addr × ℤ × Kernel → Outcome (ForInStep (Addr × ℤ × Kernel))
  | (paddr, totalMaps, s) => do
      let (error, s) ← vmMapPage_ registry directory curr paddr permissions s
      if error ≠ 0 then return .done (paddr, totalMaps, s)
      else return .yield (paddr + x86Pagesz, totalMaps + 1, s)

def vmMapPages (registry directory vaddr paddr : Addr) (size : BitVec 32)
    (permissions : BitVec 16) (s : Kernel) : Outcome (ℤ × Kernel) := do
  let first := mmPagedown vaddr
  let last := mmPageup (vaddr + size)
  let (_, totalMaps, s) ←
    forPages (mapBody registry directory permissions) last pageFuel first (paddr, 0, s)
  return (totalMaps, s)

theorem tableEntry_eq (t : Addr) : tableEntry t = mmPhysaddr t ||| 7 := by
  rw [tableEntry, BitVec.or_assoc, BitVec.or_assoc]
  rfl

theorem tableEntry_addr {t : Addr} (h : PageAligned t) :
    x86PteAddr (tableEntry t) = mmPhysaddr t := by
  rw [tableEntry_eq]
  exact x86PteAddr_or (pageAligned_physaddr.mpr h) (by decide)

theorem tableEntry_bit {t : Addr} (h : PageAligned t) {k : ℕ} (hk : k < 12) :
    (tableEntry t).getLsbD k = decide (k < 3) := by
  rw [tableEntry_eq, BitVec.getLsbD_or, (pageAligned_physaddr.mpr h).getLsbD hk, Bool.false_or]
  exact mask_getLsbD 32 3 k (by decide)

theorem pageEntry_addr {p : Addr} (h : PageAligned p) {permissions : BitVec 16}
    (hperm : permissions.toNat ≤ 0xFFF) : x86PteAddr (pageEntry p permissions) = p := by
  rw [pageEntry, BitVec.or_assoc]
  refine x86PteAddr_or h ?_
  rw [BitVec.toNat_or, BitVec.toNat_setWidth, Nat.mod_eq_of_lt (by omega)]
  exact Nat.or_lt_two_pow (n := 12) (by omega) (by decide)

theorem pageEntry_bit {p : Addr} (h : PageAligned p) (permissions : BitVec 16) {k : ℕ}
    (hk : k < 12) (hk0 : 0 < k) : (pageEntry p permissions).getLsbD k = permissions.getLsbD k := by
  have hone : (x86PtePresent).getLsbD k = false :=
    (mask_getLsbD 32 1 k (by decide)).trans (decide_eq_false (by omega))
  rw [pageEntry, BitVec.getLsbD_or, BitVec.getLsbD_or, h.getLsbD hk, hone,
    BitVec.getLsbD_setWidth]
  simp [show k < 32 by omega]

theorem pageEntry_present (p : Addr) (permissions : BitVec 16) :
    (pageEntry p permissions).getLsbD 0 = true := by
  rw [pageEntry, BitVec.getLsbD_or]
  simp [x86PtePresent]

/-- What a table entry gives the walk, behind a table of `tableEntry`. -/
def leaf (pte : BitVec 32) (v : Addr) : Option Translation :=
  if pte.getLsbD 0 then some ⟨x86PteAddr pte ||| (v &&& 0xFFF), pte.getLsbD 1, pte.getLsbD 2⟩
  else none

theorem leaf_zero (v : Addr) : leaf 0 v = none := by
  simp [leaf]

theorem leaf_pageEntry {p v : Addr} (h : PageAligned p) {permissions : BitVec 16}
    (hperm : permissions.toNat ≤ 0xFFF) :
    leaf (pageEntry p permissions) v =
      some ⟨p + (v - mmPagedown v), permissions.getLsbD 1, permissions.getLsbD 2⟩ := by
  rw [leaf, if_pos (pageEntry_present p permissions), pageEntry_addr h hperm, frame_or_offset h,
    pageEntry_bit h _ (by decide) (by decide), pageEntry_bit h _ (by decide) (by decide)]

/-- The walk from a page-aligned directory that the kernel sees at `d`. -/
theorem pageWalk_eq (m : Memory Addr) {d : Addr} (hd : PageAligned d) (v : Addr) :
    pageWalk m (mmPhysaddr d) v =
      let pde := m.loadWord (entryAddr d (x86PdIndex v))
      if pde.getLsbD 0 then
        if pde.getLsbD 7 then
          if pde.getLsbD 21 then none
          else some ⟨(pde &&& 0xFFC00000) ||| (v &&& 0x3FFFFF), pde.getLsbD 1, pde.getLsbD 2⟩
        else
          let pte := m.loadWord (entryAddr (mmVirtaddr (x86PteAddr pde)) (x86PtIndex v))
          if pte.getLsbD 0 then
            some ⟨x86PteAddr pte ||| (v &&& 0xFFF), pde.getLsbD 1 && pte.getLsbD 1,
              pde.getLsbD 2 && pte.getLsbD 2⟩
          else none
      else none := by
  have hbase : x86PteAddr (mmPhysaddr d) = mmPhysaddr d := (pageAligned_physaddr.mpr hd).pagedown
  simp only [pageWalk, hbase, physWord_entry, mmVirtaddr_physaddr, hasFlag_present,
    hasFlag_ptePresent, hasFlag_ps, hasFlag_reserved, hasFlag_rw, hasFlag_us]

section OnePage
variable {registry d va pa : Addr} {permissions : BitVec 16} {s s' : Kernel}

/-- With the entry present, one table entry is stored and nothing else. -/
theorem vmMapPage_present (hva : PageAligned va) (hpa : PageAligned pa)
    (h : (s.mem.loadWord (entryAddr d (x86PdIndex va))).getLsbD 0 = true) :
    vmMapPage_ registry d va pa permissions s = .ok (0, { s with
      mem := s.mem.storeWord (entryAddr
        (mmVirtaddr (x86PteAddr (s.mem.loadWord (entryAddr d (x86PdIndex va))))) (x86PtIndex va))
        (pageEntry pa permissions) }) := by
  have hassert : (mmIsPageAligned va && mmIsPageAligned pa) = true := by
    rw [(mmIsPageAligned_iff va).mpr hva, (mmIsPageAligned_iff pa).mpr hpa]
    rfl
  simp only [vmMapPage_, ensureTable, kassert, hassert, if_true, hasFlag_present, h]
  rfl

/-- A missing entry takes a page from `kpalloc` and points to it, zeroed. -/
theorem ensureTable_absent {t i : Addr} (h : (s.mem.loadWord (entryAddr d i)).getLsbD 0 = false)
    (halloc : kpalloc registry (klog "DEBUG" "Allocating a new page directory\n" [] s) =
      .ok (t, s')) (ht0 : t ≠ 0) :
    ensureTable registry (entryAddr d i) s = .ok { s' with
      mem := (memset s'.mem t 0 4096).2.storeWord (entryAddr d i) (tableEntry t) } := by
  have hnull : (t != 0) = true := bne_iff_ne.mpr ht0
  simp only [ensureTable, hasFlag_present, h, halloc, kassert]
  simp only [Bool.false_eq_true, if_false, bind, Except.bind, hnull, if_true]
  rfl

/-- With the entry missing, the page `kpalloc` gives becomes a zeroed table and
holds the new entry. -/
theorem vmMapPage_absent {t : Addr} (hva : PageAligned va) (hpa : PageAligned pa)
    (h : (s.mem.loadWord (entryAddr d (x86PdIndex va))).getLsbD 0 = false)
    (halloc : kpalloc registry (klog "DEBUG" "Allocating a new page directory\n" [] s) =
      .ok (t, s')) (ht : PageAligned t) (ht0 : t ≠ 0) :
    vmMapPage_ registry d va pa permissions s = .ok (0, { s' with
      mem := ((memset s'.mem t 0 4096).2.storeWord (entryAddr d (x86PdIndex va))
        (tableEntry t)).storeWord (entryAddr t (x86PtIndex va)) (pageEntry pa permissions) }) := by
  have hassert : (mmIsPageAligned va && mmIsPageAligned pa) = true := by
    rw [(mmIsPageAligned_iff va).mpr hva, (mmIsPageAligned_iff pa).mpr hpa]
    rfl
  simp only [vmMapPage_, kassert, hassert, if_true, ensureTable_absent h halloc ht0]
  simp only [bind, Except.bind, Memory.loadWord_storeWord, tableEntry_addr ht,
    mmVirtaddr_physaddr]
  rfl

/-- Mapping a page runs as if its table had been there from the start. -/
theorem vmMapPage_ensured
    (h : ensureTable registry (entryAddr d (x86PdIndex va)) s = .ok s')
    (h' : (s'.mem.loadWord (entryAddr d (x86PdIndex va))).getLsbD 0 = true) :
    vmMapPage_ registry d va pa permissions s = vmMapPage_ registry d va pa permissions s' := by
  have hpresent : ensureTable registry (entryAddr d (x86PdIndex va)) s' = .ok s' := by
    rw [ensureTable, hasFlag_present, h', if_pos rfl]
  simp only [vmMapPage_, h, hpresent]

/-- On the empty free list the assertion on the new table fails. -/
theorem vmMapPage_exhausted (hva : PageAligned va) (hpa : PageAligned pa)
    (h : (s.mem.loadWord (entryAddr d (x86PdIndex va))).getLsbD 0 = false)
    (hfree : FreeList registry s.mem []) :
    vmMapPage_ registry d va pa permissions s =
      .error (.kassert "kvm.c" 226 "page_table != NULL") := by
  have hassert : (mmIsPageAligned va && mmIsPageAligned pa) = true := by
    rw [(mmIsPageAligned_iff va).mpr hva, (mmIsPageAligned_iff pa).mpr hpa]
    rfl
  have halloc := kpalloc_nil (s := klog "DEBUG" "Allocating a new page directory\n" [] s) hfree
  have htable : ensureTable registry (entryAddr d (x86PdIndex va)) s =
      .error (.kassert "kvm.c" 226 "page_table != NULL") := by
    simp only [ensureTable, hasFlag_present, h, halloc, kassert]
    rfl
  simp only [vmMapPage_, kassert, hassert, if_true, htable]
  rfl

theorem vmMapPage_fst {r : ℤ × Kernel}
    (h : vmMapPage_ registry d va pa permissions s = .ok r) : r.1 = 0 := by
  simp only [vmMapPage_, kassert] at h
  split at h
  · cases hs : ensureTable registry (entryAddr d (x86PdIndex va)) s with
    | error e => rw [hs] at h; cases h
    | ok s' =>
        rw [hs] at h
        cases h
        rfl
  · cases h

end OnePage

theorem loadWord_of_zero {m : Memory Addr} {a : Addr} (h : ∀ x, Within a 4 x → m.byte x = 0) :
    m.loadWord a = 0 := by
  rw [Memory.loadWord, h a (within_word.mpr (.inl rfl)), h _ (within_word.mpr (.inr (.inl rfl))),
    h _ (within_word.mpr (.inr (.inr (.inl rfl)))), h _ (within_word.mpr (.inr (.inr (.inr rfl))))]
  rfl

/-- A zeroed page has only zero entries. -/
theorem loadWord_memset {m : Memory Addr} {p i : Addr} (hp : PageAligned p)
    (hi : i.toNat < 1024) : (memset m p 0 4096).2.loadWord (entryAddr p i) = 0 := by
  refine loadWord_of_zero fun x hx => ?_
  have hpage : Within p 4096 x := by
    rw [within_page hp, Aligned4.pagedown_within (entryAddr_aligned hp hi) hx,
      entryAddr_pagedown hp hi]
  rw [memset, memsetLoop_byte _ _ _ _ _ (by decide), if_pos hpage]

theorem frame_memset (m : Memory Addr) {p : Addr} (hp : PageAligned p) (c : Byte) :
    m.Frame (memset m p c 4096).2 (fun x => mmPagedown x = p) := by
  have hframe := (memsetLoop_frame c 4096 p m (by decide)).mono fun x hx => (within_page hp).mp hx
  simpa only [memset] using hframe

/-- An entry keeps its value across a change that stays off its page. -/
theorem entry_unchanged {m m' : Memory Addr} {region : Addr → Prop} (h : m.Frame m' region)
    {p i : Addr} (hp : PageAligned p) (hi : i.toNat < 1024)
    (hr : ∀ x, mmPagedown x = p → ¬ region x) :
    m'.loadWord (entryAddr p i) = m.loadWord (entryAddr p i) :=
  h.loadWord fun x hx => hr x (by
    rw [Aligned4.pagedown_within (entryAddr_aligned hp hi) hx, entryAddr_pagedown hp hi])

theorem frame_store_entry (m : Memory Addr) {p i : Addr} (hp : PageAligned p)
    (hi : i.toNat < 1024) (w : BitVec 32) :
    m.Frame (m.storeWord (entryAddr p i) w) (fun x => mmPagedown x = p) :=
  (m.frame_storeWord _ w).mono fun x hx => by
    rw [Aligned4.pagedown_within (entryAddr_aligned hp hi) hx, entryAddr_pagedown hp hi]

/-- Storing one entry of a page is a point update of its entries. -/
theorem loadWord_store_entry (m : Memory Addr) {p i j : Addr} (hp : PageAligned p)
    (hi : i.toNat < 1024) (hj : j.toNat < 1024) (w : BitVec 32) :
    (m.storeWord (entryAddr p i) w).loadWord (entryAddr p j) =
      if j = i then w else m.loadWord (entryAddr p j) := by
  rw [m.loadWord_storeWord_aligned w (entryAddr_aligned hp hi) (entryAddr_aligned hp hj)]
  simp only [entryAddr_inj hp hp hj hi, true_and]

/-- Directories `dirs`, free pages `free` and tables `table D i`, the last two
from one pool of pages. -/
structure TableTree (registry : Addr) (m : Memory Addr) (dirs pool free : List Addr)
    (table : Addr → Addr → Option Addr) : Prop where
  list : FreeList registry m free
  free_pool : ∀ p ∈ free, p ∈ pool
  dir : ∀ d ∈ dirs, PageAligned d ∧ ¬ HoldsRegistry registry d ∧ d ∉ pool
  entry : ∀ d ∈ dirs, ∀ i : Addr, i.toNat < 1024 →
    m.loadWord (entryAddr d i) = (table d i).elim 0 tableEntry
  own : ∀ d ∈ dirs, ∀ i : Addr, i.toNat < 1024 → ∀ t, table d i = some t →
    Usable registry t ∧ t ∈ pool ∧ t ∉ free
  distinct : ∀ d ∈ dirs, ∀ d' ∈ dirs, ∀ i i' : Addr, i.toNat < 1024 → i'.toNat < 1024 →
    ∀ t, table d i = some t → table d' i' = some t → d = d' ∧ i = i'
  pool_used : ∀ p ∈ pool, p ∈ free ∨ ∃ d ∈ dirs, ∃ i : Addr, i.toNat < 1024 ∧ table d i = some p

/-- Everything a mapping may write: the list head, directories and the pool. -/
def Footprint (registry : Addr) (dirs pool : List Addr) (x : Addr) : Prop :=
  Within registry 8 x ∨ mmPagedown x ∈ dirs ∨ mmPagedown x ∈ pool

section Tree
variable {registry d : Addr} {m : Memory Addr} {dirs pool free : List Addr}
  {table : Addr → Addr → Option Addr}

theorem TableTree.table_off_dirs (h : TableTree registry m dirs pool free table) {t : Addr}
    (ht : t ∈ pool) (hd : d ∈ dirs) : d ≠ t :=
  fun e => (h.dir d hd).2.2 (e ▸ ht)

/-- The walk reads the directory, then the table it points to. -/
theorem TableTree.walk (h : TableTree registry m dirs pool free table) (hd : d ∈ dirs)
    (v : Addr) : pageWalk m (mmPhysaddr d) v =
      (table d (x86PdIndex v)).bind fun t =>
        leaf (m.loadWord (entryAddr t (x86PtIndex v))) v := by
  rw [pageWalk_eq m (h.dir d hd).1, h.entry d hd _ (x86PdIndex_lt v)]
  cases ht : table d (x86PdIndex v) with
  | none => simp
  | some t =>
      have hu := (h.own d hd _ (x86PdIndex_lt v) t ht).1
      simp only [Option.elim_some, Option.bind_some, tableEntry_addr hu.aligned,
        mmVirtaddr_physaddr, tableEntry_bit hu.aligned (show 0 < 12 by decide),
        tableEntry_bit hu.aligned (show 1 < 12 by decide),
        tableEntry_bit hu.aligned (show 2 < 12 by decide),
        tableEntry_bit hu.aligned (show 7 < 12 by decide)]
      simp [leaf]

end Tree
end Yack.PageTables
