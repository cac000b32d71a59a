import Yack.PageTables
import Mathlib.Data.Finset.Card
import Mathlib.Data.Finset.Union

/-!
# Sequences of mappings on several directories

What `vm_map_pages` is for: an address space sends a directory and a virtual
address to at most one translation, and a call overrides it on its interval.
The memory side keeps every directory, its tables and the free list in one
memory, and the invariant is `TableTree`. Each iteration of the loop changes
the walk of one page of one directory; the rest is induction over the pages of
a call and over the calls.

Running out of free pages is counted, not assumed away: a table is needed for
each pair of a directory and a directory index that some call visits.
-/
namespace Yack.AddressSpaces
open ByteMemory MemoryLayout KernelState PageAllocator PageTables Memop

structure MapCall where
  directory : Addr
  vaddr : Addr
  paddr : Addr
  size : BitVec 32
  permissions : BitVec 16
  deriving DecidableEq, Repr

/-- The interval `[vaddr, MM_PAGEUP(vaddr + size))`, as the loop compares it. -/
def MapCall.Covers (c : MapCall) (v : Addr) : Prop :=
  c.vaddr ≤ v ∧ v < mmPageup (c.vaddr + c.size)

instance (c : MapCall) (v : Addr) : Decidable (c.Covers v) :=
  inferInstanceAs (Decidable (_ ∧ _))

def MapCall.translate (c : MapCall) (v : Addr) : Translation :=
  ⟨c.paddr + (v - c.vaddr), c.permissions.getLsbD 1, c.permissions.getLsbD 2⟩

structure MapCall.Legal (c : MapCall) (dirs : List Addr) : Prop where
  directory : c.directory ∈ dirs
  vaddr : PageAligned c.vaddr
  paddr : PageAligned c.paddr
  permissions : c.permissions.toNat ≤ 0xFFF

instance (c : MapCall) (dirs : List Addr) : Decidable (c.Legal dirs) :=
  decidable_of_iff (dirs.contains c.directory = true ∧ PageAligned c.vaddr ∧
      PageAligned c.paddr ∧ c.permissions.toNat ≤ 0xFFF)
    ⟨fun h => ⟨List.contains_iff_mem.mp h.1, h.2.1, h.2.2.1, h.2.2.2⟩,
      fun h => ⟨List.contains_iff_mem.mpr h.directory, h.vaddr, h.paddr, h.permissions⟩⟩

def MapCall.pages (c : MapCall) : List Addr :=
  pagesBetween (mmPagedown c.vaddr) (mmPageup (c.vaddr + c.size))

/-- The directory slots a call visits. -/
def MapCall.slots (c : MapCall) : Finset (Addr × Addr) :=
  (c.pages.map fun p => (c.directory, x86PdIndex p)).toFinset

/-- The last call on `d` whose interval contains `v`. -/
def lastCovering (calls : List MapCall) (d v : Addr) : Option MapCall :=
  calls.reverse.find? fun c => c.directory = d ∧ c.Covers v

def tablesNeeded (calls : List MapCall) : Finset (Addr × Addr) :=
  calls.toFinset.biUnion MapCall.slots

/-- The calls in order, each from the memory the one before left. -/
def runCalls (registry : Addr) : List MapCall → Kernel → Outcome Kernel
  | [], s => .ok s
  | c :: cs, s => do
      let (_, s) ← vmMapPages registry c.directory c.vaddr c.paddr c.size c.permissions s
      runCalls registry cs s

/-- The tables in use are among those needed, and with the free pages they
make up the pool. -/
def Budget (needed : Finset (Addr × Addr)) (pool free : List Addr)
    (table : Addr → Addr → Option Addr) : Prop :=
  ∃ used ⊆ needed, used.card + free.length = pool.length ∧
    ∀ slot, slot ∈ used ↔ (table slot.1 slot.2).isSome

def addTable (table : Addr → Addr → Option Addr) (d i t : Addr) : Addr → Addr → Option Addr :=
  fun d' i' => if d' = d ∧ i' = i then some t else table d' i'

section Counting
variable {needed : Finset (Addr × Addr)} {pool free : List Addr}
  {table : Addr → Addr → Option Addr} {d i t : Addr}

theorem Budget.room (h : Budget needed pool free table) (henough : needed.card ≤ pool.length)
    (hslot : (d, i) ∈ needed) (hnone : table d i = none) : free ≠ [] := by
  obtain ⟨used, hsub, hcard, hused⟩ := h
  have hout : (d, i) ∉ used := by simp [hused, hnone]
  have hlt : used.card < needed.card :=
    Finset.card_lt_card ⟨hsub, fun hback => hout (hback hslot)⟩
  intro hnil
  rw [hnil, List.length_nil] at hcard
  omega

theorem Budget.use (h : Budget needed pool (t :: free) table) (hslot : (d, i) ∈ needed)
    (hnone : table d i = none) : Budget needed pool free (addTable table d i t) := by
  obtain ⟨used, hsub, hcard, hused⟩ := h
  have hout : (d, i) ∉ used := by simp [hused, hnone]
  refine ⟨insert (d, i) used, ?_, ?_, ?_⟩
  · exact Finset.insert_subset hslot hsub
  · rw [Finset.card_insert_of_notMem hout]
    simp only [List.length_cons] at hcard
    omega
  · intro slot
    by_cases hs : slot.1 = d ∧ slot.2 = i
    · simp [addTable, hs, Prod.ext_iff]
    · rw [Finset.mem_insert, hused]
      simp [addTable, hs, Prod.ext_iff]

end Counting

section OnePage
variable {registry d va pa : Addr} {permissions : BitVec 16} {s : Kernel}
  {dirs pool free : List Addr} {table : Addr → Addr → Option Addr}

/-- What one page's mapping does to every walk. -/
def MapsPage (m m' : Memory Addr) (dirs : List Addr) (d va pa : Addr) (permissions : BitVec 16) :
    Prop :=
  ∀ d' ∈ dirs, ∀ v, pageWalk m' (mmPhysaddr d') v =
    if d' = d ∧ mmPagedown v = va then
      some ⟨pa + (v - va), permissions.getLsbD 1, permissions.getLsbD 2⟩
    else pageWalk m (mmPhysaddr d') v

theorem page_eq_iff (hva : PageAligned va) {v : Addr} : mmPagedown v = va ↔
    x86PdIndex v = x86PdIndex va ∧ x86PtIndex v = x86PtIndex va := by
  rw [← pagedown_eq_iff, hva.pagedown]

/-- To map a page it is enough that its entry is written and that all other
entries the walk can reach are as before. -/
theorem mapsPage_of_entries {m m' : Memory Addr} {free' : List Addr}
    {table' : Addr → Addr → Option Addr} (h : TableTree registry m dirs pool free table)
    (h' : TableTree registry m' dirs pool free' table') (hva : PageAligned va)
    (hpa : PageAligned pa) (hperm : permissions.toNat ≤ 0xFFF) {t : Addr}
    (ht : table' d (x86PdIndex va) = some t)
    (hnew : m'.loadWord (entryAddr t (x86PtIndex va)) = pageEntry pa permissions)
    (hold : ∀ d' ∈ dirs, ∀ v, ¬ (d' = d ∧ mmPagedown v = va) →
      ((table' d' (x86PdIndex v)).bind fun t =>
        leaf (m'.loadWord (entryAddr t (x86PtIndex v))) v) =
      (table d' (x86PdIndex v)).bind fun t =>
        leaf (m.loadWord (entryAddr t (x86PtIndex v))) v) :
    MapsPage m m' dirs d va pa permissions := by
  intro d' hd' v
  rw [h'.walk hd']
  by_cases hin : d' = d ∧ mmPagedown v = va
  · obtain ⟨rfl, hpage⟩ := hin
    obtain ⟨hpd, hpt⟩ := (page_eq_iff hva).mp hpage
    rw [if_pos ⟨rfl, hpage⟩, hpd, ht, Option.bind_some, hpt, hnew, leaf_pageEntry hpa hperm, hpage]
  · rw [if_neg hin, h.walk hd']
    exact hold d' hd' v hin

/-- The table exists: one of its entries changes. -/
theorem vmMapPage_hit (h : TableTree registry s.mem dirs pool free table) (hd : d ∈ dirs)
    (hva : PageAligned va) (hpa : PageAligned pa) (hperm : permissions.toNat ≤ 0xFFF) {t : Addr}
    (ht : table d (x86PdIndex va) = some t) :
    ∃ s', vmMapPage_ registry d va pa permissions s = .ok (0, s') ∧
      TableTree registry s'.mem dirs pool free table ∧
      MapsPage s.mem s'.mem dirs d va pa permissions ∧
      s.mem.Frame s'.mem (Footprint registry dirs pool) := by
  have hi := x86PdIndex_lt va
  have hj := x86PtIndex_lt va
  obtain ⟨hu, hpool, hfree⟩ := h.own d hd _ hi t ht
  have hpde : s.mem.loadWord (entryAddr d (x86PdIndex va)) = tableEntry t := by
    rw [h.entry d hd _ hi, ht, Option.elim_some]
  have hrun := @vmMapPage_present registry d va pa permissions s hva hpa
    (show (s.mem.loadWord (entryAddr d (x86PdIndex va))).getLsbD 0 = true by
      rw [hpde, tableEntry_bit hu.aligned (by decide)]; rfl)
  rw [hpde, tableEntry_addr hu.aligned, mmVirtaddr_physaddr] at hrun
  have hframe := frame_store_entry s.mem hu.aligned hj (pageEntry pa permissions)
  have htree : TableTree registry (s.mem.storeWord (entryAddr t (x86PtIndex va))
      (pageEntry pa permissions)) dirs pool free table := by
    refine ⟨h.list.unchanged hframe ?_, h.free_pool, h.dir, ?_, h.own, h.distinct,
      h.pool_used⟩
    · intro x hx
      rw [hx]
      exact ⟨hu.outside, hfree⟩
    · intro d' hd' i hi'
      rw [entry_unchanged hframe (h.dir d' hd').1 hi' fun x hx hxt =>
        h.table_off_dirs hpool hd' (hx.symm.trans hxt)]
      exact h.entry d' hd' i hi'
  refine ⟨_, hrun, htree, ?_, hframe.mono fun x hx => .inr (.inr (hx ▸ hpool))⟩
  apply mapsPage_of_entries h htree hva hpa hperm ht
  · exact Memory.loadWord_storeWord _ _ _
  · intro d' hd' v hout
    cases ht' : table d' (x86PdIndex v) with
    | none => simp only [Option.bind_none]
    | some t' =>
        have hu' := (h.own d' hd' _ (x86PdIndex_lt v) t' ht').1
        simp only [Option.bind_some]
        by_cases htt : t' = t
        · subst t'
          obtain ⟨rfl, hpd⟩ := h.distinct d' hd' d hd _ _ (x86PdIndex_lt v) hi t ht' ht
          have hpt : ¬ x86PtIndex v = x86PtIndex va := fun hpt =>
            hout ⟨rfl, (page_eq_iff hva).mpr ⟨hpd, hpt⟩⟩
          rw [loadWord_store_entry _ hu.aligned hj (x86PtIndex_lt v), if_neg hpt]
        · rw [entry_unchanged hframe hu'.aligned (x86PtIndex_lt v) fun x hx hxt =>
            htt (hx.symm.trans hxt)]

/-- From `m` to `m'` the page `q` has left the free list and become the table at
entry `i` of `d`, all zero but for `entry` at `j`. -/
structure LinksTable (registry d q i j : Addr) (entry : BitVec 32) (free : List Addr)
    (m m' : Memory Addr) : Prop where
  list : FreeList registry m' free
  keep : ∀ p k : Addr, PageAligned p → k.toNat < 1024 → ¬ HoldsRegistry registry p →
    p ∉ q :: free → p ≠ d → m'.loadWord (entryAddr p k) = m.loadWord (entryAddr p k)
  directory : ∀ k : Addr, k.toNat < 1024 → m'.loadWord (entryAddr d k) =
    if k = i then tableEntry q else m.loadWord (entryAddr d k)
  table : ∀ k : Addr, k.toNat < 1024 →
    m'.loadWord (entryAddr q k) = if k = j then entry else 0
  frame : m.Frame m' fun x =>
    AllocatorBytes registry (q :: free) x ∨ mmPagedown x = q ∨ mmPagedown x = d

/-- The page is allocated, zeroed, linked into the directory and filled. -/
theorem linksTable {q i j : Addr} {m m₁ : Memory Addr} (entry : BitVec 32)
    (h : FreeList registry m (q :: free)) (hda : PageAligned d) (hdr : ¬ HoldsRegistry registry d)
    (hdfree : d ∉ q :: free) (hi : i.toNat < 1024) (hj : j.toNat < 1024)
    (hlist : FreeList registry m₁ free)
    (hframe : m.Frame m₁ (AllocatorBytes registry (q :: free))) :
    LinksTable registry d q i j entry free m
      (((memset m₁ q 0 4096).2.storeWord (entryAddr d i) (tableEntry q)).storeWord
        (entryAddr q j) entry) := by
  have hq : Usable registry q := h.usable q (by simp)
  have hqd : d ≠ q := fun e => hdfree (by simp [e])
  have hqfree : q ∉ free := (List.nodup_cons.mp h.nodup).1
  have hf₂ := frame_memset m₁ hq.aligned 0
  have hf₃ := frame_store_entry (memset m₁ q 0 4096).2 hda hi (tableEntry q)
  generalize hm₂ : (memset m₁ q 0 4096).2 = m₂ at *
  generalize hm₃ : m₂.storeWord (entryAddr d i) (tableEntry q) = m₃ at *
  have hf₄ := frame_store_entry m₃ hq.aligned hj entry
  generalize hm₄ : m₃.storeWord (entryAddr q j) entry = m₄ at *
  have hpages : ∀ x, AllocatorBytes registry (q :: free) x →
      HoldsRegistry registry (mmPagedown x) ∨ mmPagedown x ∈ q :: free :=
    fun x hx => hx.pagedown h.registry_aligned h.usable
  -- allocation writes the list head and free pages only
  have hfirst : ∀ p k : Addr, PageAligned p → k.toNat < 1024 → ¬ HoldsRegistry registry p →
      p ∉ q :: free → m₁.loadWord (entryAddr p k) = m.loadWord (entryAddr p k) := by
    intro p k hp hk hout hfree
    apply entry_unchanged hframe hp hk
    intro x hx ha
    cases hpages x ha with
    | inl hx' => exact hout (hx ▸ hx')
    | inr hx' => exact hfree (hx ▸ hx')
  constructor
  · have hoff : ∀ x, mmPagedown x = q → ¬ HoldsRegistry registry (mmPagedown x) ∧
        mmPagedown x ∉ free := fun x hx => by rw [hx]; exact ⟨hq.outside, hqfree⟩
    have hoffd : ∀ x, mmPagedown x = d → ¬ HoldsRegistry registry (mmPagedown x) ∧
        mmPagedown x ∉ free := fun x hx => by
      rw [hx]
      exact ⟨hdr, fun hf => hdfree (List.mem_cons_of_mem _ hf)⟩
    exact ((hlist.unchanged hf₂ hoff).unchanged hf₃ hoffd).unchanged hf₄ hoff
  · intro p k hp hk hout hfree hpd
    have hpq : p ≠ q := fun e => hfree (by simp [e])
    rw [entry_unchanged hf₄ hp hk fun x hx hxq => hpq (hx.symm.trans hxq),
      entry_unchanged hf₃ hp hk fun x hx hxd => hpd (hx.symm.trans hxd),
      entry_unchanged hf₂ hp hk fun x hx hxq => hpq (hx.symm.trans hxq),
      hfirst p k hp hk hout hfree]
  · intro k hk
    rw [entry_unchanged hf₄ hda hk fun x hx hxq => hqd (hx.symm.trans hxq), ← hm₃,
      loadWord_store_entry _ hda hi hk,
      entry_unchanged hf₂ hda hk fun x hx hxq => hqd (hx.symm.trans hxq),
      hfirst d k hda hk hdr hdfree]
  · intro k hk
    rw [← hm₄, loadWord_store_entry _ hq.aligned hj hk,
      entry_unchanged hf₃ hq.aligned hk fun x hx hxd => hqd (hxd.symm.trans hx), ← hm₂,
      loadWord_memset hq.aligned hk]
  · exact (((hframe.mono fun _ hx => .inl hx).trans (hf₂.mono fun _ hx => .inr (.inl hx))).trans
      (hf₃.mono fun _ hx => .inr (.inr hx))).trans (hf₄.mono fun _ hx => .inr (.inl hx))

/-- A missing entry: the oldest free page is linked and filled. -/
theorem vmMapPage_links {q : Addr} (h : FreeList registry s.mem (q :: free))
    (hda : PageAligned d) (hdr : ¬ HoldsRegistry registry d) (hdfree : d ∉ q :: free)
    (hva : PageAligned va) (hpa : PageAligned pa)
    (hpde : (s.mem.loadWord (entryAddr d (x86PdIndex va))).getLsbD 0 = false) :
    ∃ s', vmMapPage_ registry d va pa permissions s = .ok (0, s') ∧
      LinksTable registry d q (x86PdIndex va) (x86PtIndex va) (pageEntry pa permissions) free
        s.mem s'.mem := by
  have hq : Usable registry q := h.usable q (by simp)
  obtain ⟨m₁, halloc, hlist, hframe, -⟩ :=
    kpalloc_cons (s := klog "DEBUG" "Allocating a new page directory\n" [] s) h
  have hrun := @vmMapPage_absent registry d va pa permissions s _ q hva hpa hpde halloc
    hq.aligned hq.nonnull
  exact ⟨_, hrun, linksTable (pageEntry pa permissions) h hda hdr hdfree (x86PdIndex_lt va)
    (x86PtIndex_lt va) hlist hframe⟩

/-- A linked table joins the tree. -/
theorem LinksTable.tree {q i j : Addr} {m m' : Memory Addr} {entry : BitVec 32}
    (hl : LinksTable registry d q i j entry free m m')
    (h : TableTree registry m dirs pool (q :: free) table) (hd : d ∈ dirs)
    (hi : i.toNat < 1024) (hnone : table d i = none) :
    TableTree registry m' dirs pool free (addTable table d i q) := by
  have hq : Usable registry q := h.list.usable q (by simp)
  have hqpool : q ∈ pool := h.free_pool q (by simp)
  have hqfree : q ∉ free := (List.nodup_cons.mp h.list.nodup).1
  refine ⟨hl.list, fun p hp => h.free_pool p (List.mem_cons_of_mem _ hp), h.dir, ?_, ?_, ?_, ?_⟩
  · intro d' hd' k hk
    obtain ⟨hda', hdr', hdpool'⟩ := h.dir d' hd'
    by_cases hdd : d' = d
    · subst d'
      rw [hl.directory k hk, h.entry d hd k hk]
      by_cases hki : k = i <;> simp [addTable, hki]
    · rw [hl.keep d' k hda' hk hdr' (fun hf => hdpool' (h.free_pool _ hf)) hdd,
        h.entry d' hd' k hk]
      simp [addTable, hdd]
  · intro d' hd' k hk t ht
    by_cases hslot : d' = d ∧ k = i
    · rw [addTable, if_pos hslot, Option.some.injEq] at ht
      exact ht ▸ ⟨hq, hqpool, hqfree⟩
    · rw [addTable, if_neg hslot] at ht
      obtain ⟨hu, hp, hf⟩ := h.own d' hd' k hk t ht
      exact ⟨hu, hp, fun ht => hf (List.mem_cons_of_mem _ ht)⟩
  · intro d₁ hd₁ d₂ hd₂ i₁ i₂ hi₁ hi₂ t ht₁ ht₂
    have hold : ∀ d' ∈ dirs, ∀ k : Addr, k.toNat < 1024 → table d' k ≠ some q := by
      intro d' hd' k hk hqt
      exact (h.own d' hd' k hk q hqt).2.2 (by simp)
    simp only [addTable] at ht₁ ht₂
    split at ht₁ <;> split at ht₂
    · simp_all
    · cases ht₁
      exact absurd ht₂ (hold d₂ hd₂ i₂ hi₂)
    · cases ht₂
      exact absurd ht₁ (hold d₁ hd₁ i₁ hi₁)
    · exact h.distinct d₁ hd₁ d₂ hd₂ i₁ i₂ hi₁ hi₂ t ht₁ ht₂
  · intro p hp
    obtain hfree | ⟨d', hd', k, hk, ht⟩ := h.pool_used p hp
    · obtain rfl | hfree := List.mem_cons.mp hfree
      · exact .inr ⟨d, hd, i, hi, by simp only [addTable, and_self, if_true]⟩
      · exact .inl hfree
    · refine .inr ⟨d', hd', k, hk, ?_⟩
      have hslot : ¬ (d' = d ∧ k = i) := by
        intro hslot
        rw [hslot.1, hslot.2, hnone] at ht
        cases ht
      rw [addTable, if_neg hslot, ht]

/-- The table is missing: the oldest free page becomes one, and every other walk
of the directory stays as it was. -/
theorem vmMapPage_miss {q : Addr} (h : TableTree registry s.mem dirs pool (q :: free) table)
    (hd : d ∈ dirs) (hva : PageAligned va) (hpa : PageAligned pa)
    (hperm : permissions.toNat ≤ 0xFFF) (hnone : table d (x86PdIndex va) = none) :
    ∃ s', vmMapPage_ registry d va pa permissions s = .ok (0, s') ∧
      TableTree registry s'.mem dirs pool free (addTable table d (x86PdIndex va) q) ∧
      MapsPage s.mem s'.mem dirs d va pa permissions ∧
      s.mem.Frame s'.mem (Footprint registry dirs pool) := by
  have hi := x86PdIndex_lt va
  have hj := x86PtIndex_lt va
  obtain ⟨hda, hdr, hdpool⟩ := h.dir d hd
  have hpde : (s.mem.loadWord (entryAddr d (x86PdIndex va))).getLsbD 0 = false := by
    rw [h.entry d hd _ hi, hnone, Option.elim_none]
    simp
  obtain ⟨s', hrun, hl⟩ := @vmMapPage_links registry d va pa permissions s free q h.list hda hdr
    (fun hf => hdpool (h.free_pool d hf)) hva hpa hpde
  have htree := hl.tree h hd hi hnone
  refine ⟨_, hrun, htree, ?_, hl.frame.mono ?_⟩
  · apply mapsPage_of_entries h htree hva hpa hperm (t := q)
    · simp only [addTable, and_self, if_true]
    · exact (hl.table _ hj).trans (if_pos rfl)
    · intro d' hd' v hout
      by_cases hslot : d' = d ∧ x86PdIndex v = x86PdIndex va
      · have hpt : ¬ x86PtIndex v = x86PtIndex va := fun hpt =>
          hout ⟨hslot.1, (page_eq_iff hva).mpr ⟨hslot.2, hpt⟩⟩
        rw [addTable, if_pos hslot, hslot.1, hslot.2, hnone, Option.bind_some, Option.bind_none,
          hl.table _ (x86PtIndex_lt v), if_neg hpt, leaf_zero]
      · rw [addTable, if_neg hslot]
        cases ht : table d' (x86PdIndex v) with
        | none => simp only [Option.bind_none]
        | some t =>
            obtain ⟨hu, hpool, hfree⟩ := h.own d' hd' _ (x86PdIndex_lt v) t ht
            simp only [Option.bind_some]
            rw [hl.keep t _ hu.aligned (x86PtIndex_lt v) hu.outside hfree
              (h.table_off_dirs hpool hd).symm]
  · rintro x ((hx | ⟨p, hp, hx⟩) | hx | hx)
    · exact .inl hx
    · exact .inr (.inr (header_pagedown (h.list.usable p hp).aligned hx ▸ h.free_pool p hp))
    · exact .inr (.inr (hx ▸ h.free_pool q (by simp)))
    · exact .inr (.inl (hx ▸ hd))

/-- One page in either case, with the count of tables carried along. -/
theorem vmMapPage_step {needed : Finset (Addr × Addr)}
    (h : TableTree registry s.mem dirs pool free table) (hb : Budget needed pool free table)
    (henough : needed.card ≤ pool.length) (hd : d ∈ dirs) (hva : PageAligned va)
    (hpa : PageAligned pa) (hperm : permissions.toNat ≤ 0xFFF)
    (hslot : (d, x86PdIndex va) ∈ needed) :
    ∃ s' free' table', vmMapPage_ registry d va pa permissions s = .ok (0, s') ∧
      TableTree registry s'.mem dirs pool free' table' ∧ Budget needed pool free' table' ∧
      MapsPage s.mem s'.mem dirs d va pa permissions ∧
      s.mem.Frame s'.mem (Footprint registry dirs pool) := by
  cases ht : table d (x86PdIndex va) with
  | some t =>
      obtain ⟨s', hs', htree, hmaps, hframe⟩ := vmMapPage_hit h hd hva hpa hperm ht
      exact ⟨s', free, table, hs', htree, hb, hmaps, hframe⟩
  | none =>
      cases free with
      | nil => exact absurd rfl (hb.room henough hslot ht)
      | cons q free =>
          obtain ⟨s', hs', htree, hmaps, hframe⟩ := vmMapPage_miss h hd hva hpa hperm ht
          exact ⟨s', free, _, hs', htree, hb.use hslot ht, hmaps, hframe⟩

end OnePage

section OneCall
variable {registry : Addr} {s : Kernel} {dirs pool : List Addr}
  {needed : Finset (Addr × Addr)} {c : MapCall}

/-- The iteration without the break: `vm_map_page_` never reports an error. -/
def mapStep (registry directory : Addr) (permissions : BitVec 16) :
    Addr × ℤ × Kernel → Addr → Outcome (Addr × ℤ × Kernel)
  | (paddr, totalMaps, s), curr => do
      let (_, s) ← vmMapPage_ registry directory curr paddr permissions s
      return (paddr + x86Pagesz, totalMaps + 1, s)

theorem mapBody_eq (registry directory : Addr) (permissions : BitVec 16) (curr : Addr)
    (state : Addr × ℤ × Kernel) : mapBody registry directory permissions curr state =
      (mapStep registry directory permissions state curr).map .yield := by
  obtain ⟨paddr, totalMaps, s⟩ := state
  simp only [mapBody, mapStep]
  cases hrun : vmMapPage_ registry directory curr paddr permissions s with
  | error e => rfl
  | ok r =>
      have hzero := vmMapPage_fst hrun
      simp only [bind, Except.bind, hzero, ne_eq, not_true_eq_false, if_false]
      rfl

theorem vmMapPages_eq (hc : PageAligned c.vaddr) :
    vmMapPages registry c.directory c.vaddr c.paddr c.size c.permissions s =
      (c.pages.foldlM (mapStep registry c.directory c.permissions) (c.paddr, 0, s)).map
        fun state => (state.2.1, state.2.2) := by
  rw [vmMapPages, MapCall.pages, hc.pagedown,
    forPages_eq_foldlM (mapBody_eq registry c.directory c.permissions) hc (pageAligned_pageup _)]
  cases (pagesBetween c.vaddr (mmPageup (c.vaddr + c.size))).foldlM
    (mapStep registry c.directory c.permissions) (c.paddr, 0, s) with
  | error e => rfl
  | ok state => rfl

/-- The pages of a call are those of the addresses it covers. -/
theorem mem_pages (hc : PageAligned c.vaddr) {v : Addr} :
    mmPagedown v ∈ c.pages ↔ c.Covers v := by
  have hlast := pageAligned_pageup (c.vaddr + c.size)
  have hv := mmPagedown_toNat v
  rw [MapCall.pages, hc.pagedown, mem_pagesBetween hc, MapCall.Covers]
  generalize mmPageup (c.vaddr + c.size) = last at *
  unfold PageAligned at hc hlast
  simp only [BitVec.le_def, BitVec.lt_def, hv]
  constructor
  · intro h
    omega
  · intro h
    exact ⟨pageAligned_pagedown v, by omega, by omega⟩

/-- The loop visits its pages in order, a page size apart. -/
theorem pages_split {first last p : Addr} {done rest : List Addr}
    (h : done ++ p :: rest = pagesBetween first last) :
    p = first + BitVec.ofNat 32 (4096 * done.length) := by
  have hget := congrArg (fun l => l[done.length]?) h
  simp only [pagesBetween, List.getElem?_map] at hget
  rw [List.getElem?_append_right le_rfl, Nat.sub_self, List.getElem?_cons_zero] at hget
  obtain ⟨i, hi, hp⟩ := Option.map_eq_some_iff.mp hget.symm
  obtain ⟨hlt, rfl⟩ := List.getElem?_eq_some_iff.mp hi
  rw [← hp, List.getElem_range]

/-- A tree that still has a free page for every table the calls may need. -/
def Ready (registry : Addr) (dirs pool : List Addr) (needed : Finset (Addr × Addr))
    (m : Memory Addr) : Prop :=
  ∃ free table, TableTree registry m dirs pool free table ∧ Budget needed pool free table

/-- The loop invariant: `done` are the pages mapped so far, from `m` on. -/
structure Progress (registry : Addr) (dirs pool : List Addr) (needed : Finset (Addr × Addr))
    (c : MapCall) (m : Memory Addr) (done : List Addr) (state : Addr × ℤ × Kernel) : Prop where
  paddr : state.1 = c.paddr + BitVec.ofNat 32 (4096 * done.length)
  total : state.2.1 = done.length
  ready : Ready registry dirs pool needed state.2.2.mem
  walk : ∀ d ∈ dirs, ∀ v, pageWalk state.2.2.mem (mmPhysaddr d) v =
    if d = c.directory ∧ mmPagedown v ∈ done then some (c.translate v)
    else pageWalk m (mmPhysaddr d) v
  frame : m.Frame state.2.2.mem (Footprint registry dirs pool)

theorem mapStep_progress (hc : c.Legal dirs) (henough : needed.card ≤ pool.length)
    (hneeded : c.slots ⊆ needed) {m : Memory Addr} {done rest : List Addr} {p : Addr}
    {state : Addr × ℤ × Kernel} (hsplit : done ++ p :: rest = c.pages)
    (h : Progress registry dirs pool needed c m done state) :
    ∃ state', mapStep registry c.directory c.permissions state p = .ok state' ∧
      Progress registry dirs pool needed c m (done ++ [p]) state' := by
  obtain ⟨paddr, total, s⟩ := state
  obtain ⟨rfl, rfl, ⟨free, table, htree, hb⟩, hwalk, hframe⟩ := h
  have hmem : p ∈ c.pages := by simp [← hsplit]
  have hva : PageAligned p := by
    rw [MapCall.pages, hc.vaddr.pagedown, mem_pagesBetween hc.vaddr] at hmem
    exact hmem.1
  have hp : p = c.vaddr + BitVec.ofNat 32 (4096 * done.length) := by
    rw [MapCall.pages, hc.vaddr.pagedown] at hsplit
    exact pages_split hsplit
  have hpa : PageAligned (c.paddr + BitVec.ofNat 32 (4096 * done.length)) :=
    pageAligned_add hc.paddr done.length
  have hslot : (c.directory, x86PdIndex p) ∈ needed :=
    hneeded (List.mem_toFinset.mpr (List.mem_map.mpr ⟨p, hmem, rfl⟩))
  obtain ⟨s', free', table', hrun, htree', hb', hmaps, hframe'⟩ :=
    vmMapPage_step htree hb henough hc.directory hva hpa hc.permissions hslot
  refine ⟨(_, _, s'), by simp only [mapStep, hrun]; rfl, ?_, ?_, ⟨free', table', htree', hb'⟩,
    ?_, hframe.trans hframe'⟩
  · rw [List.length_append, List.length_singleton, Nat.mul_add, BitVec.ofNat_add,
      ← BitVec.add_assoc]
    rfl
  · simp
  · intro d hd v
    rw [hmaps d hd v, hwalk d hd v]
    by_cases hpage : d = c.directory ∧ mmPagedown v = p
    · have hphys : c.paddr + BitVec.ofNat 32 (4096 * done.length) + (v - p) =
          c.paddr + (v - c.vaddr) := by
        rw [hp]
        bv_omega
      rw [if_pos hpage, if_pos ⟨hpage.1, by simp [hpage.2]⟩, hphys, MapCall.translate]
    · rw [if_neg hpage]
      refine if_congr ?_ rfl rfl
      rw [List.mem_append, List.mem_singleton]
      tauto

/-- One lemma for `vm_map_pages`: it completes, returns the number of pages of
its interval, and overrides the directory's translation exactly there. -/
theorem vmMapPages_spec (hc : c.Legal dirs) (henough : needed.card ≤ pool.length)
    (hneeded : c.slots ⊆ needed) (h : Ready registry dirs pool needed s.mem) :
    ∃ s', vmMapPages registry c.directory c.vaddr c.paddr c.size c.permissions s =
        .ok ((c.pages.length : ℤ), s') ∧
      Ready registry dirs pool needed s'.mem ∧
      (∀ d ∈ dirs, ∀ v, pageWalk s'.mem (mmPhysaddr d) v =
        if d = c.directory ∧ c.Covers v then some (c.translate v)
        else pageWalk s.mem (mmPhysaddr d) v) ∧
      s.mem.Frame s'.mem (Footprint registry dirs pool) := by
  have hinit : Progress registry dirs pool needed c s.mem [] (c.paddr, 0, s) := by
    refine ⟨?_, rfl, h, ?_, Memory.Frame.refl _ _⟩
    · rw [List.length_nil, Nat.mul_zero]
      exact (BitVec.add_zero _).symm
    · intro d hd v
      simp only [List.not_mem_nil, and_false, if_false]
  obtain ⟨state, hrun, hpaddr, htotal, hready, hwalk, hframe⟩ :=
    foldlM_invariant c.pages (fun done p rest state hsplit hinv =>
      mapStep_progress hc henough hneeded hsplit hinv) hinit
  refine ⟨state.2.2, ?_, hready, ?_, hframe⟩
  · rw [vmMapPages_eq hc.vaddr, hrun, ← htotal]
    rfl
  · intro d hd v
    rw [hwalk d hd v]
    exact if_congr (and_congr_right fun _ => mem_pages hc.vaddr) rfl rfl

end OneCall

/-- Directories with zero entries, none of them on the free list. -/
structure Fresh (registry : Addr) (m : Memory Addr) (dirs free : List Addr) : Prop where
  list : FreeList registry m free
  dir : ∀ d ∈ dirs, PageAligned d ∧ ¬ HoldsRegistry registry d ∧ d ∉ free
  zero : ∀ d ∈ dirs, ∀ i : Addr, i.toNat < 1024 → m.loadWord (entryAddr d i) = 0

section Sequences
variable {registry : Addr} {s : Kernel} {dirs free : List Addr} {calls : List MapCall}

theorem lastCovering_cons (c : MapCall) (cs : List MapCall) (d v : Addr) :
    lastCovering (c :: cs) d v =
      (lastCovering cs d v).or (if c.directory = d ∧ c.Covers v then some c else none) := by
  simp only [lastCovering, List.reverse_cons, List.find?_append]
  by_cases hc : c.directory = d ∧ c.Covers v <;> simp [hc]

theorem runCalls_append (before after : List MapCall) :
    runCalls registry (before ++ after) s =
      (runCalls registry before s).bind (runCalls registry after) := by
  induction before generalizing s with
  | nil => rfl
  | cons c cs ih =>
      rw [List.cons_append, runCalls, runCalls]
      cases vmMapPages registry c.directory c.vaddr c.paddr c.size c.permissions s with
      | error e => rfl
      | ok r => exact ih

theorem slots_subset {c : MapCall} (hc : c ∈ calls) : c.slots ⊆ tablesNeeded calls :=
  Finset.subset_biUnion_of_mem MapCall.slots (List.mem_toFinset.mpr hc)

/-- The run lemma: the tree survives every call, and each walk is the last
covering call's or the one before the run. -/
theorem runCalls_spec {needed : Finset (Addr × Addr)} {pool : List Addr}
    (hlegal : ∀ c ∈ calls, c.Legal dirs) (hneeded : ∀ c ∈ calls, c.slots ⊆ needed)
    (henough : needed.card ≤ pool.length) (h : Ready registry dirs pool needed s.mem) :
    ∃ s', runCalls registry calls s = .ok s' ∧ Ready registry dirs pool needed s'.mem ∧
      (∀ d ∈ dirs, ∀ v, pageWalk s'.mem (mmPhysaddr d) v =
        ((lastCovering calls d v).map (·.translate v)).or (pageWalk s.mem (mmPhysaddr d) v)) ∧
      s.mem.Frame s'.mem (Footprint registry dirs pool) := by
  induction calls generalizing s with
  | nil => exact ⟨s, rfl, h, fun d hd v => rfl, Memory.Frame.refl _ _⟩
  | cons c cs ih =>
      obtain ⟨s₁, hrun, hready, hwalk, hframe⟩ :=
        vmMapPages_spec (hlegal c (by simp)) henough (hneeded c (by simp)) h
      obtain ⟨s', hrun', hready', hwalk', hframe'⟩ :=
        ih (fun c hc => hlegal c (by simp [hc])) (fun c hc => hneeded c (by simp [hc])) hready
      refine ⟨s', ?_, hready', ?_, hframe.trans hframe'⟩
      · simp only [runCalls, hrun]
        exact hrun'
      · intro d hd v
        rw [hwalk' d hd v, hwalk d hd v, lastCovering_cons]
        cases lastCovering cs d v with
        | some c' => rfl
        | none =>
            by_cases hc : c.directory = d ∧ c.Covers v
            · rw [if_pos hc, if_pos ⟨hc.1.symm, hc.2⟩]
              rfl
            · rw [if_neg hc, if_neg fun hd => hc ⟨hd.1.symm, hd.2⟩]
              rfl

theorem Fresh.ready (h : Fresh registry s.mem dirs free) (needed : Finset (Addr × Addr)) :
    Ready registry dirs free needed s.mem := by
  refine ⟨free, fun _ _ => none, ⟨h.list, fun p hp => hp, h.dir, h.zero, ?_, ?_, ?_⟩,
    ∅, Finset.empty_subset _, by simp, by simp⟩
  · intro d hd i hi t ht
    cases ht
  · intro d hd d' hd' i i' hi hi' t ht
    cases ht
  · intro p hp
    exact .inl hp

theorem Fresh.walk (h : Fresh registry s.mem dirs free) {d : Addr} (hd : d ∈ dirs) (v : Addr) :
    pageWalk s.mem (mmPhysaddr d) v = none := by
  obtain ⟨free', table, htree, -⟩ := h.ready ∅
  rw [pageWalk_eq s.mem (h.dir d hd).1, h.zero d hd _ (x86PdIndex_lt v)]
  simp

/-- Every pool page is still free or is the table of one directory entry. -/
theorem Ready.pool_used {needed : Finset (Addr × Addr)} {pool : List Addr} {m : Memory Addr}
    (h : Ready registry dirs pool needed m) : ∃ rest, FreeList registry m rest ∧
      ∀ p ∈ pool, p ∈ rest ∨ ∃ d ∈ dirs, ∃ i : Addr, i.toNat < 1024 ∧
        m.loadWord (entryAddr d i) = tableEntry p := by
  obtain ⟨rest, table, htree, -⟩ := h
  refine ⟨rest, htree.list, fun p hp => (htree.pool_used p hp).imp_right ?_⟩
  rintro ⟨d, hd, i, hi, ht⟩
  exact ⟨d, hd, i, hi, by rw [htree.entry d hd i hi, ht, Option.elim_some]⟩

/-- Pages freed at boot, and zero directories next to them. -/
theorem kpfreeRange_fresh {start end_ : Addr} (hr : Aligned4 registry)
    (husable : ∀ p ∈ pagesBetween (mmPageup start) (mmPageup end_), Usable registry p)
    (hdir : ∀ d ∈ dirs, PageAligned d ∧ ¬ HoldsRegistry registry d ∧
      d ∉ pagesBetween (mmPageup start) (mmPageup end_)) :
    ∃ s, kpfreeRange registry start end_ ⟨initialMemory registry, []⟩ = .ok s ∧
      Fresh registry s.mem dirs (pagesBetween (mmPageup start) (mmPageup end_)) := by
  obtain ⟨s, hs, hfree, hzero⟩ := kpfreeRange_initial hr husable
  refine ⟨s, hs, hfree, hdir, ?_⟩
  intro d hd i hi
  obtain ⟨hda, hdr, hdp⟩ := hdir d hd
  apply loadWord_of_zero
  intro x hx
  have hpage : mmPagedown x = d := by
    rw [Aligned4.pagedown_within (entryAddr_aligned hda hi) hx, entryAddr_pagedown hda hi]
  apply hzero
  intro hx
  obtain hx | hx := hx.pagedown hr husable
  · exact hdr (hpage ▸ hx)
  · exact hdp (hpage ▸ hx)

/-- Any sequence of calls leaves every directory translating each address as
the last call that covers it says, and each single call touches only its own
interval of its own directory and the pages of the paging structures, next to what
`klog` writes for a message. -/
theorem vm_map_pages_last_call_wins (h : Fresh registry s.mem dirs free)
    (hlegal : ∀ c ∈ calls, c.Legal dirs) (henough : (tablesNeeded calls).card ≤ free.length) :
    ∃ s', runCalls registry calls s = .ok s' ∧
      (∀ d ∈ dirs, ∀ v, pageWalk s'.mem (mmPhysaddr d) v =
        (lastCovering calls d v).map (·.translate v)) ∧
      (∃ rest, FreeList registry s'.mem rest ∧
        ∀ p ∈ free, p ∈ rest ∨ ∃ d ∈ dirs, ∃ i : Addr, i.toNat < 1024 ∧
          s'.mem.loadWord (entryAddr d i) = tableEntry p) ∧
      ∀ before c after, calls = before ++ c :: after →
        ∃ s₁ s₂, runCalls registry before s = .ok s₁ ∧
          vmMapPages registry c.directory c.vaddr c.paddr c.size c.permissions s₁ =
            .ok ((c.pages.length : ℤ), s₂) ∧
          runCalls registry after s₂ = .ok s' ∧
          (∀ d ∈ dirs, ∀ v, ¬ (d = c.directory ∧ c.Covers v) →
            pageWalk s₂.mem (mmPhysaddr d) v = pageWalk s₁.mem (mmPhysaddr d) v) ∧
          s₁.mem.Frame s₂.mem (Footprint registry dirs free) := by
  have hready := h.ready (tablesNeeded calls)
  have hneeded : ∀ c ∈ calls, c.slots ⊆ tablesNeeded calls := fun c => slots_subset
  obtain ⟨s', hrun, hready', hwalk, -⟩ := runCalls_spec hlegal hneeded henough hready
  refine ⟨s', hrun, ?_, hready'.pool_used, ?_⟩
  · intro d hd v
    rw [hwalk d hd v, h.walk hd, Option.or_none]
  · intro before c after hsplit
    have hmem : ∀ c' ∈ before, c' ∈ calls := fun c' hc' => by simp [hsplit, hc']
    have hc : c ∈ calls := by simp [hsplit]
    obtain ⟨s₁, hrun₁, hready₁, -⟩ := runCalls_spec (fun c' hc' => hlegal c' (hmem c' hc'))
      (fun c' hc' => hneeded c' (hmem c' hc')) henough hready
    obtain ⟨s₂, hrun₂, -, hwalk₂, hframe₂⟩ :=
      vmMapPages_spec (hlegal c hc) henough (hneeded c hc) hready₁
    refine ⟨s₁, s₂, hrun₁, hrun₂, ?_, ?_, hframe₂⟩
    · rw [hsplit, runCalls_append, hrun₁, Except.bind, runCalls, hrun₂] at hrun
      exact hrun
    · intro d hd v hout
      rw [hwalk₂ d hd v, if_neg hout]

end Sequences

/-- Two overlapping calls on one directory around a call on another. -/
def overlappingCalls : List MapCall :=
  [⟨0x80200000, 0x1000, 0x500000, 0x3000, 2⟩, ⟨0x80201000, 0x400000, 0x600000, 0x1000, 6⟩,
    ⟨0x80200000, 0x2000, 0x700000, 0x1000, 4⟩]

theorem vm_map_pages_last_call_wins_run :
    ∃ s s', kpfreeRange 0x80110040 0x80300000 0x80304000 ⟨initialMemory 0x80110040, []⟩ = .ok s ∧
      runCalls 0x80110040 overlappingCalls s = .ok s' ∧
      pageWalk s'.mem (mmPhysaddr 0x80200000) 0x2004 = some ⟨0x700004, false, true⟩ ∧
      pageWalk s'.mem (mmPhysaddr 0x80200000) 0x3008 = some ⟨0x502008, true, false⟩ ∧
      pageWalk s'.mem (mmPhysaddr 0x80201000) 0x2004 = none := by
  obtain ⟨s, hs, hfresh⟩ := kpfreeRange_fresh (by decide)
    (@of_decide_eq_true _ (List.decidableBAll _ _) (by decide) : ∀ p ∈ pagesBetween
      (mmPageup 0x80300000) (mmPageup 0x80304000), Usable 0x80110040 p)
    (@of_decide_eq_true _ (List.decidableBAll _ _) (by decide) :
      ∀ d ∈ [(0x80200000 : Addr), 0x80201000], PageAligned d ∧ ¬ HoldsRegistry 0x80110040 d ∧
        d ∉ pagesBetween (mmPageup 0x80300000) (mmPageup 0x80304000))
  have hlegal : ∀ c ∈ overlappingCalls, c.Legal [0x80200000, 0x80201000] := by decide
  obtain ⟨s', hs', hwalk, -⟩ := vm_map_pages_last_call_wins hfresh hlegal (by decide)
  exact ⟨s, s', hs, hs', hwalk _ (by simp) _, hwalk _ (by simp) _, hwalk _ (by simp) _⟩

end Yack.AddressSpaces
