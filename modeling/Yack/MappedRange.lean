import Yack.AddressSpaces

/-!
# Where a range ends: the bounds of `vm_map_pages`

The end of the range is added up and rounded in 32 bits, and the loop compares
addresses below it. The directory of this module is any one whose present
entries point to tables, with whatever is in its other entries, and the flags
are any half word: `vm_map_page_` does not mask them.

The loop is followed by the table entries it leaves. A step stores the entry of
its page, and every other entry that was behind a present directory entry
stays, whether or not the step had to link a new table.
-/
namespace Yack.MappedRange
open ByteMemory MemoryLayout KernelState PageAllocator PageTables AddressSpaces

def Present (m : Memory Addr) (d i : Addr) : Prop :=
  (m.loadWord (entryAddr d i)).getLsbD 0 = true

instance (m : Memory Addr) (d i : Addr) : Decidable (Present m d i) :=
  inferInstanceAs (Decidable (_ = _))

/-- The table a directory entry points to, as the kernel sees it. -/
def tableAt (m : Memory Addr) (d i : Addr) : Addr :=
  mmVirtaddr (x86PteAddr (m.loadWord (entryAddr d i)))

/-- A directory whose present entries point to page tables, each to one of its
own, apart from the directory, the list head and the free pages. -/
structure PagingStructures (registry d : Addr) (m : Memory Addr) (free : List Addr) : Prop where
  list : FreeList registry m free
  aligned : PageAligned d
  outside : ¬ HoldsRegistry registry d
  reserved : d ∉ free
  small : ∀ i : Addr, i.toNat < 1024 → Present m d i →
    (m.loadWord (entryAddr d i)).getLsbD 7 = false
  table : ∀ i : Addr, i.toNat < 1024 → Present m d i →
    tableAt m d i ≠ d ∧ ¬ HoldsRegistry registry (tableAt m d i) ∧ tableAt m d i ∉ free
  own : ∀ i j : Addr, i.toNat < 1024 → j.toNat < 1024 → Present m d i → Present m d j →
    tableAt m d i = tableAt m d j → i = j

/-- `ceil(size / 4096)`. -/
def pageCount (size : BitVec 32) : ℕ := (size.toNat + 4095) / 4096

/-- The pages that `[vaddr, vaddr + size)` meets. -/
def rangePages (c : MapCall) : List Addr :=
  (List.range (pageCount c.size)).map fun k => c.vaddr + BitVec.ofNat 32 (4096 * k)

/-- The address shares its page with one of the range. -/
def Meets (c : MapCall) (v : Addr) : Prop :=
  ∃ x, c.vaddr.toNat ≤ x ∧ x < c.vaddr.toNat + c.size.toNat ∧ x / 4096 = v.toNat / 4096

/-- The counterpart from `paddr`. -/
def counterpart (c : MapCall) (v : Addr) : Addr := c.paddr + (v - c.vaddr)

/-- The directory entries the pages need and do not have. -/
def missing (m : Memory Addr) (d : Addr) (pages : List Addr) : Finset Addr :=
  (pages.map x86PdIndex).toFinset.filter fun i => ¬ Present m d i

/-- The call returns the number of pages and has mapped each of them. -/
def MapsRange (registry : Addr) (c : MapCall) (s : Kernel) : Prop :=
  ∃ s', vmMapPages registry c.directory c.vaddr c.paddr c.size c.permissions s =
      .ok ((pageCount c.size : ℤ), s') ∧
    ∀ v, Meets c v → ∃ t, pageWalk s'.mem (mmPhysaddr c.directory) v = some t ∧
      t.phys = counterpart c v

/-- The rounded end is still an address. -/
def EndsBelowTop (c : MapCall) : Prop := c.vaddr.toNat + c.size.toNat ≤ 2 ^ 32 - 4096

/-- Bits of the flags that lie in the frame number are set in every frame. -/
def FlagsFit (c : MapCall) : Prop :=
  ∀ p ∈ rangePages c, x86PteAddr (c.permissions.setWidth 32) ||| counterpart c p = counterpart c p

instance (c : MapCall) : Decidable (EndsBelowTop c) := inferInstanceAs (Decidable (_ ≤ _))

instance (c : MapCall) : Decidable (FlagsFit c) := List.decidableBAll _ _

section Ranges
variable {c : MapCall}

theorem mem_rangePages {p : Addr} : p ∈ rangePages c ↔
    ∃ k < pageCount c.size, c.vaddr + BitVec.ofNat 32 (4096 * k) = p := by
  simp only [rangePages, List.mem_map, List.mem_range]

theorem counterpart_add (x : Addr) : counterpart c (c.vaddr + x) = c.paddr + x := by
  rw [counterpart, BitVec.add_comm c.vaddr, BitVec.add_sub_cancel]

/-- Pages of the range and their counterparts are aligned. -/
theorem pageAligned_of_mem (hva : PageAligned c.vaddr) (hpa : PageAligned c.paddr) {p : Addr}
    (hp : p ∈ rangePages c) : PageAligned p ∧ PageAligned (counterpart c p) := by
  obtain ⟨k, -, rfl⟩ := mem_rangePages.mp hp
  rw [counterpart_add]
  exact ⟨pageAligned_add hva k, pageAligned_add hpa k⟩

/-- Below the top neither the sum nor the rounding wraps. -/
theorem end_toNat (hend : EndsBelowTop c) : (mmPageup (c.vaddr + c.size)).toNat =
    (c.vaddr.toNat + c.size.toNat + 4095) / 4096 * 4096 := by
  unfold EndsBelowTop at hend
  rw [mmPageup_toNat, BitVec.toNat_add, Nat.mod_eq_of_lt (by omega), Nat.mod_eq_of_lt (by omega)]

theorem pages_eq_rangePages (hva : PageAligned c.vaddr) (hend : EndsBelowTop c) :
    c.pages = rangePages c := by
  have hcount : ((mmPageup (c.vaddr + c.size)).toNat - c.vaddr.toNat + 4095) / 4096 =
      pageCount c.size := by
    unfold PageAligned at hva
    rw [end_toNat hend, pageCount]
    omega
  rw [MapCall.pages, hva.pagedown, pagesBetween, hcount, rangePages]

/-- A range that ends in the last page has its rounded end at address 0. -/
theorem pages_eq_nil (hsum : c.vaddr.toNat + c.size.toNat ≤ 2 ^ 32) (hend : ¬ EndsBelowTop c) :
    c.pages = [] := by
  have hlast : mmPageup (c.vaddr + c.size) = 0 := by
    unfold EndsBelowTop at hend
    apply BitVec.eq_of_toNat_eq
    rw [mmPageup_toNat, BitVec.toNat_add]
    change _ = 0
    omega
  rw [MapCall.pages, hlast]
  exact pagesBetween_of_le (Nat.zero_le _)

theorem covers_of_meets (hva : PageAligned c.vaddr) (hend : EndsBelowTop c) {v : Addr}
    (h : Meets c v) : c.Covers v := by
  obtain ⟨x, hlow, hhigh, hpage⟩ := h
  unfold PageAligned at hva
  rw [MapCall.Covers, BitVec.le_def, BitVec.lt_def, end_toNat hend]
  omega

theorem meets_of_mem {p : Addr} (hsum : c.vaddr.toNat + c.size.toNat ≤ 2 ^ 32)
    (hp : p ∈ rangePages c) : Meets c p := by
  obtain ⟨k, hk, rfl⟩ := mem_rangePages.mp hp
  unfold pageCount at hk
  refine ⟨c.vaddr.toNat + 4096 * k, by omega, by omega, ?_⟩
  rw [BitVec.toNat_add, BitVec.toNat_ofNat]
  congr 1
  omega

end Ranges

/-- The table entry of a virtual address. -/
def entryOf (m : Memory Addr) (d va : Addr) : BitVec 32 :=
  m.loadWord (entryAddr (tableAt m d (x86PdIndex va)) (x86PtIndex va))

/-- One entry is written, its directory entry is present from now on, and the
others that were present are as before. -/
structure WritesEntry (d va : Addr) (entry : BitVec 32) (m m' : Memory Addr) : Prop where
  present : ∀ i : Addr, i.toNat < 1024 → (Present m' d i ↔ Present m d i ∨ i = x86PdIndex va)
  written : entryOf m' d va = entry
  keep : ∀ v, Present m d (x86PdIndex v) → mmPagedown v ≠ va → entryOf m' d v = entryOf m d v

section OnePage
variable {registry d va pa : Addr} {permissions : BitVec 16} {s : Kernel} {free : List Addr}

theorem pageAligned_tableAt (m : Memory Addr) (d i : Addr) : PageAligned (tableAt m d i) := by
  have haddr : PageAligned (x86PteAddr (m.loadWord (entryAddr d i))) := pageAligned_pagedown _
  rw [tableAt, ← pageAligned_physaddr, mmPhysaddr_virtaddr]
  exact haddr

/-- A directory entry that stays keeps its table. -/
theorem present_congr {m m' : Memory Addr} {i : Addr}
    (h : m'.loadWord (entryAddr d i) = m.loadWord (entryAddr d i)) :
    Present m' d i ↔ Present m d i := by
  rw [Present, h, Present]

theorem tableAt_congr {m m' : Memory Addr} {i : Addr}
    (h : m'.loadWord (entryAddr d i) = m.loadWord (entryAddr d i)) :
    tableAt m' d i = tableAt m d i := by
  rw [tableAt, h, tableAt]

theorem pageEntry_frame (hpa : PageAligned pa) :
    x86PteAddr (pageEntry pa permissions) = x86PteAddr (permissions.setWidth 32) ||| pa := by
  rw [x86PteAddr_eq, x86PteAddr_eq, pageEntry]
  apply BitVec.eq_of_getLsbD_eq
  intro k hk
  have hone : (x86PtePresent).getLsbD k = decide (k < 1) := mask_getLsbD 32 1 k (by decide)
  rw [mmPagedown_getLsbD, BitVec.getLsbD_or, BitVec.getLsbD_or, BitVec.getLsbD_or,
    mmPagedown_getLsbD, hone]
  by_cases h12 : 12 ≤ k
  · simp [h12, show ¬ k < 1 by omega, Bool.or_comm]
  · simp [h12, hpa.getLsbD (Nat.not_le.mp h12)]

/-- The walk behind a present entry with a written table entry. -/
theorem PagingStructures.walk {m : Memory Addr} (h : PagingStructures registry d m free) {v : Addr}
    (hpresent : Present m d (x86PdIndex v)) (hpa : PageAligned pa)
    (hentry : entryOf m d v = pageEntry pa permissions) :
    ∃ t, pageWalk m (mmPhysaddr d) v = some t ∧
      t.phys = (x86PteAddr (permissions.setWidth 32) ||| pa) + (v - mmPagedown v) := by
  have hsmall := h.small _ (x86PdIndex_lt v) hpresent
  have haligned : PageAligned (x86PteAddr (pageEntry pa permissions)) := pageAligned_pagedown _
  unfold Present at hpresent
  rw [entryOf, tableAt] at hentry
  rw [pageWalk_eq m h.aligned]
  simp only [hpresent, hsmall, hentry, pageEntry_present, if_true]
  refine ⟨_, rfl, ?_⟩
  rw [frame_or_offset haligned, pageEntry_frame hpa]

/-- Behind a present entry: one table entry is stored. -/
theorem PagingStructures.store {m m' : Memory Addr} (h : PagingStructures registry d m free)
    (hva : PageAligned va) (hpresent : Present m d (x86PdIndex va)) (entry : BitVec 32)
    (hm' : m.storeWord (entryAddr (tableAt m d (x86PdIndex va)) (x86PtIndex va)) entry = m') :
    PagingStructures registry d m' free ∧ WritesEntry d va entry m m' := by
  have hi := x86PdIndex_lt va
  have hj := x86PtIndex_lt va
  obtain ⟨htd, htr, htfree⟩ := h.table _ hi hpresent
  have hta := pageAligned_tableAt m d (x86PdIndex va)
  have hframe := frame_store_entry m hta hj entry
  have hstored := fun (k : Addr) (hk : k.toNat < 1024) => loadWord_store_entry m hta hj hk entry
  rw [hm'] at hframe
  rw [hm'] at hstored
  have hdir : ∀ i : Addr, i.toNat < 1024 →
      m'.loadWord (entryAddr d i) = m.loadWord (entryAddr d i) := fun i hi =>
    entry_unchanged hframe h.aligned hi fun x hx hxt => htd (hxt.symm.trans hx)
  have hpres := fun (i : Addr) (hi : i.toNat < 1024) => present_congr (hdir i hi)
  have htable := fun (i : Addr) (hi : i.toNat < 1024) => tableAt_congr (hdir i hi)
  constructor
  · refine ⟨h.list.unchanged hframe ?_, h.aligned, h.outside, h.reserved, ?_, ?_, ?_⟩
    · intro x hx
      rw [hx]
      exact ⟨htr, htfree⟩
    · intro i hi hp
      rw [hdir i hi]
      exact h.small i hi ((hpres i hi).mp hp)
    · intro i hi hp
      rw [htable i hi]
      exact h.table i hi ((hpres i hi).mp hp)
    · intro i j hi hj hpi hpj heq
      rw [htable i hi, htable j hj] at heq
      exact h.own i j hi hj ((hpres i hi).mp hpi) ((hpres j hj).mp hpj) heq
  · refine ⟨?_, ?_, ?_⟩
    · intro i hi
      rw [hpres i hi, iff_self_or]
      rintro rfl
      exact hpresent
    · rw [entryOf, htable _ hi, hstored _ hj, if_pos rfl]
    · intro v hv hne
      rw [entryOf, htable _ (x86PdIndex_lt v), entryOf]
      by_cases hsame : x86PdIndex v = x86PdIndex va
      · have hpt : ¬ x86PtIndex v = x86PtIndex va := fun hpt =>
          hne ((page_eq_iff hva).mpr ⟨hsame, hpt⟩)
        rw [hsame, hstored _ (x86PtIndex_lt v), if_neg hpt]
      · refine entry_unchanged hframe (pageAligned_tableAt _ _ _) (x86PtIndex_lt v) ?_
        intro x hx hxt
        exact hsame (h.own _ _ (x86PdIndex_lt v) hi hv hpresent (hx.symm.trans hxt))

/-- Behind a missing entry: a linked table holds the entry. -/
theorem PagingStructures.link {q : Addr} {m m' : Memory Addr} {entry : BitVec 32}
    (h : PagingStructures registry d m (q :: free))
    (hmissing : ¬ Present m d (x86PdIndex va))
    (hl : LinksTable registry d q (x86PdIndex va) (x86PtIndex va) entry free m m') :
    PagingStructures registry d m' free ∧ WritesEntry d va entry m m' := by
  have hi := x86PdIndex_lt va
  have hj := x86PtIndex_lt va
  have hq : Usable registry q := h.list.usable q (by simp)
  have hqd : q ≠ d := fun e => h.reserved (by simp [e])
  have hqfree : q ∉ free := (List.nodup_cons.mp h.list.nodup).1
  have hlinked : m'.loadWord (entryAddr d (x86PdIndex va)) = tableEntry q := by
    rw [hl.directory _ hi, if_pos rfl]
  have hdir : ∀ i : Addr, i.toNat < 1024 → i ≠ x86PdIndex va →
      m'.loadWord (entryAddr d i) = m.loadWord (entryAddr d i) := by
    intro i hi hne
    rw [hl.directory i hi, if_neg hne]
  have hpres := fun (i : Addr) (hi : i.toNat < 1024) (hne : i ≠ x86PdIndex va) =>
    present_congr (hdir i hi hne)
  have htable := fun (i : Addr) (hi : i.toNat < 1024) (hne : i ≠ x86PdIndex va) =>
    tableAt_congr (hdir i hi hne)
  have hlinkedTable : tableAt m' d (x86PdIndex va) = q := by
    rw [tableAt, hlinked, tableEntry_addr hq.aligned, mmVirtaddr_physaddr]
  have hold : ∀ i : Addr, i.toNat < 1024 → i ≠ x86PdIndex va → Present m' d i →
      tableAt m' d i ≠ d ∧ ¬ HoldsRegistry registry (tableAt m' d i) ∧
        tableAt m' d i ∉ q :: free := by
    intro i hi hne hp
    rw [htable i hi hne]
    exact h.table i hi ((hpres i hi hne).mp hp)
  constructor
  · refine ⟨hl.list, h.aligned, h.outside, fun hd => h.reserved (List.mem_cons_of_mem _ hd), ?_, ?_,
      ?_⟩
    · intro i hi hp
      by_cases hne : i = x86PdIndex va
      · rw [hne, hlinked, tableEntry_bit hq.aligned (by decide)]
        rfl
      · rw [hdir i hi hne]
        exact h.small i hi ((hpres i hi hne).mp hp)
    · intro i hi hp
      by_cases hne : i = x86PdIndex va
      · rw [hne, hlinkedTable]
        exact ⟨hqd, hq.outside, hqfree⟩
      · obtain ⟨htd, htr, htfree⟩ := hold i hi hne hp
        exact ⟨htd, htr, fun ht => htfree (List.mem_cons_of_mem _ ht)⟩
    · intro i j hi hj hpi hpj heq
      by_cases hni : i = x86PdIndex va <;> by_cases hnj : j = x86PdIndex va
      · rw [hni, hnj]
      · rw [hni, hlinkedTable] at heq
        exact absurd (by simp [heq]) (hold j hj hnj hpj).2.2
      · rw [hnj, hlinkedTable] at heq
        exact absurd (by simp [heq]) (hold i hi hni hpi).2.2
      · rw [htable i hi hni, htable j hj hnj] at heq
        exact h.own i j hi hj ((hpres i hi hni).mp hpi) ((hpres j hj hnj).mp hpj) heq
  · refine ⟨?_, ?_, ?_⟩
    · intro i hi
      by_cases hne : i = x86PdIndex va
      · refine iff_of_true ?_ (.inr hne)
        rw [hne, Present, hlinked, tableEntry_bit hq.aligned (by decide)]
        rfl
      · rw [hpres i hi hne, or_iff_left hne]
    · rw [entryOf, hlinkedTable, hl.table _ hj, if_pos rfl]
    · intro v hv hne
      have hother : x86PdIndex v ≠ x86PdIndex va := fun e => hmissing (e ▸ hv)
      obtain ⟨htd, htr, htfree⟩ := h.table _ (x86PdIndex_lt v) hv
      rw [entryOf, htable _ (x86PdIndex_lt v) hother, entryOf,
        hl.keep _ _ (pageAligned_tableAt _ _ _) (x86PtIndex_lt v) htr htfree htd]

/-- One page: with its entry present, or a free page for the table. -/
theorem vmMapPage_writes (h : PagingStructures registry d s.mem free) (hva : PageAligned va)
    (hpa : PageAligned pa) (hroom : Present s.mem d (x86PdIndex va) ∨ free ≠ []) :
    ∃ s' free', vmMapPage_ registry d va pa permissions s = .ok (0, s') ∧
      PagingStructures registry d s'.mem free' ∧
      WritesEntry d va (pageEntry pa permissions) s.mem s'.mem ∧
      free'.length + (if Present s.mem d (x86PdIndex va) then 0 else 1) = free.length := by
  by_cases hpresent : Present s.mem d (x86PdIndex va)
  · obtain ⟨hstructures, hwrites⟩ := h.store hva hpresent (pageEntry pa permissions) rfl
    refine ⟨_, free, vmMapPage_present hva hpa hpresent, hstructures, hwrites, ?_⟩
    rw [if_pos hpresent]
    rfl
  · cases free with
    | nil => exact absurd hroom (by simp [hpresent])
    | cons q free =>
        obtain ⟨s', hrun, hl⟩ := @vmMapPage_links registry d va pa permissions s free q h.list
          h.aligned h.outside h.reserved hva hpa (by simpa [Present] using hpresent)
        obtain ⟨hstructures, hwrites⟩ := h.link hpresent hl
        refine ⟨s', free, hrun, hstructures, hwrites, ?_⟩
        rw [if_neg hpresent, List.length_cons]

end OnePage

section Loop
variable {registry : Addr} {c : MapCall} {s : Kernel} {pages : List Addr}

/-- Mapping a page leaves one entry fewer missing, if it was. -/
theorem missing_writes {d va : Addr} {entry : BitVec 32} {m m' : Memory Addr}
    (h : WritesEntry d va entry m m') :
    missing m' d pages = (missing m d pages).erase (x86PdIndex va) := by
  ext i
  simp only [missing, Finset.mem_filter, Finset.mem_erase, List.mem_toFinset, List.mem_map]
  constructor
  · rintro ⟨⟨p, hp, rfl⟩, hnot⟩
    rw [h.present _ (x86PdIndex_lt p), not_or] at hnot
    exact ⟨hnot.2, ⟨p, hp, rfl⟩, hnot.1⟩
  · rintro ⟨hne, ⟨p, hp, rfl⟩, hnot⟩
    refine ⟨⟨p, hp, rfl⟩, ?_⟩
    rw [h.present _ (x86PdIndex_lt p), not_or]
    exact ⟨hnot, hne⟩

theorem mem_missing {d va : Addr} {m : Memory Addr} (hva : va ∈ pages)
    (h : ¬ Present m d (x86PdIndex va)) : x86PdIndex va ∈ missing m d pages :=
  Finset.mem_filter.mpr ⟨List.mem_toFinset.mpr (List.mem_map.mpr ⟨va, hva, rfl⟩), h⟩

theorem WritesEntry.missing_card {d va : Addr} {entry : BitVec 32} {m m' : Memory Addr}
    (h : WritesEntry d va entry m m') (hva : va ∈ pages) :
    (missing m' d pages).card + (if Present m d (x86PdIndex va) then 0 else 1) ≤
      (missing m d pages).card := by
  rw [missing_writes h]
  split_ifs with hpresent
  · rw [Nat.add_zero]
    exact Finset.card_erase_le
  · rw [Finset.card_erase_add_one (mem_missing hva hpresent)]

/-- The loop invariant: the entries of the pages `done` are written, and there
is a free page for every table still missing. -/
structure Filled (registry : Addr) (c : MapCall) (pages done : List Addr)
    (state : Addr × ℤ × Kernel) : Prop where
  paddr : state.1 = c.paddr + BitVec.ofNat 32 (4096 * done.length)
  total : state.2.1 = done.length
  room : ∃ free, PagingStructures registry c.directory state.2.2.mem free ∧
    (missing state.2.2.mem c.directory pages).card ≤ free.length
  entry : ∀ p ∈ done, Present state.2.2.mem c.directory (x86PdIndex p) ∧
    entryOf state.2.2.mem c.directory p = pageEntry (counterpart c p) c.permissions

theorem mapStep_filled (hva : PageAligned c.vaddr) (hpa : PageAligned c.paddr)
    {done rest : List Addr} {p : Addr} {state : Addr × ℤ × Kernel}
    (hsplit : done ++ p :: rest = c.pages) (h : Filled registry c c.pages done state) :
    ∃ state', mapStep registry c.directory c.permissions state p = .ok state' ∧
      Filled registry c c.pages (done ++ [p]) state' := by
  obtain ⟨paddr, total, s⟩ := state
  obtain ⟨rfl, rfl, ⟨free, hstructures, hcard⟩, hentry⟩ := h
  simp only at hstructures hcard hentry
  have hmem : p ∈ c.pages := by simp [← hsplit]
  have hrange : c.pages = pagesBetween c.vaddr (mmPageup (c.vaddr + c.size)) := by
    rw [MapCall.pages, hva.pagedown]
  have hp : p = c.vaddr + BitVec.ofNat 32 (4096 * done.length) := pages_split (hsplit.trans hrange)
  have haligned : ∀ q ∈ c.pages, PageAligned q := by
    intro q hq
    rw [hrange, mem_pagesBetween hva] at hq
    exact hq.1
  have hframe : c.paddr + BitVec.ofNat 32 (4096 * done.length) = counterpart c p := by
    rw [hp, counterpart_add]
  have hpa' : PageAligned (counterpart c p) := hframe ▸ pageAligned_add hpa done.length
  have hroom : Present s.mem c.directory (x86PdIndex p) ∨ free ≠ [] := by
    by_contra hnot
    obtain ⟨hmissing, hnil⟩ := not_or.mp hnot
    have hpos := Finset.card_pos.mpr ⟨_, mem_missing hmem hmissing⟩
    rw [not_not.mp hnil, List.length_nil] at hcard
    omega
  obtain ⟨s', free', hrun, hstructures', hwrites, hlength⟩ :=
    @vmMapPage_writes registry c.directory p (counterpart c p) c.permissions s free hstructures
      (haligned p hmem) hpa' hroom
  refine ⟨(counterpart c p + x86Pagesz, (done.length : ℤ) + 1, s'), ?_, ?_, ?_,
    ⟨free', hstructures', ?_⟩, ?_⟩
  · simp only [mapStep, hframe, hrun]
    rfl
  · rw [← hframe, List.length_append, List.length_singleton, Nat.mul_add, BitVec.ofNat_add,
      ← BitVec.add_assoc]
    rfl
  · simp
  · have hfewer := hwrites.missing_card hmem
    change (missing s'.mem c.directory c.pages).card ≤ free'.length
    omega
  · intro q hq
    by_cases hqp : q = p
    · subst q
      exact ⟨(hwrites.present _ (x86PdIndex_lt p)).mpr (.inr rfl), hwrites.written⟩
    · have hqdone : q ∈ done := by simpa [hqp] using hq
      obtain ⟨hpresent, hold⟩ := hentry q hqdone
      refine ⟨(hwrites.present _ (x86PdIndex_lt q)).mpr (.inl hpresent), ?_⟩
      rw [hwrites.keep q hpresent, hold]
      rwa [(haligned q (by simp [← hsplit, hqdone])).pagedown]

/-- The whole call: its pages counted, their entries written. -/
theorem vmMapPages_fills {free : List Addr}
    (h : PagingStructures registry c.directory s.mem free) (hva : PageAligned c.vaddr)
    (hpa : PageAligned c.paddr) (henough : (missing s.mem c.directory c.pages).card ≤ free.length) :
    ∃ s', vmMapPages registry c.directory c.vaddr c.paddr c.size c.permissions s =
        .ok ((c.pages.length : ℤ), s') ∧
      ∃ free', PagingStructures registry c.directory s'.mem free' ∧
        ∀ p ∈ c.pages, Present s'.mem c.directory (x86PdIndex p) ∧
          entryOf s'.mem c.directory p = pageEntry (counterpart c p) c.permissions := by
  have hinit : Filled registry c c.pages [] (c.paddr, 0, s) := by
    refine ⟨?_, rfl, ⟨free, h, henough⟩, by simp⟩
    rw [List.length_nil, Nat.mul_zero]
    exact (BitVec.add_zero _).symm
  obtain ⟨state, hrun, -, htotal, ⟨free', hstructures, -⟩, hentry⟩ :=
    foldlM_invariant c.pages (fun done p rest state hsplit hinv =>
      mapStep_filled hva hpa hsplit hinv) hinit
  refine ⟨state.2.2, ?_, free', hstructures, hentry⟩
  rw [vmMapPages_eq hva, hrun, ← htotal]
  rfl

/-- Every page of the range is mapped to its counterpart, with the high bits of
the flags set in the frame. -/
theorem vmMapPages_walk {free : List Addr} (h : PagingStructures registry c.directory s.mem free)
    (hva : PageAligned c.vaddr) (hpa : PageAligned c.paddr) (hend : EndsBelowTop c)
    (henough : (missing s.mem c.directory (rangePages c)).card ≤ free.length) :
    ∃ s', vmMapPages registry c.directory c.vaddr c.paddr c.size c.permissions s =
        .ok ((pageCount c.size : ℤ), s') ∧
      ∀ v, mmPagedown v ∈ rangePages c →
        ∃ t, pageWalk s'.mem (mmPhysaddr c.directory) v = some t ∧
          t.phys = (x86PteAddr (c.permissions.setWidth 32) ||| counterpart c (mmPagedown v)) +
            (v - mmPagedown v) := by
  have hpages := pages_eq_rangePages hva hend
  obtain ⟨s', hrun, free', hstructures, hentry⟩ := vmMapPages_fills h hva hpa (by rwa [hpages])
  rw [hpages] at hrun hentry
  refine ⟨s', by simpa [rangePages] using hrun, fun v hv => ?_⟩
  obtain ⟨hpd, hpt⟩ := (page_eq_iff (pageAligned_pagedown v)).mp (rfl : mmPagedown v = mmPagedown v)
  obtain ⟨hpresent, hwritten⟩ := hentry _ hv
  refine hstructures.walk (hpd ▸ hpresent) (pageAligned_of_mem hva hpa hv).2 ?_
  rw [← hwritten, entryOf, entryOf, hpd, hpt]

theorem mapsRange_iff_flagsFit {free : List Addr}
    (h : PagingStructures registry c.directory s.mem free) (hva : PageAligned c.vaddr)
    (hpa : PageAligned c.paddr) (hend : EndsBelowTop c)
    (henough : (missing s.mem c.directory (rangePages c)).card ≤ free.length) :
    MapsRange registry c s ↔ FlagsFit c := by
  obtain ⟨s', hrun, hwalk⟩ := vmMapPages_walk h hva hpa hend henough
  constructor
  · intro hmaps p hp
    obtain ⟨s'', hrun', hmapped⟩ := hmaps
    rw [hrun] at hrun'
    cases hrun'
    have haligned : mmPagedown p = p := (pageAligned_of_mem hva hpa hp).1.pagedown
    have hsum : c.vaddr.toNat + c.size.toNat ≤ 2 ^ 32 := by
      unfold EndsBelowTop at hend
      omega
    obtain ⟨t, ht, hphys⟩ := hmapped p (meets_of_mem hsum hp)
    obtain ⟨t', ht', hphys'⟩ := hwalk p (by rwa [haligned])
    cases ht.symm.trans ht'
    rw [hphys, haligned, BitVec.sub_self, BitVec.add_zero] at hphys'
    exact hphys'.symm
  · intro hfit
    refine ⟨s', hrun, fun v hv => ?_⟩
    have hmem : mmPagedown v ∈ rangePages c := by
      rw [← pages_eq_rangePages hva hend, mem_pages hva]
      exact covers_of_meets hva hend hv
    obtain ⟨t, ht, hphys⟩ := hwalk v hmem
    have hsteps : ∀ p : Addr, p - c.vaddr + (v - p) = v - c.vaddr := by
      intro p
      bv_omega
    refine ⟨t, ht, ?_⟩
    rw [hphys, hfit _ hmem, counterpart, BitVec.add_assoc, hsteps, counterpart]

/-- A range that ends in the last page is not mapped at all. -/
theorem vmMapPages_wraps (hva : PageAligned c.vaddr)
    (hsum : c.vaddr.toNat + c.size.toNat ≤ 2 ^ 32) (hend : ¬ EndsBelowTop c) :
    vmMapPages registry c.directory c.vaddr c.paddr c.size c.permissions s = .ok (0, s) := by
  rw [vmMapPages_eq hva, pages_eq_nil hsum hend]
  rfl

theorem not_mapsRange_of_wrap (hva : PageAligned c.vaddr) (hsize : 0 < c.size.toNat)
    (hsum : c.vaddr.toNat + c.size.toNat ≤ 2 ^ 32) (hend : ¬ EndsBelowTop c) :
    ¬ MapsRange registry c s := by
  rintro ⟨s', hrun, -⟩
  rw [vmMapPages_wraps hva hsum hend] at hrun
  injection hrun with hrun
  injection hrun with hcount
  unfold pageCount at hcount
  omega

/-- A zero directory, with any free pages. -/
theorem structures_of_fresh {d : Addr} {dirs free : List Addr} {m : Memory Addr}
    (h : Fresh registry m dirs free) (hd : d ∈ dirs) : PagingStructures registry d m free := by
  obtain ⟨hda, hdr, hdfree⟩ := h.dir d hd
  have habsent : ∀ i : Addr, i.toNat < 1024 → ¬ Present m d i := by
    intro i hi
    rw [Present, h.zero d hd i hi]
    simp
  exact ⟨h.list, hda, hdr, hdfree, fun i hi hp => absurd hp (habsent i hi),
    fun i hi hp => absurd hp (habsent i hi), fun i j hi _ hp => absurd hp (habsent i hi)⟩

theorem missing_card_le (m : Memory Addr) (d : Addr) (c : MapCall) :
    (missing m d (rangePages c)).card ≤ pageCount c.size := by
  refine (Finset.card_filter_le _ _).trans ((List.toFinset_card_le _).trans ?_)
  simp [rangePages]

end Loop

/-- For page-aligned addresses, a range inside the address space and its
tables' worth of free pages, the call maps the range exactly if the rounded end
does not wrap and no flag changes a frame. -/
theorem vm_map_pages_maps_range_iff (registry : Addr) (c : MapCall) (s : Kernel)
    (free : List Addr) (h : PagingStructures registry c.directory s.mem free)
    (hva : PageAligned c.vaddr) (hpa : PageAligned c.paddr) (hsize : 0 < c.size.toNat)
    (hvirt : c.vaddr.toNat + c.size.toNat ≤ 2 ^ 32)
    (henough : (missing s.mem c.directory (rangePages c)).card ≤ free.length) :
    MapsRange registry c s ↔ EndsBelowTop c ∧ FlagsFit c := by
  by_cases hend : EndsBelowTop c
  · rw [mapsRange_iff_flagsFit h hva hpa hend henough]
    exact (and_iff_right hend).symm
  · exact iff_of_false (not_mapsRange_of_wrap hva hsize hvirt hend) fun hboth => hend hboth.1

/-- Four free pages and a zero directory at `0x80200000`. -/
theorem zeroDirectory : ∃ s,
    kpfreeRange 0x80110040 0x80300000 0x80304000 ⟨initialMemory 0x80110040, []⟩ = .ok s ∧
      PagingStructures 0x80110040 0x80200000 s.mem
        [0x80300000, 0x80301000, 0x80302000, 0x80303000] := by
  have hpages : pagesBetween (mmPageup 0x80300000) (mmPageup 0x80304000) =
      [0x80300000, 0x80301000, 0x80302000, 0x80303000] := by decide
  obtain ⟨s, hs, hfresh⟩ := @kpfreeRange_fresh 0x80110040 [0x80200000] 0x80300000 0x80304000
    (by decide) (@of_decide_eq_true _ (List.decidableBAll _ _) (by decide))
    (@of_decide_eq_true _ (List.decidableBAll _ _) (by decide))
  rw [hpages] at hfresh
  exact ⟨s, hs, structures_of_fresh hfresh (by simp)⟩

/-- Six kilobytes of device registers, ending below the last page. -/
theorem vm_map_pages_maps_range_device : ∃ s,
    kpfreeRange 0x80110040 0x80300000 0x80304000 ⟨initialMemory 0x80110040, []⟩ = .ok s ∧
      MapsRange 0x80110040 ⟨0x80200000, 0xFEC00000, 0xFEC00000, 0x1800, 2⟩ s := by
  obtain ⟨s, hs, h⟩ := zeroDirectory
  refine ⟨s, hs, ?_⟩
  exact (vm_map_pages_maps_range_iff 0x80110040 ⟨0x80200000, 0xFEC00000, 0xFEC00000, 0x1800, 2⟩ s
    _ h (by decide) (by decide) (by decide) (by decide)
    ((missing_card_le _ _ _).trans (by decide))).mpr ⟨by decide, by decide⟩

/-- The last page of the address space: nothing is mapped, and 0 returned. -/
theorem vm_map_pages_wraps_at_top : ∃ s,
    kpfreeRange 0x80110040 0x80300000 0x80304000 ⟨initialMemory 0x80110040, []⟩ = .ok s ∧
      PagingStructures 0x80110040 0x80200000 s.mem
        [0x80300000, 0x80301000, 0x80302000, 0x80303000] ∧
      vmMapPages 0x80110040 0x80200000 0xFFFFF000 0xFEE00000 0x1000 2 s = .ok (0, s) ∧
      ¬ MapsRange 0x80110040 ⟨0x80200000, 0xFFFFF000, 0xFEE00000, 0x1000, 2⟩ s := by
  obtain ⟨s, hs, h⟩ := zeroDirectory
  have hva : PageAligned 0xFFFFF000 := by decide
  have hend : ¬ EndsBelowTop ⟨0x80200000, 0xFFFFF000, 0xFEE00000, 0x1000, 2⟩ := by decide
  refine ⟨s, hs, h, ?_, not_mapsRange_of_wrap hva (by decide) (by decide) hend⟩
  exact @vmMapPages_wraps 0x80110040 ⟨0x80200000, 0xFFFFF000, 0xFEE00000, 0x1000, 2⟩ s hva
    (by decide) hend

end Yack.MappedRange
