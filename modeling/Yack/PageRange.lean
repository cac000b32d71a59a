import Yack.PageAllocator

/-!
# Which pages `kpfree_range` frees

Both bounds of the range are rounded up. For the lower bound that leaves out a
page the range covers in part. For the upper bound it takes one in, and in the
last page of the address space it wraps to zero, so that nothing is freed.
-/
namespace Yack.PageRange
open ByteMemory MemoryLayout KernelState PageAllocator

/-- The pages that lie entirely inside `[start, end)`. -/
def WholePage (start end_ p : Addr) : Prop :=
  PageAligned p ∧ start ≤ p ∧ p.toNat + 4096 ≤ end_.toNat

/-- The pages that hold a byte of `[start, end)`. -/
def TouchedPage (start end_ p : Addr) : Prop :=
  ∃ x, start ≤ x ∧ x < end_ ∧ mmPagedown x = p

/-- The call puts the whole pages of its range on the free list, each once and
in ascending order, and writes only to the list. -/
def FreesWholePages (registry : Addr) (pages : List Addr) (start end_ : Addr) (s : Kernel) : Prop :=
  ∃ s' freed, kpfreeRange registry start end_ s = .ok s' ∧ freed.Pairwise (· < ·) ∧
    (∀ p, p ∈ freed ↔ WholePage start end_ p) ∧ FreeList registry s'.mem (pages ++ freed) ∧
    s.mem.Frame s'.mem (AllocatorBytes registry (pages ++ freed))

/-- Rounding the upper bound up adds no page: it is aligned, or the range ends
in the page it starts in. In the last page it leaves none out. -/
def EndsWell (start end_ : Addr) : Prop :=
  if end_ ≤ 0xFFFFF000 then PageAligned end_ ∨ mmPagedown end_ < start else 0xFFFFE000 < start

instance (start end_ : Addr) : Decidable (EndsWell start end_) :=
  inferInstanceAs (Decidable (if end_ ≤ 0xFFFFF000 then PageAligned end_ ∨ mmPagedown end_ < start
    else (0xFFFFE000 : Addr) < start))

section Range
variable {start end_ p : Addr}

/-- A freed page holds a byte of the range. -/
theorem touched_of_freed (hstart : 0 < start) (h : start ≤ end_)
    (hp : p ∈ pagesBetween (mmPageup start) (mmPageup end_)) :
    p ≠ 0 ∧ PageAligned p ∧ TouchedPage start end_ p := by
  rw [mem_pagesBetween (pageAligned_pageup _)] at hp
  obtain ⟨haligned, hle, hlt⟩ := hp
  have hfirst := mmPageup_toNat start
  have hlast := mmPageup_toNat end_
  rw [BitVec.le_def] at hle h
  rw [BitVec.lt_def] at hlt hstart
  change 0 < start.toNat at hstart
  have haligned' := haligned
  unfold PageAligned at haligned'
  have hs := start.isLt
  have he := end_.isLt
  refine ⟨?_, haligned, p, ?_, ?_, haligned.pagedown⟩
  · intro hzero
    have hnat := congrArg BitVec.toNat hzero
    change p.toNat = 0 at hnat
    omega
  · rw [BitVec.le_def]
    omega
  · rw [BitVec.lt_def]
    omega

/-- Below the last page, the freed pages are the whole pages unless the rounded
end takes in the page that the range ends in. -/
theorem freed_whole_below (h : start ≤ end_) (hbelow : end_ ≤ 0xFFFFF000) :
    (∀ p, p ∈ pagesBetween (mmPageup start) (mmPageup end_) ↔ WholePage start end_ p) ↔
      PageAligned end_ ∨ mmPagedown end_ < start := by
  have hfirst := mmPageup_toNat start
  have hlast := mmPageup_toNat end_
  have hdown := mmPagedown_toNat end_
  have hs := start.isLt
  rw [BitVec.le_def] at h hbelow
  change end_.toNat ≤ 0xFFFFF000 at hbelow
  simp only [mem_pagesBetween (pageAligned_pageup _), WholePage]
  constructor
  · intro hall
    by_contra hbad
    rw [not_or, PageAligned, BitVec.not_lt, BitVec.le_def] at hbad
    have hpage := (hall (mmPagedown end_)).mp
      ⟨pageAligned_pagedown end_, by rw [BitVec.le_def]; omega, by rw [BitVec.lt_def]; omega⟩
    omega
  · intro hwell p
    rw [PageAligned, BitVec.lt_def] at hwell
    unfold PageAligned
    rw [BitVec.le_def, BitVec.lt_def, BitVec.le_def]
    omega

/-- In the last page the rounded end is zero and no page is freed, which is
right if the range holds none. -/
theorem freed_whole_top (htop : ¬ end_ ≤ 0xFFFFF000) :
    (∀ p, p ∈ pagesBetween (mmPageup start) (mmPageup end_) ↔ WholePage start end_ p) ↔
      0xFFFFE000 < start := by
  have hlast := mmPageup_toNat end_
  have he := end_.isLt
  rw [BitVec.le_def] at htop
  change ¬ end_.toNat ≤ 0xFFFFF000 at htop
  rw [BitVec.lt_def]
  change _ ↔ 0xFFFFE000 < start.toNat
  simp only [mem_pagesBetween (pageAligned_pageup _), WholePage]
  constructor
  · intro hall
    by_contra hbad
    have hpage := (hall 0xFFFFE000).mpr ⟨by decide, by
      rw [BitVec.le_def]
      change start.toNat ≤ 0xFFFFE000
      omega, by
      change 0xFFFFE000 + 4096 ≤ end_.toNat
      omega⟩
    have hlt := hpage.2.2
    rw [BitVec.lt_def] at hlt
    omega
  · intro hwell p
    unfold PageAligned
    rw [BitVec.le_def, BitVec.lt_def, BitVec.le_def]
    omega

/-- The freed pages are the whole pages exactly when the range ends well. -/
theorem freed_whole_iff (h : start ≤ end_) :
    (∀ p, p ∈ pagesBetween (mmPageup start) (mmPageup end_) ↔ WholePage start end_ p) ↔
      EndsWell start end_ := by
  unfold EndsWell
  split_ifs with hbelow
  · exact freed_whole_below h hbelow
  · exact freed_whole_top hbelow

/-- The call frees the pages between the rounded bounds, so it is a question of
these pages alone. -/
theorem freesWholePages_iff {registry : Addr} {s : Kernel} {pages : List Addr}
    (hfree : FreeList registry s.mem pages) (hstart : 0 < start) (hle : start ≤ end_)
    (hnew : ∀ p, TouchedPage start end_ p → ¬ HoldsRegistry registry p ∧ p ∉ pages) :
    FreesWholePages registry pages start end_ s ↔
      ∀ p, p ∈ pagesBetween (mmPageup start) (mmPageup end_) ↔ WholePage start end_ p := by
  have hpages : ∀ p ∈ pagesBetween (mmPageup start) (mmPageup end_),
      Usable registry p ∧ p ∉ pages := by
    intro p hp
    obtain ⟨hnull, haligned, htouched⟩ := touched_of_freed hstart hle hp
    obtain ⟨hregistry, hfresh⟩ := hnew p htouched
    exact ⟨⟨haligned, hnull, hregistry⟩, hfresh⟩
  obtain ⟨s', hrun, hlist, hframe, -⟩ := kpfreeRange_ok hfree hpages
  constructor
  · intro h
    obtain ⟨s'', freed, hrun', -, hwhole, hlist', -⟩ := h
    rw [hrun, Except.ok.injEq] at hrun'
    subst s''
    rw [List.append_cancel_left (hlist.unique hlist')]
    exact hwhole
  · intro hwhole
    exact ⟨s', _, hrun, pagesBetween_sorted _ _, hwhole, hlist, hframe⟩

/-- A range that starts behind the pages of the list head. -/
theorem touched_behind {registry : Addr} (h : mmPagedown (registry + 4) < mmPagedown start)
    (h' : mmPagedown registry < mmPagedown start) (htouched : TouchedPage start end_ p) :
    ¬ HoldsRegistry registry p := by
  obtain ⟨x, hx, -, rfl⟩ := htouched
  have hstart := mmPagedown_toNat start
  have hpage := mmPagedown_toNat x
  rw [BitVec.le_def] at hx
  rw [BitVec.lt_def] at h h'
  intro hholds
  obtain heq | heq := hholds
  · rw [heq] at h'
    omega
  · rw [heq] at h
    omega

end Range

/-- For a range whose pages are neither free nor hold the list head, the call
frees the whole pages of it exactly when it ends well. -/
theorem kpfree_range_frees_whole_pages_iff (registry : Addr) (s : Kernel) (pages : List Addr)
    (hfree : FreeList registry s.mem pages) (start end_ : Addr) (hstart : 0 < start)
    (hle : start ≤ end_)
    (hnew : ∀ p, TouchedPage start end_ p → ¬ HoldsRegistry registry p ∧ p ∉ pages) :
    FreesWholePages registry pages start end_ s ↔ EndsWell start end_ := by
  rw [freesWholePages_iff hfree hstart hle hnew]
  exact freed_whole_iff hle

/-- A range with an aligned end, into the empty registry. -/
theorem kpfree_range_frees_whole_pages_aligned :
    FreesWholePages 0x80110040 [] 0x80300001 0x80303000 ⟨initialMemory 0x80110040, []⟩ :=
  (kpfree_range_frees_whole_pages_iff 0x80110040 ⟨initialMemory 0x80110040, []⟩ []
    (initialMemory_empty (by decide)).freeList 0x80300001 0x80303000 (by decide) (by decide)
    fun _ htouched => ⟨touched_behind (by decide) (by decide) htouched, List.not_mem_nil⟩).mpr
    (by decide)

/-- Half a page is given, and all of it is freed. Two pages and a byte are
given at the top of the address space, and nothing is freed. -/
theorem kpfree_range_ragged_end :
    ¬ FreesWholePages 0x80110040 [] 0x80300000 0x80300800 ⟨initialMemory 0x80110040, []⟩ ∧
      ¬ FreesWholePages 0x80110040 [] 0xFFFFD000 0xFFFFF001 ⟨initialMemory 0x80110040, []⟩ := by
  have hempty := (initialMemory_empty (show Aligned4 0x80110040 by decide)).freeList
  constructor
  · rw [freesWholePages_iff hempty (by decide) (by decide)
      fun p h => ⟨touched_behind (by decide) (by decide) h, List.not_mem_nil⟩]
    intro hwhole
    have hpage := (hwhole 0x80300000).mp (by
      rw [mem_pagesBetween (pageAligned_pageup _)]
      decide)
    exact absurd hpage.2.2 (by decide)
  · rw [freesWholePages_iff hempty (by decide) (by decide)
      fun p h => ⟨touched_behind (by decide) (by decide) h, List.not_mem_nil⟩]
    intro hwhole
    have hpage := (hwhole 0xFFFFD000).mpr (by unfold WholePage; decide)
    rw [mem_pagesBetween (pageAligned_pageup _)] at hpage
    exact absurd hpage.2.2 (by decide)

end Yack.PageRange
