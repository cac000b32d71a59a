import Yack.HigherHalf
import Yack.KernelAddressSpace

/-!
# What `kvm_init` does to memory

`kvm_init` takes the low mapping out of the boot directory, frees the pool and
builds the kernel directory out of the first two pages of it. All of its other
stores go to the list head and to pages of the pool, so what the kernel keeps
elsewhere, the boot directory included, is as it was.
-/
namespace Yack.BootMemory
open ByteMemory MemoryLayout KernelState PageAllocator PageTables AddressSpaces Memop
  KernelAddressSpace HigherHalf

/-- The bytes of the allocator's head and of the pool. -/
def ManagerBytes (l : Layout) (x : Addr) : Prop :=
  Within l.registry 8 x ∨ mmPagedown x ∈ l.pool

/-- The messages of `kvm_init` and the pages it takes, newest first. -/
def kvmEvents (l : Layout) (d q : Addr) : List Event :=
  let first := mmPageup l.end_
  let last := mmPageup (mmVirtaddr fourMb)
  [.handedOut q, .klog "DEBUG" "Allocating a new page directory\n" [], .handedOut d,
    .klog "DEBUG" "pages: first = %p, last = %p, count = %u\n"
      [first, last, (last - first).sdiv x86Pagesz]]

section Init
variable {l : Layout} {s s' : Kernel} {d q : Addr} {free : List Addr}

/-- The loop of `kpfree_range` prints nothing. -/
theorem kpfreeRange_events {registry start end_ : Addr}
    (h : kpfreeRange registry start end_ s = .ok s') :
    s'.events = .klog "DEBUG" "pages: first = %p, last = %p, count = %u\n"
      [mmPageup start, mmPageup end_, (mmPageup end_ - mmPageup start).sdiv x86Pagesz] ::
        s.events := by
  have hfree : ∀ p (s s' : Kernel), kpfree registry p s = .ok s' → s'.events = s.events := by
    intro p s s' h
    rw [kpfree, kassert] at h
    split at h
    · cases h
      rfl
    · cases h
  have hloop : ∀ (pages : List Addr) (s s' : Kernel),
      pages.foldlM (fun s p => kpfree registry p s) s = .ok s' → s'.events = s.events := by
    intro pages
    induction pages with
    | nil =>
        intro s s' h
        cases h
        rfl
    | cons p pages ih =>
        intro s s' h
        rw [List.foldlM_cons] at h
        cases hp : kpfree registry p s with
        | error e =>
            rw [hp] at h
            cases h
        | ok s₁ =>
            rw [hp] at h
            exact (ih s₁ s' h).trans (hfree p s s₁ hp)
  rw [kpfreeRange, forPages_eq_foldlM (fun _ _ => rfl) (pageAligned_pageup _)
    (pageAligned_pageup _)] at h
  exact hloop _ _ _ h

/-- Behind a proper table the calls of `kvm_create` store to that table alone. -/
theorem runCalls_frame (hd : PageAligned d) (hq : PageAligned q) (hqd : d ≠ q)
    (h : s.mem.loadWord (entryAddr d 512) = tableEntry q) :
    ∃ m, runCalls l.registry (l.calls d) s = .ok ⟨m, s.events⟩ ∧
      s.mem.Frame m fun x => mmPagedown x = q := by
  let I (s' : Kernel) : Prop :=
    s'.events = s.events ∧ s.mem.Frame s'.mem fun x => mmPagedown x = q
  have hstep : ∀ c ∈ l.calls d, ∀ s p paddr, I s → p ∈ c.pages → PageAligned paddr →
      ∃ s', vmMapPage_ l.registry c.directory p paddr c.permissions s = .ok (0, s') ∧ I s' := by
    intro c hc s' p paddr hI hp hpa
    obtain ⟨hevents, hframe⟩ := hI
    obtain ⟨hva, -, hi⟩ := page_bounds hc hp
    have hpde : s'.mem.loadWord (entryAddr d (x86PdIndex p)) = tableEntry q := by
      rw [hi, entry_unchanged hframe hd (by decide) fun x hx hxq => hqd (hx.symm.trans hxq), h]
    have hrun := @vmMapPage_present l.registry d p paddr c.permissions s' hva hpa
      (by rw [hpde, tableEntry_bit hq (by decide)]; rfl)
    rw [hpde, tableEntry_addr hq, mmVirtaddr_physaddr] at hrun
    rw [(call_bounds hc).1]
    exact ⟨_, hrun, hevents, hframe.trans (frame_store_entry s'.mem hq (x86PtIndex_lt p) _)⟩
  obtain ⟨s', hrun, hevents, hframe⟩ :=
    runCalls_invariant (call_aligned l d) hstep ⟨rfl, Memory.Frame.refl _ _⟩
  exact ⟨s'.mem, by rw [hrun, ← hevents], hframe⟩

/-- `kvm_create` with two free pages and a stale entry that is not present. -/
theorem kvmCreate_frame (h : FreeList l.registry s.mem (d :: q :: free))
    (hstale : (s.mem.loadWord (entryAddr d 512)).getLsbD 0 = false) :
    ∃ m, kvmCreate l s = .ok (d, ⟨m, .handedOut q ::
        .klog "DEBUG" "Allocating a new page directory\n" [] :: .handedOut d :: s.events⟩) ∧
      FreeList l.registry m free ∧
      s.mem.Frame m fun x => Within l.registry 8 x ∨ mmPagedown x ∈ d :: q :: free := by
  have hd := h.usable d (by simp)
  have hq := h.usable q (by simp)
  have hnodup := List.nodup_cons.mp h.nodup
  have hdq : d ≠ q := fun e => hnodup.1 (by simp [e])
  have hbytes : ∀ x, AllocatorBytes l.registry (d :: q :: free) x →
      Within l.registry 8 x ∨ mmPagedown x ∈ d :: q :: free := by
    rintro x (hx | ⟨p, hp, hx⟩)
    · exact .inl hx
    · exact .inr (by rwa [header_pagedown (h.usable p hp).aligned hx])
  obtain ⟨m₁, halloc, hfree, hframe, -⟩ := kpalloc_cons h
  let s₁ : Kernel := ⟨m₁, .handedOut d :: s.events⟩
  have hword : (m₁.loadWord (entryAddr d 512)).getLsbD 0 = false := by
    rw [entry_stale h.registry_aligned h.usable hframe (by simp) (by decide) (by decide), hstale]
  obtain ⟨m₂, halloc', hfree', hframe', -⟩ :=
    @kpalloc_cons l.registry q (klog "DEBUG" "Allocating a new page directory\n" [] s₁) free hfree
  let m₃ := (memset m₂ q 0 4096).2.storeWord (entryAddr d 512) (tableEntry q)
  have hensure := ensureTable_absent (s := s₁) (i := 512) hword halloc' hq.nonnull
  have hpde : m₃.loadWord (entryAddr d 512) = tableEntry q := Memory.loadWord_storeWord _ _ _
  obtain ⟨m₄, hcalls, hmapped⟩ := @runCalls_frame l ⟨m₃, .handedOut q ::
    .klog "DEBUG" "Allocating a new page directory\n" [] :: s₁.events⟩ d q hd.aligned hq.aligned
    hdq hpde
  have hset : m₂.Frame m₄ fun x => mmPagedown x = d ∨ mmPagedown x = q := by
    refine ((frame_memset m₂ hq.aligned 0).mono fun x hx => .inr hx).trans ?_
    refine ((frame_store_entry _ hd.aligned (i := 512) (by decide)
      (tableEntry q)).mono fun x hx => .inl hx).trans ?_
    exact hmapped.mono fun x hx => .inr hx
  have hnull : (d != 0) = true := bne_iff_ne.mpr hd.nonnull
  refine ⟨m₄, ?_, ?_, ?_⟩
  · obtain ⟨c, cs, rest, hlist, rfl, hpages⟩ := first_pages l d
    have hvaddr := (call_aligned l c.directory c (by simp [hlist])).1
    have hbit : (m₃.loadWord (entryAddr c.directory (x86PdIndex x86KernelBase))).getLsbD 0 =
        true := by
      rw [show x86PdIndex x86KernelBase = 512 by decide, hpde,
        tableEntry_bit hq.aligned (by decide)]
      rfl
    have hrun : runCalls l.registry (l.calls c.directory) s₁ = .ok ⟨m₄, .handedOut q ::
        .klog "DEBUG" "Allocating a new page directory\n" [] :: s₁.events⟩ := by
      rw [← hcalls, hlist]
      exact runCalls_ensured hvaddr hpages hensure hbit
    rw [kvmCreate_eq, halloc]
    simp only [bind, Except.bind, kassert, hnull, if_true]
    rw [hrun]
    rfl
  · refine hfree'.unchanged hset fun x hx => ?_
    obtain hx | hx := hx
    · rw [hx]
      exact ⟨hd.outside, fun hmem => hnodup.1 (List.mem_cons_of_mem _ hmem)⟩
    · rw [hx]
      exact ⟨hq.outside, (List.nodup_cons.mp hnodup.2).1⟩
  · refine (hframe.mono hbytes).trans ?_
    refine (hframe'.mono fun x hx => hbytes x ?_).trans (hset.mono fun x hx => .inr ?_)
    · exact hx.mono fun p hp => List.mem_cons_of_mem _ hp
    · obtain hx | hx := hx <;> simp [hx]

/-- `kvm_init` from a boot memory with room for the directory and its table. -/
theorem kvmInit_frame (hs : l.Statics) (hempty : EmptyRegistry l.registry s.mem)
    (hpool : l.pool = d :: q :: free)
    (hstale : (s.mem.loadWord (entryAddr d 512)).getLsbD 0 = false) :
    ∃ m, kvmInit l s = .ok (d, ⟨m, kvmEvents l d q ++ s.events⟩) ∧
      FreeList l.registry m free ∧
      (s.mem.storeWord (entryAddr l.x86PageDirectory 0) 0).Frame m (ManagerBytes l) := by
  have hframe := frame_store_entry s.mem hs.directory_aligned (i := 0) (by decide) 0
  generalize hm : s.mem.storeWord (entryAddr l.x86PageDirectory 0) 0 = m at *
  have hbelow : ∀ p ∈ l.pool, p ≠ l.x86PageDirectory := by
    intro p hp heq
    have hinside := hs.directory_inside.2
    have hle := (mem_pool hp).2.1
    rw [heq] at hle
    omega
  have hfirst : FreeList l.registry m [] := by
    apply hempty.freeList.unchanged hframe
    intro x hx
    rw [hx]
    exact ⟨hs.apart, List.not_mem_nil⟩
  obtain ⟨s₁, hrun, hfree, hframe₁, -⟩ := @kpfreeRange_ok l.registry ⟨m, s.events⟩ [] l.end_
    (mmVirtaddr fourMb) hfirst fun p hp => ⟨pool_usable hs p hp, List.not_mem_nil⟩
  have hevents := kpfreeRange_events hrun
  have hd : d ∈ l.pool := by simp [hpool]
  have hword : (s₁.mem.loadWord (entryAddr d 512)).getLsbD 0 = false := by
    rw [entry_stale hs.registry_aligned (pool_usable hs) hframe₁ hd (by decide) (by decide),
      entry_unchanged hframe (mem_pool hd).1 (by decide) fun x hx hdir =>
        hbelow d hd (hx.symm.trans hdir), hstale]
  have hlist : FreeList l.registry s₁.mem (d :: q :: free) := hpool ▸ hfree
  obtain ⟨m', hcreate, hfree', hframe₂⟩ := kvmCreate_frame hlist hword
  refine ⟨m', ?_, hfree', ?_⟩
  · rw [hevents] at hcreate
    simp only [kvmInit, hm, hrun]
    exact hcreate
  · refine Memory.Frame.trans (hframe₁.mono fun x hx => ?_) (hframe₂.mono fun x hx => ?_)
    · obtain hx | ⟨p, hp, hx⟩ := hx
      · exact .inl hx
      · refine .inr ?_
        rwa [header_pagedown (mem_pool hp).1 hx]
    · rw [ManagerBytes, hpool]
      exact hx

/-- The assertions that say a page was there to take. Before each of them `kpalloc`
has run `list_del` on the node of the null page, where there was none. -/
def nullAssertions : List Halt :=
  [.kassert "kvm.c" 31 "pagedir != NULL", .kassert "kvm.c" 226 "page_table != NULL"]

/-- With less than two pages in the pool a call of `kpalloc` finds none. -/
theorem kvmInit_short (hs : l.Statics) (hboot : Boot l s) (hshort : l.pool.length < 2)
    (hstale : (s.mem.loadWord (entryAddr (mmPageup l.end_) 512)).getLsbD 0 = false) :
    ∃ halt ∈ nullAssertions, kvmInit l s = .error halt := by
  obtain ⟨s₁, hrun, hfree, -, hword⟩ := kvmInit_pool hs hboot
  cases hpool : l.pool with
  | nil =>
      rw [hpool] at hfree
      exact ⟨_, List.mem_cons_self, hrun.trans (kvmCreate_nil hfree)⟩
  | cons d rest =>
      obtain rfl : rest = [] := by
        rw [hpool, List.length_cons] at hshort
        exact List.length_eq_zero_iff.mp (by omega)
      rw [← pool_first hpool, ← hword d (by simp [hpool])] at hstale
      rw [hpool] at hfree
      exact ⟨_, List.mem_cons_of_mem _ List.mem_cons_self,
        hrun.trans (kvmCreate_exhausted hfree hstale)⟩

end Init
end Yack.BootMemory
