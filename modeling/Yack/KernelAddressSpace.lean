import Yack.AddressSpaces

/-!
# The kernel's own address space: `kvm_create` and `kvm_init`

The page that becomes the kernel directory comes from the free list and is not
zeroed: its first word is still the magic number of the allocator, and the rest
of it is whatever the page held before. All three mapped ranges lie behind
directory entry 512, so two things can happen. Either the stale entry 512 is not
present, a table is allocated and the ranges are mapped through it; or it is
present, and every write goes to wherever it points.

The pool that `kvm_init` fills before starts where the mapped ranges end.
-/
namespace Yack.KernelAddressSpace
open ByteMemory MemoryLayout KernelState PageAllocator PageTables AddressSpaces Memop

/-- What the linker decides: `data` and `end` of `linker.ld`, and the addresses
of the two static objects the memory manager uses. -/
structure Layout where
  data : Addr
  end_ : Addr
  registry : Addr
  x86PageDirectory : Addr
  data_aligned : PageAligned data
  link_data : x86KernelLink < data
  data_end : data ≤ end_
  end_limit : end_ ≤ mmVirtaddr fourMb

/-- The static objects are in the kernel's data and do not overlap. -/
structure Layout.Statics (l : Layout) : Prop where
  registry_aligned : Aligned4 l.registry
  registry_inside : l.data ≤ l.registry ∧ l.registry.toNat + 8 ≤ l.end_.toNat
  directory_aligned : PageAligned l.x86PageDirectory
  directory_inside : l.data ≤ l.x86PageDirectory ∧
    l.x86PageDirectory.toNat + 4096 ≤ l.end_.toNat
  apart : ¬ HoldsRegistry l.registry l.x86PageDirectory

def kvmCreate (l : Layout) (s : Kernel) : Outcome (Addr × Kernel) := do
  let (pagedir, s) ← kpalloc l.registry s
  kassert (pagedir != 0) "kvm.c" 31 "pagedir != NULL"
  let (_, s) ← vmMapPages l.registry pagedir x86KernelBase 0 x86ExtendedMemory x86PteRdwr s
  let (_, s) ← vmMapPages l.registry pagedir x86KernelLink x86ExtendedMemory
    (mmPhysaddr l.data - x86ExtendedMemory) x86PteRdonly s
  let (_, s) ← vmMapPages l.registry pagedir l.data (mmPhysaddr l.data) (l.end_ - l.data)
    x86PteRdwr s
  return (pagedir, s)

/-- `kvm_init`, with `kpagedir_` returned. -/
def kvmInit (l : Layout) (s : Kernel) : Outcome (Addr × Kernel) := do
  let s := { s with mem := s.mem.storeWord (entryAddr l.x86PageDirectory 0) 0 }
  let s ← kpfreeRange l.registry l.end_ (mmVirtaddr fourMb) s
  kvmCreate l s

section Invariant
variable {registry : Addr} {s : Kernel} {c : MapCall} {calls : List MapCall} {I : Kernel → Prop}

/-- What every page of a call preserves, the call preserves. -/
theorem vmMapPages_invariant (hvaddr : PageAligned c.vaddr) (hpaddr : PageAligned c.paddr)
    (hstep : ∀ s p paddr, I s → p ∈ c.pages → PageAligned paddr →
      ∃ s', vmMapPage_ registry c.directory p paddr c.permissions s = .ok (0, s') ∧ I s')
    (h : I s) : ∃ n s', vmMapPages registry c.directory c.vaddr c.paddr c.size c.permissions s =
      .ok (n, s') ∧ I s' := by
  let Inv (_ : List Addr) (state : Addr × ℤ × Kernel) : Prop :=
    PageAligned state.1 ∧ I state.2.2
  have hinit : Inv [] (c.paddr, 0, s) := ⟨hpaddr, h⟩
  have hloop : ∀ done p rest state, done ++ p :: rest = c.pages → Inv done state →
      ∃ state', mapStep registry c.directory c.permissions state p = .ok state' ∧
        Inv (done ++ [p]) state' := by
    intro done p rest state hsplit hinv
    obtain ⟨paddr, total, s⟩ := state
    obtain ⟨hpa, hI⟩ := hinv
    obtain ⟨s', hrun, hI'⟩ := hstep s p paddr hI (by simp [← hsplit]) hpa
    have hnext : PageAligned (paddr + x86Pagesz) := by
      unfold PageAligned x86Pagesz at *
      bv_omega
    exact ⟨(_, _, s'), by simp only [mapStep, hrun]; rfl, hnext, hI'⟩
  obtain ⟨state, hrun, -, hI⟩ := foldlM_invariant c.pages hloop hinit
  exact ⟨state.2.1, state.2.2, by rw [vmMapPages_eq hvaddr, hrun]; rfl, hI⟩

theorem runCalls_invariant
    (haligned : ∀ c ∈ calls, PageAligned c.vaddr ∧ PageAligned c.paddr)
    (hstep : ∀ c ∈ calls, ∀ s p paddr, I s → p ∈ c.pages → PageAligned paddr →
      ∃ s', vmMapPage_ registry c.directory p paddr c.permissions s = .ok (0, s') ∧ I s')
    (h : I s) : ∃ s', runCalls registry calls s = .ok s' ∧ I s' := by
  induction calls generalizing s with
  | nil => exact ⟨s, rfl, h⟩
  | cons c cs ih =>
      obtain ⟨hvaddr, hpaddr⟩ := haligned c (by simp)
      obtain ⟨n, s₁, hrun, h₁⟩ := vmMapPages_invariant hvaddr hpaddr (hstep c (by simp)) h
      obtain ⟨s', hrun', h'⟩ := ih (fun c hc => haligned c (by simp [hc]))
        (fun c hc => hstep c (by simp [hc])) h₁
      exact ⟨s', by rw [runCalls, hrun]; exact hrun', h'⟩

/-- A sequence of calls runs as if the table of its first page had been there. -/
theorem runCalls_ensured {p : Addr} {rest : List Addr} {s' : Kernel}
    (hvaddr : PageAligned c.vaddr) (hpages : c.pages = p :: rest)
    (h : ensureTable registry (entryAddr c.directory (x86PdIndex p)) s = .ok s')
    (h' : (s'.mem.loadWord (entryAddr c.directory (x86PdIndex p))).getLsbD 0 = true) :
    runCalls registry (c :: calls) s = runCalls registry (c :: calls) s' := by
  simp only [runCalls, vmMapPages_eq hvaddr, hpages, List.foldlM_cons, mapStep,
    vmMapPage_ensured h h']

/-- Likewise they halt when there is no page for that table. -/
theorem runCalls_exhausted {p : Addr} {rest : List Addr} (hvaddr : PageAligned c.vaddr)
    (hpaddr : PageAligned c.paddr) (hpages : c.pages = p :: rest) (hp : PageAligned p)
    (h : (s.mem.loadWord (entryAddr c.directory (x86PdIndex p))).getLsbD 0 = false)
    (hfree : FreeList registry s.mem []) :
    runCalls registry (c :: calls) s = .error (.kassert "kvm.c" 226 "page_table != NULL") := by
  simp only [runCalls, vmMapPages_eq hvaddr, hpages, List.foldlM_cons, mapStep,
    vmMapPage_exhausted hp hpaddr h hfree]
  rfl

end Invariant

/-- The calls of `kvm_create` on the directory it allocates. -/
def Layout.calls (l : Layout) (pagedir : Addr) : List MapCall :=
  [⟨pagedir, x86KernelBase, 0, x86ExtendedMemory, x86PteRdwr⟩,
    ⟨pagedir, x86KernelLink, x86ExtendedMemory, mmPhysaddr l.data - x86ExtendedMemory,
      x86PteRdonly⟩,
    ⟨pagedir, l.data, mmPhysaddr l.data, l.end_ - l.data, x86PteRdwr⟩]

theorem kvmCreate_eq (l : Layout) (s : Kernel) : kvmCreate l s = do
    let (pagedir, s) ← kpalloc l.registry s
    kassert (pagedir != 0) "kvm.c" 31 "pagedir != NULL"
    let s ← runCalls l.registry (l.calls pagedir) s
    return (pagedir, s) := by
  simp only [kvmCreate, runCalls, Layout.calls, bind_assoc]
  rfl

section Ranges
variable {l : Layout} {d p : Addr} {c : MapCall}

theorem Layout.data_le_end (l : Layout) :
    0x80100000 < l.data.toNat ∧ l.data.toNat ≤ l.end_.toNat ∧ l.end_.toNat ≤ 0x80400000 :=
  ⟨l.link_data, l.data_end, l.end_limit⟩

theorem Layout.pageup_end (l : Layout) :
    (mmPageup l.end_).toNat = (l.end_.toNat + 4095) / 4096 * 4096 := by
  have := l.data_le_end
  rw [mmPageup_toNat]
  omega

theorem call_bounds (hc : c ∈ l.calls d) :
    c.directory = d ∧ PageAligned c.vaddr ∧ PageAligned c.paddr ∧ x86KernelBase ≤ c.vaddr ∧
      (c.vaddr + c.size).toNat ≤ l.end_.toNat := by
  have hdata := l.data_le_end
  have haligned := l.data_aligned
  simp only [Layout.calls, List.mem_cons, List.not_mem_nil, or_false] at hc
  obtain rfl | rfl | rfl := hc
  · have hbase : PageAligned x86KernelBase := by decide
    have hzero : PageAligned 0 := by decide
    have hsum : (x86KernelBase + x86ExtendedMemory).toNat = 0x80100000 := by decide
    refine ⟨rfl, hbase, hzero, BitVec.le_refl _, ?_⟩
    rw [hsum]
    omega
  · have hlink : PageAligned x86KernelLink := by decide
    have hextended : PageAligned x86ExtendedMemory := by decide
    have hle : x86KernelBase ≤ x86KernelLink := by decide
    refine ⟨rfl, hlink, hextended, hle, ?_⟩
    rw [show x86KernelLink + (mmPhysaddr l.data - x86ExtendedMemory) = l.data by
      simp only [x86KernelLink, x86KernelBase, x86ExtendedMemory, mmPhysaddr]
      bv_omega]
    exact hdata.2.1
  · refine ⟨rfl, haligned, pageAligned_physaddr.mpr haligned, ?_, ?_⟩
    · exact Nat.le_trans (by decide) (Nat.le_of_lt hdata.1)
    · rw [show l.data + (l.end_ - l.data) = l.end_ by bv_omega]

/-- Every page that is mapped lies below the pool and behind entry 512. -/
theorem page_bounds (hc : c ∈ l.calls d) (hp : p ∈ c.pages) :
    PageAligned p ∧ p < mmPageup l.end_ ∧ x86PdIndex p = 512 := by
  obtain ⟨-, hvaddr, -, hbase, hlimit⟩ := call_bounds hc
  rw [MapCall.pages, hvaddr.pagedown, mem_pagesBetween hvaddr] at hp
  obtain ⟨haligned, hle, hlt⟩ := hp
  have hend := l.data_le_end
  have hup := l.pageup_end
  have hlast := mmPageup_toNat (c.vaddr + c.size)
  have hfirst : 0x80000000 ≤ c.vaddr.toNat := hbase
  rw [BitVec.le_def] at hle
  rw [BitVec.lt_def] at hlt
  refine ⟨haligned, ?_, ?_⟩
  · rw [BitVec.lt_def]
    omega
  · apply BitVec.eq_of_toNat_eq
    rw [x86PdIndex_toNat]
    change p.toNat / 2 ^ 22 = 512
    omega

/-- The first call is not empty: it starts with the page at `KERNEL_BASE`. -/
theorem first_pages (l : Layout) (d : Addr) : ∃ c cs rest, l.calls d = c :: cs ∧
    c.directory = d ∧ c.pages = x86KernelBase :: rest := by
  refine ⟨_, _, pagesBetween (x86KernelBase + x86Pagesz) 0x80100000, rfl, rfl, ?_⟩
  have hfirst : PageAligned x86KernelBase := by decide
  have hlast : PageAligned 0x80100000 := by decide
  have hsum : mmPageup (x86KernelBase + x86ExtendedMemory) = 0x80100000 := by decide
  rw [MapCall.pages, hfirst.pagedown, hsum]
  exact pagesBetween_of_lt hfirst hlast (by decide)

/-- The words of the table `q` that mapping the three ranges stores. -/
def Layout.TableWord (l : Layout) (q a : Addr) : Prop :=
  ∃ p, PageAligned p ∧ p < mmPageup l.end_ ∧ x86PdIndex p = 512 ∧ a = entryAddr q (x86PtIndex p)

end Ranges

section Behind
variable {l : Layout} {s : Kernel} {d q : Addr} {free : List Addr}

theorem pageAligned_table (e : BitVec 32) : PageAligned (mmVirtaddr (x86PteAddr e)) := by
  rw [← pageAligned_physaddr, mmPhysaddr_virtaddr]
  exact pageAligned_pagedown e

theorem call_aligned (l : Layout) (d : Addr) :
    ∀ c ∈ l.calls d, PageAligned c.vaddr ∧ PageAligned c.paddr := by
  intro c hc
  obtain ⟨-, hvaddr, hpaddr, -⟩ := call_bounds hc
  exact ⟨hvaddr, hpaddr⟩

/-- Behind whatever the entry holds nothing is allocated, and as only present
entries are ever stored it stays present. -/
theorem runCalls_stale (hd : PageAligned d)
    (h : (s.mem.loadWord (entryAddr d 512)).getLsbD 0 = true) :
    ∃ s', runCalls l.registry (l.calls d) s = .ok s' ∧ s'.granted = s.granted ∧
      (s'.mem.loadWord (entryAddr d 512)).getLsbD 0 = true := by
  let I (s' : Kernel) : Prop :=
    s'.granted = s.granted ∧ (s'.mem.loadWord (entryAddr d 512)).getLsbD 0 = true
  have hstep : ∀ c ∈ l.calls d, ∀ s p paddr, I s → p ∈ c.pages → PageAligned paddr →
      ∃ s', vmMapPage_ l.registry c.directory p paddr c.permissions s = .ok (0, s') ∧ I s' := by
    intro c hc s p paddr hI hp hpa
    obtain ⟨hgranted, hpresent⟩ := hI
    obtain ⟨hva, -, hi⟩ := page_bounds hc hp
    rw [(call_bounds hc).1]
    refine ⟨_, vmMapPage_present hva hpa (hi ▸ hpresent), hgranted, ?_⟩
    have hentry := entryAddr_aligned (pageAligned_table
      (s.mem.loadWord (entryAddr d (x86PdIndex p)))) (x86PtIndex_lt p)
    have hword : Aligned4 (entryAddr d 512) := entryAddr_aligned hd (by decide)
    rw [Memory.loadWord_storeWord_aligned _ _ hentry hword]
    split
    · exact pageEntry_present _ _
    · exact hpresent
  exact runCalls_invariant (call_aligned l d) hstep ⟨rfl, h⟩

/-- Behind a proper table only its entries for the mapped pages change. -/
theorem runCalls_table (hd : PageAligned d) (hq : PageAligned q) (hqd : d ≠ q)
    (h : s.mem.loadWord (entryAddr d 512) = tableEntry q) :
    ∃ s', runCalls l.registry (l.calls d) s = .ok s' ∧ s'.granted = s.granted ∧
      ∀ a, Aligned4 a → ¬ l.TableWord q a → s'.mem.loadWord a = s.mem.loadWord a := by
  let I (s' : Kernel) : Prop := s'.granted = s.granted ∧
    ∀ a, Aligned4 a → ¬ l.TableWord q a → s'.mem.loadWord a = s.mem.loadWord a
  have hdir : ¬ l.TableWord q (entryAddr d 512) := by
    intro hword
    obtain ⟨p, -, -, -, hp⟩ := hword
    exact hqd ((entryAddr_inj hd hq (by decide) (x86PtIndex_lt p)).mp hp).1
  have hstep : ∀ c ∈ l.calls d, ∀ s p paddr, I s → p ∈ c.pages → PageAligned paddr →
      ∃ s', vmMapPage_ l.registry c.directory p paddr c.permissions s = .ok (0, s') ∧ I s' := by
    intro c hc s' p paddr hI hp hpa
    obtain ⟨hgranted, hkeep⟩ := hI
    obtain ⟨hva, hlt, hi⟩ := page_bounds hc hp
    have hpde : s'.mem.loadWord (entryAddr d (x86PdIndex p)) = tableEntry q := by
      rw [hi, hkeep _ (entryAddr_aligned hd (by decide)) hdir, h]
    have hrun := @vmMapPage_present l.registry d p paddr c.permissions s' hva hpa
      (by rw [hpde, tableEntry_bit hq (by decide)]; rfl)
    rw [hpde, tableEntry_addr hq, mmVirtaddr_physaddr] at hrun
    rw [(call_bounds hc).1]
    refine ⟨_, hrun, hgranted, ?_⟩
    intro a ha hout
    have hne : a ≠ entryAddr q (x86PtIndex p) := fun e => hout ⟨p, hva, hlt, hi, e⟩
    rw [Memory.loadWord_storeWord_aligned _ _ (entryAddr_aligned hq (x86PtIndex_lt p)) ha,
      if_neg hne, hkeep a ha hout]
  exact runCalls_invariant (call_aligned l d) hstep ⟨rfl, fun a _ _ => rfl⟩

/-- Allocation keeps what a page holds behind its header. -/
theorem entry_stale {registry i : Addr} {m m' : Memory Addr} (hr : Aligned4 registry)
    (husable : ∀ p ∈ free, Usable registry p) (hf : m.Frame m' (AllocatorBytes registry free))
    (hd : d ∈ free) (hi : 3 ≤ i.toNat) (hi' : i.toNat < 1024) :
    m'.loadWord (entryAddr d i) = m.loadWord (entryAddr d i) := by
  have hu := husable d hd
  apply hf.loadWord
  intro x hx hbyte
  have hpage : mmPagedown x = d := by
    rw [Aligned4.pagedown_within (entryAddr_aligned hu.aligned hi') hx,
      entryAddr_pagedown hu.aligned hi']
  obtain hreg | ⟨p, hp, hheader⟩ := hbyte
  · exact hu.outside (hpage ▸ registry_pagedown hr hreg)
  · have hpd : p = d := by rw [← header_pagedown (husable p hp).aligned hheader, hpage]
    have haligned := hu.aligned
    have hentry := entryAddr_toNat hu.aligned hi'
    subst p
    unfold Within PageAligned at *
    bv_omega

theorem kvmCreate_nil (h : FreeList l.registry s.mem []) :
    kvmCreate l s = .error (.kassert "kvm.c" 31 "pagedir != NULL") := by
  rw [kvmCreate_eq, kpalloc_nil h]
  rfl

/-- After the directory is allocated, only the mappings remain. -/
theorem kvmCreate_cons (h : FreeList l.registry s.mem (d :: free)) :
    ∃ s₁, kvmCreate l s = (runCalls l.registry (l.calls d) s₁).map (fun s' => (d, s')) ∧
      FreeList l.registry s₁.mem free ∧ s₁.granted = d :: s.granted ∧
      s₁.mem.loadWord (entryAddr d 0) = magicNumber ∧
      s₁.mem.loadWord (entryAddr d 512) = s.mem.loadWord (entryAddr d 512) := by
  obtain ⟨m, halloc, hfree, hframe, hmagic, -⟩ := kpalloc_cons h
  have hnull : (d != 0) = true := bne_iff_ne.mpr (h.usable d (by simp)).nonnull
  refine ⟨⟨m, .handedOut d :: s.events⟩, ?_, hfree, rfl, ?_,
    entry_stale h.registry_aligned h.usable hframe (by simp) (by decide) (by decide)⟩
  · rw [kvmCreate_eq, halloc]
    simp only [bind, Except.bind, kassert, hnull, if_true]
    cases runCalls l.registry (l.calls d) ⟨m, .handedOut d :: s.events⟩ with
    | error e => rfl
    | ok s' => rfl
  · rw [show entryAddr d 0 = d by unfold entryAddr; bv_omega]
    exact hmagic

/-- The stale entry is present: no table is allocated for it. -/
theorem kvmCreate_stale (h : FreeList l.registry s.mem (d :: free))
    (hstale : (s.mem.loadWord (entryAddr d 512)).getLsbD 0 = true) :
    ∃ s', kvmCreate l s = .ok (d, s') ∧ s'.granted = d :: s.granted ∧
      (s'.mem.loadWord (entryAddr d 512)).getLsbD 0 = true := by
  obtain ⟨s₁, hrun, -, hgranted, -, hword⟩ := kvmCreate_cons h
  obtain ⟨s', hcalls, hgranted', hpresent⟩ :=
    @runCalls_stale l s₁ d (h.usable d (by simp)).aligned (hword ▸ hstale)
  exact ⟨s', by rw [hrun, hcalls]; rfl, hgranted'.trans hgranted, hpresent⟩

/-- The stale entry is not present and there is no second page. -/
theorem kvmCreate_exhausted (h : FreeList l.registry s.mem [d])
    (hstale : (s.mem.loadWord (entryAddr d 512)).getLsbD 0 = false) :
    kvmCreate l s = .error (.kassert "kvm.c" 226 "page_table != NULL") := by
  obtain ⟨s₁, hrun, hfree, -, -, hword⟩ := kvmCreate_cons h
  obtain ⟨c, cs, rest, hcalls, rfl, hpages⟩ := first_pages l d
  obtain ⟨hvaddr, hpaddr⟩ := call_aligned l c.directory c (by simp [hcalls])
  have hbase : PageAligned x86KernelBase := by decide
  rw [hrun, hcalls, runCalls_exhausted hvaddr hpaddr hpages hbase (hword ▸ hstale) hfree]
  rfl

/-- The stale entry is not present: the second page becomes the table, and the
directory keeps the magic number in its first entry. -/
theorem kvmCreate_fresh (h : FreeList l.registry s.mem (d :: q :: free))
    (hstale : (s.mem.loadWord (entryAddr d 512)).getLsbD 0 = false) :
    ∃ s', kvmCreate l s = .ok (d, s') ∧ s'.granted = q :: d :: s.granted ∧
      s'.mem.loadWord (entryAddr d 0) = magicNumber ∧
      s'.mem.loadWord (entryAddr d 512) = tableEntry q ∧
      ∀ j : Addr, j.toNat < 1024 → ¬ l.TableWord q (entryAddr q j) →
        s'.mem.loadWord (entryAddr q j) = 0 := by
  have hd := h.usable d (by simp)
  have hq := h.usable q (by simp)
  have hnodup := List.nodup_cons.mp h.nodup
  have hdq : d ≠ q := fun e => hnodup.1 (by simp [e])
  obtain ⟨s₁, hrun, hfree, hgranted, hmagic, hword⟩ := kvmCreate_cons h
  obtain ⟨m, halloc, hfree', hframe, -⟩ :=
    @kpalloc_cons l.registry q (klog "DEBUG" "Allocating a new page directory\n" [] s₁) free hfree
  have hensure := ensureTable_absent (hword ▸ hstale) halloc hq.nonnull
  -- entries of the directory survive the allocation and the zeroing
  have hkeep : ∀ i : Addr, i.toNat < 1024 →
      (memset m q 0 4096).2.loadWord (entryAddr d i) = s₁.mem.loadWord (entryAddr d i) := by
    intro i hi
    rw [entry_unchanged (frame_memset m hq.aligned 0) hd.aligned hi fun x hx hxq =>
      hdq (hx.symm.trans hxq)]
    apply entry_unchanged hframe hd.aligned hi
    intro x hx hbyte
    obtain hreg | hmem := hbyte.pagedown hfree.registry_aligned hfree.usable
    · exact hd.outside (hx ▸ hreg)
    · exact hnodup.1 (hx ▸ hmem)
  generalize hs₂ : (Kernel.mk _ _ : Kernel) = s₂ at hensure
  have hpde : s₂.mem.loadWord (entryAddr d 512) = tableEntry q := by
    rw [← hs₂]
    exact Memory.loadWord_storeWord _ _ _
  have hmagic₂ : s₂.mem.loadWord (entryAddr d 0) = magicNumber := by
    rw [← hs₂, loadWord_store_entry _ hd.aligned (by decide) (by decide), if_neg (by decide),
      hkeep 0 (by decide), hmagic]
  have hzero : ∀ j : Addr, j.toNat < 1024 → s₂.mem.loadWord (entryAddr q j) = 0 := by
    intro j hj
    rw [← hs₂, entry_unchanged (frame_store_entry _ hd.aligned (by decide) _) hq.aligned hj
      fun x hx hxd => hdq (hxd.symm.trans hx), loadWord_memset hq.aligned hj]
  have hgranted₂ : s₂.granted = q :: d :: s.granted := by
    rw [← hs₂, ← hgranted]
    rfl
  obtain ⟨c, cs, rest, hcalls, rfl, hpages⟩ := first_pages l d
  have hvaddr := (call_aligned l c.directory c (by simp [hcalls])).1
  obtain ⟨s', hrun', hgranted', hsame⟩ := @runCalls_table l s₂ _ q hd.aligned hq.aligned hdq hpde
  have hoff : ∀ i : Addr, i.toNat < 1024 → ¬ l.TableWord q (entryAddr c.directory i) := by
    intro i hi hw
    obtain ⟨p, -, -, -, hp⟩ := hw
    exact hdq ((entryAddr_inj hd.aligned hq.aligned hi (x86PtIndex_lt p)).mp hp).1
  have hbit : (s₂.mem.loadWord (entryAddr c.directory (x86PdIndex x86KernelBase))).getLsbD 0 =
      true := by
    rw [show x86PdIndex x86KernelBase = 512 by decide, hpde, tableEntry_bit hq.aligned (by decide)]
    rfl
  refine ⟨s', ?_, hgranted'.trans hgranted₂, ?_, ?_, ?_⟩
  · rw [hrun, hcalls, runCalls_ensured hvaddr hpages hensure hbit, ← hcalls, hrun']
    rfl
  · rw [hsame _ (entryAddr_aligned hd.aligned (by decide)) (hoff 0 (by decide)), hmagic₂]
  · rw [hsame _ (entryAddr_aligned hd.aligned (by decide)) (hoff 512 (by decide)), hpde]
  · intro j hj hw
    rw [hsame _ (entryAddr_aligned hq.aligned hj) hw, hzero j hj]

end Behind

/-- The translation the three calls of `kvm_create` spell out. -/
def Layout.translation (l : Layout) (v : Addr) : Option Translation :=
  if x86KernelBase ≤ v ∧ v < x86KernelLink then some ⟨mmPhysaddr v, true, false⟩
  else if x86KernelLink ≤ v ∧ v < l.data then some ⟨mmPhysaddr v, false, false⟩
  else if l.data ≤ v ∧ v < mmPageup l.end_ then some ⟨mmPhysaddr v, true, false⟩
  else none

/-- `pagedir` maps exactly the kernel, through tables allocated after it. -/
structure MapsKernelOnly (l : Layout) (s s' : Kernel) (pagedir : Addr) : Prop where
  walk : ∀ v, pageWalk s'.mem (mmPhysaddr pagedir) v = l.translation v
  entries : ∃ tables, s'.granted = tables ++ pagedir :: s.granted ∧
    ∀ i : Addr, i.toNat < 1024 → (s'.mem.loadWord (entryAddr pagedir i)).getLsbD 0 = true →
      (s'.mem.loadWord (entryAddr pagedir i)).getLsbD 7 = false ∧
      mmVirtaddr (x86PteAddr (s'.mem.loadWord (entryAddr pagedir i))) ∈ tables

/-- As a directory entry the magic number is present and a 4 MB page. -/
theorem magicNumber_bits : magicNumber.getLsbD 0 = true ∧ magicNumber.getLsbD 7 = true := by
  decide

/-- An entry of `pagedir` that is left from the allocator is no pointer to a table. -/
theorem MapsKernelOnly.entry_zero {l : Layout} {s s' : Kernel} {d : Addr}
    (h : MapsKernelOnly l s s' d) : s'.mem.loadWord (entryAddr d 0) ≠ magicNumber := by
  intro hmagic
  obtain ⟨tables, -, hentries⟩ := h.entries
  have hps := (hentries 0 (by decide) (hmagic ▸ magicNumber_bits.1)).1
  rw [hmagic, magicNumber_bits.2] at hps
  cases hps

/-- The pages `kvm_init` frees. -/
def Layout.pool (l : Layout) : List Addr :=
  pagesBetween (mmPageup l.end_) (mmPageup (mmVirtaddr fourMb))

/-- The state in which `kmain` calls `kvm_init`. -/
structure Boot (l : Layout) (s : Kernel) : Prop where
  registry : EmptyRegistry l.registry s.mem
  granted : s.granted = []

/-- `x` is reached where the boot directory put it, and can be written. -/
def Reaches (m : Memory Addr) (pagedir x : Addr) : Prop :=
  ∃ t, pageWalk m (mmPhysaddr pagedir) x = some t ∧ t.phys = mmPhysaddr x ∧ t.writable = true

/-- Whatever the memory manager dereferences is mapped by `pagedir` itself. -/
structure KeepsManager (l : Layout) (s : Kernel) (pagedir : Addr) : Prop where
  directory : ∀ x, Within pagedir 4096 x → Reaches s.mem pagedir x
  tables : ∀ p ∈ s.granted, ∀ x, Within p 4096 x → Reaches s.mem pagedir x
  registry : ∀ x, Within l.registry 8 x → Reaches s.mem pagedir x
  free : ∀ pages, FreeList l.registry s.mem pages → ∀ p ∈ pages, ∀ x, Within p 4096 x →
    Reaches s.mem pagedir x

section Init
variable {l : Layout} {s : Kernel} {d q : Addr} {free : List Addr}

theorem mem_pool {p : Addr} (hp : p ∈ l.pool) :
    PageAligned p ∧ l.end_.toNat ≤ p.toNat ∧ p.toNat < 0x80400000 := by
  have hlast : (mmPageup (mmVirtaddr fourMb)).toNat = 0x80400000 := by decide
  rw [Layout.pool, mem_pagesBetween (pageAligned_pageup _)] at hp
  obtain ⟨haligned, hle, hlt⟩ := hp
  have hup := l.pageup_end
  rw [BitVec.le_def] at hle
  rw [BitVec.lt_def] at hlt
  exact ⟨haligned, by omega, by omega⟩

theorem pool_usable (hs : l.Statics) : ∀ p ∈ l.pool, Usable l.registry p := by
  intro p hp
  obtain ⟨haligned, hle, -⟩ := mem_pool hp
  have hdata := l.data_le_end
  have hinside := hs.registry_inside.2
  have hdown := mmPagedown_toNat l.registry
  have hdown' := mmPagedown_toNat (l.registry + 4)
  refine ⟨haligned, ?_, ?_⟩
  · intro hzero
    rw [hzero] at hle
    change l.end_.toNat ≤ 0 at hle
    omega
  · intro hholds
    have hend := l.end_.isLt
    obtain hpage | hpage := hholds
    · rw [hpage] at hdown
      omega
    · rw [hpage, BitVec.toNat_add] at hdown'
      change _ = (l.registry.toNat + 4) % 2 ^ 32 / 4096 * 4096 at hdown'
      omega

/-- Up to `kvm_create`: the pool is the free list, and its pages still hold
what the memory held at boot behind their headers. -/
theorem kvmInit_pool (hs : l.Statics) (hboot : Boot l s) :
    ∃ s₁, kvmInit l s = kvmCreate l s₁ ∧ FreeList l.registry s₁.mem l.pool ∧
      s₁.granted = s.granted ∧
      ∀ p ∈ l.pool, s₁.mem.loadWord (entryAddr p 512) = s.mem.loadWord (entryAddr p 512) := by
  have hframe := frame_store_entry s.mem hs.directory_aligned (i := 0) (by decide) 0
  have hempty : FreeList l.registry (s.mem.storeWord (entryAddr l.x86PageDirectory 0) 0) [] := by
    apply hboot.registry.freeList.unchanged hframe
    intro x hx
    rw [hx]
    exact ⟨hs.apart, List.not_mem_nil⟩
  obtain ⟨s₁, hrun, hfree, hframe₁, hgranted⟩ := @kpfreeRange_ok l.registry
    ⟨s.mem.storeWord (entryAddr l.x86PageDirectory 0) 0, s.events⟩ [] l.end_ (mmVirtaddr fourMb)
    hempty fun p hp => ⟨pool_usable hs p hp, List.not_mem_nil⟩
  refine ⟨s₁, by simp only [kvmInit, hrun]; rfl, hfree, hgranted, ?_⟩
  intro p hp
  obtain ⟨haligned, hle, -⟩ := mem_pool hp
  have hinside := hs.directory_inside.2
  rw [entry_stale hs.registry_aligned (pool_usable hs) hframe₁ hp (by decide) (by decide)]
  apply entry_unchanged hframe haligned (by decide)
  intro x hx hdir
  rw [← hdir, hx] at hinside
  omega

theorem pool_first (h : l.pool = d :: free) : d = mmPageup l.end_ := by
  have hlast := pageAligned_pageup (mmVirtaddr fourMb)
  by_cases hlt : mmPageup l.end_ < mmPageup (mmVirtaddr fourMb)
  · rw [Layout.pool, pagesBetween_of_lt (pageAligned_pageup _) hlast hlt] at h
    exact (List.cons.inj h).1.symm
  · rw [Layout.pool, pagesBetween_of_le (BitVec.not_lt.mp hlt)] at h
    cases h

/-- The directory's own page is the first one above the mapped ranges. -/
theorem kvmInit_fresh (hs : l.Statics) (hboot : Boot l s) (hpool : l.pool = d :: q :: free)
    (hstale : (s.mem.loadWord (entryAddr d 512)).getLsbD 0 = false) :
    ∃ s', kvmInit l s = .ok (d, s') ∧ pageWalk s'.mem (mmPhysaddr d) d = none := by
  obtain ⟨s₁, hrun, hfree, -, hword⟩ := kvmInit_pool hs hboot
  have hmem : d ∈ l.pool := by simp [hpool]
  obtain ⟨hda, hle, hlt⟩ := mem_pool hmem
  have hdata := l.data_le_end
  have hqa := (pool_usable hs q (by simp [hpool])).aligned
  rw [← hword d hmem] at hstale
  rw [hpool] at hfree
  obtain ⟨s', hcreate, -, -, hpde, hzero⟩ := kvmCreate_fresh hfree hstale
  refine ⟨s', hrun.trans hcreate, ?_⟩
  have hindex : x86PdIndex d = 512 := by
    apply BitVec.eq_of_toNat_eq
    rw [x86PdIndex_toNat]
    change d.toNat / 2 ^ 22 = 512
    omega
  have hout : ¬ l.TableWord q (entryAddr q (x86PtIndex d)) := by
    intro hw
    obtain ⟨p, hp, hlt', hi, hentry⟩ := hw
    have hpt := ((entryAddr_inj hqa hqa (x86PtIndex_lt d) (x86PtIndex_lt p)).mp hentry).2
    have hpage : d = p := by
      rw [← hda.pagedown, ← hp.pagedown]
      exact pagedown_eq_iff.mpr ⟨hindex.trans hi.symm, hpt⟩
    rw [← hpage, pool_first hpool] at hlt'
    exact BitVec.lt_irrefl _ hlt'
  rw [pageWalk_eq _ hda, hindex, hpde]
  simp only [tableEntry_addr hqa, mmVirtaddr_physaddr, hzero _ (x86PtIndex_lt d) hout,
    tableEntry_bit hqa (show 7 < 12 by decide)]
  simp

/-- Whenever `kvm_init` comes back from a memory whose stale entry is not
present, the directory does not map itself. -/
theorem kvmInit_unmapped (hs : l.Statics) (hboot : Boot l s)
    (hstale : (s.mem.loadWord (entryAddr (mmPageup l.end_) 512)).getLsbD 0 = false) {s' : Kernel}
    (hrun : kvmInit l s = .ok (d, s')) : pageWalk s'.mem (mmPhysaddr d) d = none := by
  obtain ⟨s₁, hcreate, hfree, -, hword⟩ := kvmInit_pool hs hboot
  cases hpool : l.pool with
  | nil =>
      rw [hpool] at hfree
      rw [hcreate, kvmCreate_nil hfree] at hrun
      cases hrun
  | cons p rest =>
      rw [← pool_first hpool] at hstale
      cases rest with
      | nil =>
          rw [← hword p (by simp [hpool])] at hstale
          rw [hpool] at hfree
          rw [hcreate, kvmCreate_exhausted hfree hstale] at hrun
          cases hrun
      | cons q rest =>
          obtain ⟨s'', hrun', hwalk⟩ := kvmInit_fresh hs hboot hpool hstale
          rw [hrun] at hrun'
          cases hrun'
          exact hwalk

end Init

theorem boot_initial {l : Layout} (hs : l.Statics) : Boot l ⟨initialMemory l.registry, []⟩ :=
  ⟨initialMemory_empty hs.registry_aligned, rfl⟩

/-- Zero memory has no present entry outside the list head. -/
theorem initialMemory_stale {l : Layout} (hs : l.Statics) :
    ((initialMemory l.registry).loadWord (entryAddr (mmPageup l.end_) 512)).getLsbD 0 = false := by
  have hup := l.pageup_end
  have hdata := l.data_le_end
  have haligned := pageAligned_pageup l.end_
  have hinside := hs.registry_inside.2
  have hentry := entryAddr_toNat haligned (show (512 : Addr).toNat < 1024 by decide)
  change _ = _ + 4 * 512 at hentry
  rw [loadWord_of_zero]
  · simp
  · intro x hx
    apply initialMemory_byte
    intro hreg
    unfold Within at hx hreg
    bv_omega

/-- A kernel that ends at 1 MB + 96 kB, its registry in the last page of data. -/
def smallLayout : Layout where
  data := 0x80110000
  end_ := 0x80118000
  registry := 0x80117040
  x86PageDirectory := 0x80110000
  data_aligned := by decide
  link_data := by decide
  data_end := by decide
  end_limit := by decide

theorem smallLayout_statics : smallLayout.Statics :=
  ⟨by decide, by decide, by decide, by decide, by decide⟩

theorem smallLayout_pool : ∃ free, smallLayout.pool = 0x80118000 :: 0x80119000 :: free := by
  have h₀ : PageAligned 0x80118000 := by decide
  have h₁ : PageAligned 0x80119000 := by decide
  have h₂ : PageAligned 0x80400000 := by decide
  refine ⟨pagesBetween (0x80119000 + x86Pagesz) 0x80400000, ?_⟩
  rw [Layout.pool, show mmPageup smallLayout.end_ = 0x80118000 by decide,
    show mmPageup (mmVirtaddr fourMb) = 0x80400000 by decide,
    pagesBetween_of_lt h₀ h₂ (by decide), show (0x80118000 : Addr) + x86Pagesz = 0x80119000 by decide,
    pagesBetween_of_lt h₁ h₂ (by decide)]

/-- The pool of `smallLayout` in zero memory, as `kvm_create` finds it. -/
theorem smallLayout_boot : ∃ s free,
    kvmInit smallLayout ⟨initialMemory smallLayout.registry, []⟩ = kvmCreate smallLayout s ∧
    FreeList smallLayout.registry s.mem (0x80118000 :: 0x80119000 :: free) ∧
    (s.mem.loadWord (entryAddr 0x80118000 512)).getLsbD 0 = false := by
  obtain ⟨free, hpool⟩ := smallLayout_pool
  obtain ⟨s, hrun, hfree, -, hword⟩ :=
    kvmInit_pool smallLayout_statics (boot_initial smallLayout_statics)
  refine ⟨s, free, hrun, hpool ▸ hfree, ?_⟩
  rw [hword _ (by simp [hpool])]
  exact initialMemory_stale smallLayout_statics

/-- For every layout, memory and free list, `kvm_create` does not build the map
it describes: entry 0 is the magic number, or entry 512 leads to no allocated
table. -/
theorem kvm_create_never_maps_kernel_only (l : Layout) (s : Kernel) (d q : Addr)
    (free : List Addr) (h : FreeList l.registry s.mem (d :: q :: free)) :
    ∃ s', kvmCreate l s = .ok (d, s') ∧ ¬ MapsKernelOnly l s s' d := by
  cases hstale : (s.mem.loadWord (entryAddr d 512)).getLsbD 0 with
  | false =>
      obtain ⟨s', hrun, -, hmagic, -⟩ := kvmCreate_fresh h hstale
      exact ⟨s', hrun, fun hmap => hmap.entry_zero hmagic⟩
  | true =>
      obtain ⟨s', hrun, hgranted, hpresent⟩ := kvmCreate_stale h hstale
      refine ⟨s', hrun, ?_⟩
      intro hmap
      obtain ⟨tables, htables, hentries⟩ := hmap.entries
      obtain rfl : tables = [] := by simpa [hgranted] using htables
      exact List.not_mem_nil (hentries 512 (by decide) hpresent).2

/-- Zero memory below the pool: the stale entry is not present. -/
theorem kvm_create_never_maps_kernel_only_small : ∃ s s',
    kvmInit smallLayout ⟨initialMemory smallLayout.registry, []⟩ = .ok (0x80118000, s') ∧
    kvmCreate smallLayout s = .ok (0x80118000, s') ∧
    ¬ MapsKernelOnly smallLayout s s' 0x80118000 := by
  obtain ⟨s, free, hrun, hfree, -⟩ := smallLayout_boot
  obtain ⟨s', hcreate, hnot⟩ := kvm_create_never_maps_kernel_only smallLayout s _ _ free hfree
  exact ⟨s, s', hrun.trans hcreate, hcreate, hnot⟩

/-- There the first entry is still the magic number, present and a 4 MB page. -/
theorem kvm_create_keeps_magic_entry : ∃ s s',
    kvmInit smallLayout ⟨initialMemory smallLayout.registry, []⟩ = kvmCreate smallLayout s ∧
    kvmCreate smallLayout s = .ok (0x80118000, s') ∧
    s'.mem.loadWord (entryAddr 0x80118000 0) = 0xDEADBEAF ∧
    hasFlag 0xDEADBEAF x86PdePresent = true ∧ hasFlag 0xDEADBEAF x86PdePs = true ∧
    ¬ MapsKernelOnly smallLayout s s' 0x80118000 := by
  obtain ⟨s, free, hrun, hfree, hstale⟩ := smallLayout_boot
  obtain ⟨s', hcreate, -, hmagic, -⟩ := kvmCreate_fresh hfree hstale
  exact ⟨s, s', hrun, hcreate, hmagic, by decide, by decide, fun hmap => hmap.entry_zero hmagic⟩

/-- For no layout does `kvm_init` build, from every boot memory, an address
space in which the memory manager can go on. -/
theorem kvm_init_never_keeps_manager (l : Layout) (hs : l.Statics) :
    (∀ s, Boot l s →
      (s.mem.loadWord (entryAddr (mmPageup l.end_) 512)).getLsbD 0 = false →
      ∀ d s', kvmInit l s = .ok (d, s') → pageWalk s'.mem (mmPhysaddr d) d = none) ∧
    ¬ ∀ s, Boot l s → ∃ d s', kvmInit l s = .ok (d, s') ∧ KeepsManager l s' d := by
  constructor
  · intro s hboot hstale d s' hrun
    exact kvmInit_unmapped hs hboot hstale hrun
  · intro hall
    obtain ⟨d, s', hrun, hkeeps⟩ := hall _ (boot_initial hs)
    have hnone := kvmInit_unmapped hs (boot_initial hs) (initialMemory_stale hs) hrun
    have hself : Within d 4096 d := by simp [Within]
    obtain ⟨t, hwalk, -⟩ := hkeeps.directory d hself
    rw [hnone] at hwalk
    cases hwalk

theorem kvm_init_never_keeps_manager_small :
    ¬ ∀ s, Boot smallLayout s →
      ∃ d s', kvmInit smallLayout s = .ok (d, s') ∧ KeepsManager smallLayout s' d :=
  (kvm_init_never_keeps_manager smallLayout smallLayout_statics).2

/-- From zero memory the directory is the page at `end`, and does not map it. -/
theorem kvm_init_leaves_directory_unmapped : ∃ s',
    kvmInit smallLayout ⟨initialMemory smallLayout.registry, []⟩ = .ok (0x80118000, s') ∧
    pageWalk s'.mem (mmPhysaddr 0x80118000) 0x80118000 = none ∧
    ¬ KeepsManager smallLayout s' 0x80118000 := by
  obtain ⟨free, hpool⟩ := smallLayout_pool
  obtain ⟨s', hrun, hwalk⟩ := kvmInit_fresh smallLayout_statics (boot_initial smallLayout_statics)
    hpool (initialMemory_stale smallLayout_statics)
  refine ⟨s', hrun, hwalk, ?_⟩
  intro hkeeps
  have hself : Within (0x80118000 : Addr) 4096 0x80118000 := by simp [Within]
  obtain ⟨t, ht, -⟩ := hkeeps.directory _ hself
  rw [hwalk] at ht
  cases ht

end Yack.KernelAddressSpace
