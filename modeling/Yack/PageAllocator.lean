import Yack.IntrusiveList
import Yack.KernelState

/-!
# The page allocator of `kernel/mm/pages.c`

A free page starts with `struct page`: the magic number at offset 0 and the
list node at offset 4. The list head is the first member of `registry_`, whose
address the linker chooses; the spinlock is an empty struct and its macros
expand to `((void)0)`, so the lock flag is read and nothing follows from it.

`FreeList registry m pages` says that the ring threaded through memory is
exactly `pages`, oldest first. Every function below has one lemma that starts
from it, and callers do not look inside the functions again.
-/
namespace Yack.PageAllocator
open ByteMemory MemoryLayout LinkRing IntrusiveList KernelState

def magicNumber : BitVec 32 := 0xDEADBEAF

/-- `&page->free_list`. -/
def freeListNode (page : Addr) : Addr := page + 4

/-- The entry is unlinked before the null test, as in the source. -/
def kpalloc (registry : Addr) (s : Kernel) : Outcome (Addr × Kernel) := do
  let page := listFirstEntryOrNull s.mem registry 4
  let mem := listDel s.mem (freeListNode page)
  if page ≠ 0 then
    kassert (mem.loadWord page == magicNumber) "pages.c" 35 "page->magic_number == 0xDEADBEAF"
    return (page, { mem, events := .handedOut page :: s.events })
  else
    return (page, { s with mem })

def kpfree (registry address : Addr) (s : Kernel) : Outcome Kernel := do
  kassert (address != 0 && mmIsPageAligned address) "pages.c" 56
    "address && mm_is_page_aligned(address)"
  let mem := s.mem.storeWord address magicNumber
  return { s with mem := listAddTail mem (freeListNode address) registry }

def kpfreeRange (registry start end_ : Addr) (s : Kernel) : Outcome Kernel :=
  let first := mmPageup start
  let last := mmPageup end_
  let s := klog "DEBUG" "pages: first = %p, last = %p, count = %u\n"
    [first, last, (last - first).sdiv x86Pagesz] s
  forPages (fun curr s => (kpfree registry curr s).map .yield) last pageFuel first s

/-- The page holds a byte of the list head, so no client can own it. -/
def HoldsRegistry (registry page : Addr) : Prop :=
  mmPagedown registry = page ∨ mmPagedown (registry + 4) = page

instance (registry page : Addr) : Decidable (HoldsRegistry registry page) :=
  inferInstanceAs (Decidable (_ ∨ _))

/-- A page the allocator can keep on its list. -/
structure Usable (registry page : Addr) : Prop where
  aligned : PageAligned page
  nonnull : page ≠ 0
  outside : ¬ HoldsRegistry registry page

instance (registry page : Addr) : Decidable (Usable registry page) :=
  decidable_of_iff (PageAligned page ∧ page ≠ 0 ∧ ¬ HoldsRegistry registry page)
    ⟨fun h => ⟨h.1, h.2.1, h.2.2⟩, fun h => ⟨h.aligned, h.nonnull, h.outside⟩⟩

structure FreeList (registry : Addr) (m : Memory Addr) (pages : List Addr) : Prop where
  registry_aligned : Aligned4 registry
  usable : ∀ p ∈ pages, Usable registry p
  magic : ∀ p ∈ pages, m.loadWord p = magicNumber
  ring : Ring (listNext m) (listPrev m) registry (pages.map freeListNode)

/-- The bytes the allocator owns while `pages` are free: the list head and the
`struct page` at the start of each. -/
def AllocatorBytes (registry : Addr) (pages : List Addr) (x : Addr) : Prop :=
  Within registry 8 x ∨ ∃ p ∈ pages, Within p 12 x

theorem freeListNode_inj {p q : Addr} : freeListNode p = freeListNode q ↔ p = q := by
  unfold freeListNode
  exact ⟨fun h => by bv_omega, fun h => by rw [h]⟩

theorem within_header {p x : Addr} : Within p 12 x ↔ Within p 4 x ∨ Within (freeListNode p) 8 x := by
  unfold Within freeListNode
  constructor
  · intro h
    by_cases hx : (x - p).toNat < 4
    · exact .inl hx
    · right; bv_omega
  · rintro (h | h) <;> bv_omega

theorem header_pagedown {p x : Addr} (hp : PageAligned p) (hx : Within p 12 x) :
    mmPagedown x = p := by
  refine (within_page hp).mp ?_
  unfold Within at *
  omega

theorem registry_pagedown {registry x : Addr} (h : Aligned4 registry) (hx : Within registry 8 x) :
    HoldsRegistry registry (mmPagedown x) := by
  rcases within_links.mp hx with hx | hx
  · exact .inl (Aligned4.pagedown_within h hx).symm
  · exact .inr (Aligned4.pagedown_within h.add_four hx).symm

section Lists
variable {registry p : Addr} {m m' : Memory Addr} {pages : List Addr}

theorem FreeList.nodup (h : FreeList registry m pages) : pages.Nodup :=
  List.Nodup.of_map _ (List.nodup_cons.mp h.ring.nodup).2

/-- A memory holds one free list at most. -/
theorem FreeList.unique {pages' : List Addr} (h : FreeList registry m pages)
    (k : FreeList registry m pages') : pages = pages' :=
  List.map_injective_iff.mpr (fun _ _ => freeListNode_inj.mp) (h.ring.unique k.ring)

theorem AllocatorBytes.mono {small large : List Addr} {x : Addr}
    (h : AllocatorBytes registry small x) (hsub : ∀ p ∈ small, p ∈ large) :
    AllocatorBytes registry large x :=
  h.imp_right fun ⟨p, hp, hx⟩ => ⟨p, hsub p hp, hx⟩

/-- Allocator bytes lie in free pages or in a page that holds the list head. -/
theorem AllocatorBytes.pagedown {x : Addr} (hr : Aligned4 registry)
    (hu : ∀ p ∈ pages, Usable registry p) (h : AllocatorBytes registry pages x) :
    HoldsRegistry registry (mmPagedown x) ∨ mmPagedown x ∈ pages := by
  rcases h with h | ⟨p, hp, hx⟩
  · exact .inl (registry_pagedown hr h)
  · exact .inr (by rwa [header_pagedown (hu p hp).aligned hx])

/-- List nodes in distinct usable pages, and the head outside them, never
overlap: this is what lets the raw stores be read as link updates. -/
theorem spaced_nodes (hr : Aligned4 registry) (hu : ∀ p ∈ pages, Usable registry p) :
    Spaced (registry :: pages.map freeListNode) := by
  have hpage : ∀ p ∈ pages, p.toNat % 4096 = 0 := fun p hp => (hu p hp).aligned
  have hhead : ∀ p ∈ pages, registry ≠ p + 8 ∧ registry ≠ p := by
    intro p hp
    have hout := (hu p hp).outside
    refine ⟨?_, ?_⟩ <;> rintro rfl <;> refine hout (.inl ?_)
    · refine (within_page (hu p hp).aligned).mp ?_
      unfold Within
      bv_omega
    · exact (hu _ hp).aligned.pagedown
  constructor
  · intro x hx
    rcases List.mem_cons.mp hx with rfl | hx
    · exact hr
    · obtain ⟨p, hp, rfl⟩ := List.mem_map.mp hx
      exact ((hu p hp).aligned.aligned4).add_four
  · intro x hx y hy
    rcases List.mem_cons.mp hx with hxr | hxp <;> rcases List.mem_cons.mp hy with hyr | hyp
    · bv_omega
    · obtain ⟨q, hq, rfl⟩ := List.mem_map.mp hyp
      have := (hhead q hq).1
      unfold freeListNode
      bv_omega
    · obtain ⟨q, hq, rfl⟩ := List.mem_map.mp hxp
      have := (hhead q hq).2
      unfold freeListNode
      bv_omega
    · obtain ⟨p, hp, rfl⟩ := List.mem_map.mp hxp
      obtain ⟨q, hq, rfl⟩ := List.mem_map.mp hyp
      have := hpage p hp
      have := hpage q hq
      unfold freeListNode
      bv_omega

theorem linkBytes_allocator {x : Addr} (h : LinkBytes (registry :: pages.map freeListNode) x) :
    AllocatorBytes registry pages x := by
  obtain ⟨n, hn, hx⟩ := h
  rcases List.mem_cons.mp hn with rfl | hn
  · exact .inl hx
  · obtain ⟨p, hp, rfl⟩ := List.mem_map.mp hn
    exact .inr ⟨p, hp, within_header.mpr (.inr hx)⟩

/-- A free list only depends on the allocator's own bytes. -/
theorem FreeList.congr (h : FreeList registry m pages)
    (hb : ∀ x, AllocatorBytes registry pages x → m'.byte x = m.byte x) :
    FreeList registry m' pages := by
  refine ⟨h.registry_aligned, h.usable, ?_, h.ring.congr ?_ ?_⟩
  · intro p hp
    rw [← h.magic p hp]
    exact Memory.loadWord_congr fun x hx =>
      hb x (.inr ⟨p, hp, within_header.mpr (.inl hx)⟩)
  · intro n hn
    exact Memory.loadWord_congr fun x hx =>
      hb x (linkBytes_allocator ⟨n, hn, within_links.mpr (.inl hx)⟩)
  · intro n hn
    exact Memory.loadWord_congr fun x hx =>
      hb x (linkBytes_allocator ⟨n, hn, within_links.mpr (.inr hx)⟩)

/-- A free list survives a change off its pages and off the page of its head. -/
theorem FreeList.unchanged {region : Addr → Prop} (h : FreeList registry m pages)
    (hf : m.Frame m' region)
    (hr : ∀ x, region x → ¬ HoldsRegistry registry (mmPagedown x) ∧ mmPagedown x ∉ pages) :
    FreeList registry m' pages := by
  refine h.congr fun x hx => hf.1 x fun hreg => ?_
  rcases hx.pagedown h.registry_aligned h.usable with hx | hx
  · exact (hr x hreg).1 hx
  · exact (hr x hreg).2 hx

theorem FreeList.first (h : FreeList registry m (p :: pages)) :
    listFirstEntryOrNull m registry 4 = p := by
  have hhead : listNext m registry = freeListNode p := h.ring.path.1
  have hne : freeListNode p ≠ registry := by
    intro e
    exact (List.nodup_cons.mp h.ring.nodup).1 (by simp [e])
  rw [listFirstEntryOrNull, hhead, if_pos hne, freeListNode]
  bv_omega

theorem FreeList.first_nil (h : FreeList registry m []) : listFirstEntryOrNull m registry 4 = 0 := by
  have hhead : listNext m registry = registry := (ring_nil.mp h.ring).1
  rw [listFirstEntryOrNull, hhead, if_neg (not_not_intro rfl)]

/-- The magic word of a usable page is not one of the links. -/
theorem magic_not_link (hr : Aligned4 registry) (hu : ∀ q ∈ pages, Usable registry q)
    (hp : Usable registry p) {x : Addr} (hx : Within p 4 x) :
    ¬ LinkBytes (registry :: pages.map freeListNode) x := by
  have hpx : mmPagedown x = p := header_pagedown hp.aligned (within_header.mpr (.inl hx))
  rintro ⟨n, hn, hnx⟩
  rcases List.mem_cons.mp hn with rfl | hn
  · exact hp.outside (hpx ▸ registry_pagedown hr hnx)
  · obtain ⟨q, hq, rfl⟩ := List.mem_map.mp hn
    have hqx := header_pagedown (hu q hq).aligned (within_header.mpr (.inr hnx))
    have hpq : p = q := hpx.symm.trans hqx
    subst q
    unfold Within freeListNode at *
    bv_omega

end Lists

section Specs
variable {registry p : Addr} {s : Kernel} {pages : List Addr}

/-- `kpalloc` takes the oldest page, passes its own assertion, and leaves the
header with the magic number and two null links. -/
theorem kpalloc_cons (h : FreeList registry s.mem (p :: pages)) :
    ∃ m, kpalloc registry s = .ok (p, ⟨m, .handedOut p :: s.events⟩) ∧
      FreeList registry m pages ∧ s.mem.Frame m (AllocatorBytes registry (p :: pages)) ∧
      m.loadWord p = magicNumber ∧ m.loadWord (p + 4) = 0 ∧ m.loadWord (p + 8) = 0 := by
  have hp := h.usable p (by simp)
  have hpages : ∀ q ∈ pages, q ∈ p :: pages := fun q hq => List.mem_cons_of_mem _ hq
  obtain ⟨hring, hnext, hprev, hframe⟩ :=
    listDel_ring h.ring (spaced_nodes h.registry_aligned h.usable)
  have hmagic : ∀ q ∈ p :: pages, (listDel s.mem (freeListNode p)).loadWord q = magicNumber := by
    intro q hq
    rw [hframe.loadWord fun x => magic_not_link h.registry_aligned h.usable (h.usable q hq)]
    exact h.magic q hq
  refine ⟨listDel s.mem (freeListNode p), ?_, ?_, ?_, hmagic p (by simp), hnext, ?_⟩
  · simp only [kpalloc, h.first, hp.nonnull, ne_eq, not_false_eq_true, if_true,
      hmagic p (by simp), kassert, beq_self_eq_true]
    rfl
  · exact ⟨h.registry_aligned, fun q hq => h.usable q (hpages q hq),
      fun q hq => hmagic q (hpages q hq), hring⟩
  · exact hframe.mono fun x hx => linkBytes_allocator (by simpa using hx)
  · rw [show p + 8 = freeListNode p + 4 by unfold freeListNode; bv_omega]
    exact hprev

/-- On the empty list the unlink runs on the null page and null is returned. -/
theorem kpalloc_nil (h : FreeList registry s.mem []) :
    kpalloc registry s = .ok (0, { s with mem := listDel s.mem (freeListNode 0) }) := by
  simp only [kpalloc, h.first_nil, ne_eq, not_true_eq_false, if_false]
  rfl

theorem kpfree_ok (h : FreeList registry s.mem pages) (hp : Usable registry p) (hnew : p ∉ pages) :
    ∃ m, kpfree registry p s = .ok { s with mem := m } ∧ FreeList registry m (pages ++ [p]) ∧
      s.mem.Frame m (AllocatorBytes registry (p :: pages)) := by
  have husable : ∀ q ∈ p :: pages, Usable registry q := by
    intro q hq
    rcases List.mem_cons.mp hq with rfl | hq
    · exact hp
    · exact h.usable q hq
  have hstore := s.mem.frame_storeWord p magicNumber
  have hmid : FreeList registry (s.mem.storeWord p magicNumber) pages := by
    refine h.congr fun x hx => hstore.1 x fun hpx => ?_
    have hpage := header_pagedown hp.aligned (within_header.mpr (.inl hpx))
    rcases hx.pagedown h.registry_aligned h.usable with hx | hx
    · exact hp.outside (hpage ▸ hx)
    · exact hnew (hpage ▸ hx)
  have hnode : freeListNode p ∉ registry :: pages.map freeListNode := by
    rw [List.mem_cons, List.mem_map, not_or]
    refine ⟨fun e => hp.outside (.inl ?_), ?_⟩
    · rw [← e]
      refine header_pagedown hp.aligned (within_header.mpr (.inr ?_))
      unfold Within
      bv_omega
    · rintro ⟨q, hq, e⟩
      exact hnew (freeListNode_inj.mp e ▸ hq)
  have hspaced : Spaced (freeListNode p :: registry :: pages.map freeListNode) :=
    (spaced_nodes h.registry_aligned husable).mono fun x hx => by
      simp only [List.map_cons, List.mem_cons] at hx ⊢
      tauto
  obtain ⟨hring, hframe⟩ := listAddTail_ring hmid.ring hspaced hnode
  have hlinks : ∀ x, LinkBytes (freeListNode p :: registry :: pages.map freeListNode) x →
      LinkBytes (registry :: (p :: pages).map freeListNode) x := by
    rintro x ⟨n, hn, hx⟩
    refine ⟨n, ?_, hx⟩
    simp only [List.map_cons, List.mem_cons] at hn ⊢
    tauto
  refine ⟨listAddTail (s.mem.storeWord p magicNumber) (freeListNode p) registry, ?_, ?_, ?_⟩
  · have hcond : (p != 0 && mmIsPageAligned p) = true := by
      rw [(mmIsPageAligned_iff p).mpr hp.aligned, Bool.and_true]
      exact bne_iff_ne.mpr hp.nonnull
    simp only [kpfree, kassert, hcond, if_true]
    rfl
  · refine ⟨h.registry_aligned, ?_, ?_, by simpa using hring⟩
    · intro q hq
      exact husable q (by simpa [or_comm] using hq)
    · intro q hq
      have hq' : q ∈ p :: pages := by simpa [or_comm] using hq
      rw [hframe.loadWord fun x hx hl =>
        magic_not_link h.registry_aligned husable (husable q hq') hx (hlinks x hl)]
      rcases List.mem_cons.mp hq' with rfl | hq
      · exact Memory.loadWord_storeWord _ _ _
      · exact hmid.magic q hq
  · refine (hstore.mono fun x hx => ?_).trans (hframe.mono fun x hx => ?_)
    · exact .inr ⟨p, by simp, within_header.mpr (.inl hx)⟩
    · exact linkBytes_allocator (hlinks x hx)

/-- `kpfree_range` appends, in ascending order, the pages between its rounded
bounds. -/
theorem kpfreeRange_ok {start end_ : Addr} (h : FreeList registry s.mem pages)
    (hnew : ∀ p ∈ pagesBetween (mmPageup start) (mmPageup end_),
      Usable registry p ∧ p ∉ pages) :
    ∃ s', kpfreeRange registry start end_ s = .ok s' ∧
      FreeList registry s'.mem (pages ++ pagesBetween (mmPageup start) (mmPageup end_)) ∧
      s.mem.Frame s'.mem (AllocatorBytes registry
        (pages ++ pagesBetween (mmPageup start) (mmPageup end_))) ∧
      s'.granted = s.granted := by
  obtain ⟨range, hrange⟩ : ∃ range, pagesBetween (mmPageup start) (mmPageup end_) = range :=
    ⟨_, rfl⟩
  have hnodup : range.Nodup := hrange ▸ pagesBetween_nodup _ _
  rw [kpfreeRange, forPages_eq_foldlM (fun _ _ => rfl) (pageAligned_pageup _)
    (pageAligned_pageup _), hrange]
  rw [hrange] at hnew
  let Inv (done : List Addr) (s' : Kernel) : Prop :=
    FreeList registry s'.mem (pages ++ done) ∧
      s.mem.Frame s'.mem (AllocatorBytes registry (pages ++ range)) ∧ s'.granted = s.granted
  have hinit : Inv [] s := ⟨by rw [List.append_nil]; exact h, Memory.Frame.refl _ _, rfl⟩
  refine @foldlM_invariant _ _ _ Inv range ?_ _ hinit
  intro done p rest s' hsplit hinv
  obtain ⟨hfree, hframe, hgranted⟩ := hinv
  have hp : p ∈ range := by simp [← hsplit]
  have hdone : p ∉ pages ++ done := by
    rw [List.mem_append, not_or]
    refine ⟨(hnew p hp).2, fun hd => ?_⟩
    rw [← hsplit, List.nodup_append] at hnodup
    exact hnodup.2.2 p hd p (by simp) rfl
  obtain ⟨m, hm, hfree', hframe'⟩ := kpfree_ok hfree (hnew p hp).1 hdone
  refine ⟨_, hm, by simpa using hfree', hframe.trans (hframe'.mono fun x hx => ?_), hgranted⟩
  refine hx.mono fun q hq => ?_
  rcases List.mem_cons.mp hq with rfl | hq
  · exact List.mem_append_right _ hp
  · rcases List.mem_append.mp hq with hq | hq
    · exact List.mem_append_left _ hq
    · exact List.mem_append_right _ (by simp [← hsplit, hq])

end Specs

/-- `registry_` as `LIST_HEAD_INIT` leaves it. -/
structure EmptyRegistry (registry : Addr) (m : Memory Addr) : Prop where
  aligned : Aligned4 registry
  next : listNext m registry = registry
  prev : listPrev m registry = registry

theorem EmptyRegistry.freeList {registry : Addr} {m : Memory Addr}
    (h : EmptyRegistry registry m) : FreeList registry m [] :=
  ⟨h.aligned, by simp, by simp, ring_nil.mpr ⟨h.next, h.prev⟩⟩

/-- All-zero memory with the initialised list head at `registry`. -/
def initialMemory (registry : Addr) : Memory Addr :=
  let m : Memory Addr := ⟨fun _ => 0, []⟩
  (m.storeWord registry registry).storeWord (registry + 4) registry

theorem initialMemory_empty {registry : Addr} (h : Aligned4 registry) :
    EmptyRegistry registry (initialMemory registry) := by
  have hne : registry ≠ registry + 4 := by bv_omega
  refine ⟨h, ?_, ?_⟩
  · rw [listNext, initialMemory, Memory.loadWord_storeWord_aligned _ _ h.add_four h, if_neg hne,
      Memory.loadWord_storeWord]
  · exact Memory.loadWord_storeWord _ _ _

theorem initialMemory_byte {registry x : Addr} (h : ¬ Within registry 8 x) :
    (initialMemory registry).byte x = 0 := by
  have hnext : ¬ Within registry 4 x := fun hx => h (within_links.mpr (.inl hx))
  have hprev : ¬ Within (registry + 4) 4 x := fun hx => h (within_links.mpr (.inr hx))
  rw [initialMemory, (Memory.frame_storeWord _ _ _).1 x hprev,
    (Memory.frame_storeWord _ _ _).1 x hnext]

/-- A range freed into the initial registry, with zeros outside the headers. -/
theorem kpfreeRange_initial {registry start end_ : Addr} (hr : Aligned4 registry)
    (hpages : ∀ p ∈ pagesBetween (mmPageup start) (mmPageup end_), Usable registry p) :
    ∃ s, kpfreeRange registry start end_ ⟨initialMemory registry, []⟩ = .ok s ∧
      FreeList registry s.mem (pagesBetween (mmPageup start) (mmPageup end_)) ∧
      ∀ x, ¬ AllocatorBytes registry (pagesBetween (mmPageup start) (mmPageup end_)) x →
        s.mem.byte x = 0 := by
  have hempty : FreeList registry (initialMemory registry) [] := (initialMemory_empty hr).freeList
  obtain ⟨s, hrun, hfree, hframe, -⟩ := @kpfreeRange_ok registry ⟨initialMemory registry, []⟩ []
    start end_ hempty fun p hp => ⟨hpages p hp, List.not_mem_nil⟩
  refine ⟨s, hrun, hfree, ?_⟩
  intro x hx
  rw [hframe.1 x hx, initialMemory_byte fun hw => hx (.inl hw)]

end Yack.PageAllocator
