import Yack.PageQueue

/-!
# What `kpalloc` touches, and what it does when no page is free

`list_first_entry_or_null` answers null for an empty list, but the entry is
unlinked before it is compared with null. To say which memory a call touches,
reads included, its code is run a second time on a memory that notes the word
addresses it is asked for; erasing the notes gives back `kpalloc`.
-/
namespace Yack.PageExhaustion
open ByteMemory MemoryLayout LinkRing IntrusiveList KernelState PageAllocator PageQueue

/-- A memory and the words accessed in it, latest first. -/
structure Observed where
  mem : Memory Addr
  accesses : List Addr

abbrev Observing := ExceptT Halt (StateM Observed)

def readWord (a : Addr) : Observing (BitVec 32) := fun o =>
  (.ok (o.mem.loadWord a), { o with accesses := a :: o.accesses })

def writeWord (a : Addr) (w : BitVec 32) : Observing Unit := fun o =>
  (.ok (), ⟨o.mem.storeWord a w, a :: o.accesses⟩)

def kassertObserved (cond : Bool) (file : String) (line : ℕ) (expr : String) :
    Observing Unit := fun o => (kassert cond file line expr, o)

def listDelObserved (entry : Addr) : Observing Unit := do
  let prev ← readWord (entry + 4)
  let next ← readWord entry
  writeWord (next + 4) prev
  writeWord prev next
  writeWord entry 0
  writeWord (entry + 4) 0

def listFirstEntryOrNullObserved (head offset : Addr) : Observing Addr := do
  let pos ← readWord head
  return if pos ≠ head then pos - offset else 0

/-- `&registry_.pr_shoud_lock`, after the two links and the empty spinlock. -/
def prShoudLock (registry : Addr) : Addr := registry + 8

/-- `sizeof(struct page_registry)`. -/
def registrySize : ℕ := 12

def kpallocObserved (registry : Addr) : Observing Addr := do
  let _ ← readWord (prShoudLock registry)
  let page ← listFirstEntryOrNullObserved registry 4
  listDelObserved (freeListNode page)
  let _ ← readWord (prShoudLock registry)
  if page ≠ 0 then
    let magic ← readWord page
    kassertObserved (magic == magicNumber) "pages.c" 35 "page->magic_number == 0xDEADBEAF"
  return page

/-- The words a call of `kpalloc` accesses. -/
def kpallocAccesses (registry : Addr) (m : Memory Addr) : List Addr :=
  (kpallocObserved registry ⟨m, []⟩).2.accesses

/-- The words `list_del` accesses. -/
def listDelAccesses (m : Memory Addr) (entry : Addr) : List Addr :=
  [entry + 4, entry, listPrev m entry, listNext m entry + 4, entry, entry + 4]

section Erasure
variable {registry : Addr} {m : Memory Addr} {accesses : List Addr}

theorem observing_bind {β γ : Type} (x : Observing β) (f : β → Observing γ) (o : Observed) :
    (x >>= f) o = match x o with
      | (.ok b, o) => f b o
      | (.error e, o) => (.error e, o) := by
  change (ExceptT.bindCont f (x o).1) (x o).2 = _
  rcases x o with ⟨_ | _, o⟩ <;> rfl

theorem listDelObserved_eq (entry : Addr) : listDelObserved entry ⟨m, accesses⟩ =
    (.ok (), ⟨listDel m entry, listDelAccesses m entry ++ accesses⟩) := rfl

theorem listFirstEntryOrNullObserved_eq (head offset : Addr) :
    listFirstEntryOrNullObserved head offset ⟨m, accesses⟩ =
      (.ok (listFirstEntryOrNull m head offset), ⟨m, head :: accesses⟩) := rfl

/-- The observed run is `kpalloc`, and its accesses are those of the unlink
and the two lock flags whether or not there is a page; only a page's magic
number is read. -/
theorem kpallocObserved_eq (registry : Addr) (m : Memory Addr) :
    kpallocObserved registry ⟨m, []⟩ =
      let page := listFirstEntryOrNull m registry 4
      let mem := listDel m (freeListNode page)
      let accesses := prShoudLock registry :: listDelAccesses m (freeListNode page) ++
        [registry, prShoudLock registry]
      if page = 0 then (.ok page, ⟨mem, accesses⟩)
      else
        ((kassert (mem.loadWord page == magicNumber) "pages.c" 35
          "page->magic_number == 0xDEADBEAF").map fun _ => page, ⟨mem, page :: accesses⟩) := by
  simp only [kpallocObserved, observing_bind, readWord, listFirstEntryOrNullObserved_eq,
    listDelObserved_eq]
  by_cases h : listFirstEntryOrNull m registry 4 = 0
  · simp only [h, ne_eq, not_true_eq_false, if_true, if_false]
    rfl
  · simp only [h, ne_eq, not_false_eq_true, if_true, if_false, observing_bind, readWord,
      kassertObserved]
    rcases hassert : kassert _ _ _ _ with _ | _ <;> rfl

/-- Erasing the accesses leaves `kpalloc`. -/
theorem kpalloc_eq_observed (registry : Addr) (s : Kernel) :
    kpalloc registry s =
      (kpallocObserved registry ⟨s.mem, []⟩).1.map fun page =>
        (page, ⟨(kpallocObserved registry ⟨s.mem, []⟩).2.mem,
          if page = 0 then s.events else .handedOut page :: s.events⟩) := by
  rw [kpallocObserved_eq]
  by_cases h : listFirstEntryOrNull s.mem registry 4 = 0
  · simp only [kpalloc, h, ne_eq, not_true_eq_false, if_true, if_false]
    rfl
  · simp only [kpalloc, h, ne_eq, not_false_eq_true, if_true, if_false]
    rcases hassert : kassert _ _ _ _ with _ | _
    · rfl
    · simp only [Except.map, h, if_false]
      rfl

theorem kpallocAccesses_eq (registry : Addr) (m : Memory Addr) :
    kpallocAccesses registry m =
      (if listFirstEntryOrNull m registry 4 = 0 then [] else [listFirstEntryOrNull m registry 4]) ++
        prShoudLock registry :: listDelAccesses m (freeListNode (listFirstEntryOrNull m registry 4)) ++
          [registry, prShoudLock registry] := by
  rw [kpallocAccesses, kpallocObserved_eq]
  by_cases h : listFirstEntryOrNull m registry 4 = 0
  · simp only [h, if_true, List.nil_append]
  · simp only [h, if_false, List.cons_append, List.nil_append]

end Erasure

/-- Bytes of the registry, with its lock flag, and of the free pages. -/
def PoolByte (registry : Addr) (pages : List Addr) (x : Addr) : Prop :=
  Within registry registrySize x ∨ mmPagedown x ∈ pages

/-- A call of `kpalloc` on the free list `pages` stays in the pool, and where
the pool is exhausted it says so and leaves the registry as it was. -/
structure ReportsExhaustion (registry : Addr) (pages : List Addr) (s : Kernel) : Prop where
  accesses : ∀ a ∈ kpallocAccesses registry s.mem, ∀ x, Within a 4 x → PoolByte registry pages x
  exhausted : pages = [] → ∃ s', kpalloc registry s = .ok (0, s') ∧
    ∀ x, Within registry registrySize x → s'.mem.byte x = s.mem.byte x

section Accesses
variable {registry p : Addr} {s : Kernel} {pages : List Addr}

theorem PoolByte.of_header (h : FreeList registry s.mem pages) (hp : p ∈ pages) {x : Addr}
    (hx : Within p 12 x) : PoolByte registry pages x :=
  .inr (by rwa [header_pagedown (h.usable p hp).aligned hx])

/-- The links of the ring are those of the head and of the pages. -/
theorem PoolByte.of_node (h : FreeList registry s.mem pages) {n x : Addr}
    (hn : n ∈ registry :: pages.map freeListNode) (hx : Within n 8 x) :
    PoolByte registry pages x := by
  rcases List.mem_cons.mp hn with rfl | hn
  · refine .inl ?_
    unfold Within registrySize at *
    omega
  · obtain ⟨q, hq, rfl⟩ := List.mem_map.mp hn
    exact .of_header h hq (within_header.mpr (.inr hx))

/-- Unlinking the oldest page touches its own links and those of the head and
of the page after it. -/
theorem listDelAccesses_first (h : FreeList registry s.mem (p :: pages)) {a : Addr}
    (ha : a ∈ listDelAccesses s.mem (freeListNode p)) :
    ∃ n ∈ registry :: (p :: pages).map freeListNode, a = n ∨ a = n + 4 := by
  have hprev : listPrev s.mem (freeListNode p) = registry := h.ring.path.2.1
  have hnext := h.ring.next_first_mem
  simp only [listDelAccesses, hprev, List.mem_cons, List.not_mem_nil, or_false] at ha
  have hentry : freeListNode p ∈ registry :: (p :: pages).map freeListNode := by simp
  rcases ha with rfl | rfl | rfl | rfl | rfl | rfl
  · exact ⟨_, hentry, .inr rfl⟩
  · exact ⟨_, hentry, .inl rfl⟩
  · exact ⟨_, List.mem_cons_self, .inl rfl⟩
  · refine ⟨_, ?_, .inr rfl⟩
    simp only [List.mem_cons, List.map_cons] at hnext ⊢
    tauto
  · exact ⟨_, hentry, .inl rfl⟩
  · exact ⟨_, hentry, .inr rfl⟩

theorem reports_of_cons (h : FreeList registry s.mem (p :: pages)) :
    ReportsExhaustion registry (p :: pages) s := by
  refine ⟨?_, fun e => absurd e (by simp)⟩
  intro a ha x hx
  have hlinks : ∀ n ∈ registry :: (p :: pages).map freeListNode, a = n ∨ a = n + 4 →
      PoolByte registry (p :: pages) x := by
    rintro n hn (rfl | rfl)
    · exact .of_node h hn (within_links.mpr (.inl hx))
    · exact .of_node h hn (within_links.mpr (.inr hx))
  have hlock : a = prShoudLock registry → PoolByte registry (p :: pages) x := by
    rintro rfl
    refine .inl ?_
    unfold Within prShoudLock registrySize at *
    bv_omega
  rw [kpallocAccesses_eq, h.first, if_neg (h.usable p (by simp)).nonnull] at ha
  simp only [List.cons_append, List.nil_append, List.mem_cons, List.mem_append, List.not_mem_nil,
    or_false] at ha
  rcases ha with rfl | ha | ha | ha | ha
  · exact .of_header h (by simp) (within_header.mpr (.inl hx))
  · exact hlock ha
  · obtain ⟨n, hn, ha⟩ := listDelAccesses_first h ha
    exact hlinks n hn ha
  · exact hlinks registry (by simp) (.inl ha)
  · exact hlock ha

/-- With no page free, the unlink runs on the node of the null page. Its links
are in the registry only for a registry at address 4, and are cleared. -/
theorem not_reports_of_nil (h : FreeList registry s.mem []) (hobject : registry ≠ 0) :
    ¬ ReportsExhaustion registry [] s := by
  intro hreports
  have hword : ∀ a ∈ listDelAccesses s.mem 4, Within registry registrySize a := by
    intro a ha
    have haccess : a ∈ kpallocAccesses registry s.mem := by
      rw [kpallocAccesses_eq, h.first_nil]
      exact List.mem_append_left _ (List.mem_append_right _ (List.mem_cons_of_mem _ ha))
    rcases hreports.accesses a haccess a (within_word.mpr (.inl rfl)) with hin | hin
    · exact hin
    · simp at hin
  have hprev := hword 8 (by simp [listDelAccesses])
  have hnext := hword 4 (by simp [listDelAccesses])
  have haligned := h.registry_aligned
  have hregistry : registry = 4 := by
    unfold Within registrySize Aligned4 at *
    bv_omega
  subst hregistry
  obtain ⟨s', hs', hkept⟩ := hreports.exhausted rfl
  rw [kpalloc_nil h] at hs'
  injection hs' with hs'
  injection hs' with _ hs'
  subst hs'
  have hcleared : listNext (listDel s.mem 4) 4 = 0 := by
    rw [listNext, listDel, Memory.loadWord_storeWord_aligned _ _ (by decide) (by decide),
      if_neg (by decide), Memory.loadWord_storeWord]
  have hhead : listNext s.mem 4 = 4 := (ring_nil.mp h.ring).1
  have hsame : listNext (listDel s.mem 4) 4 = listNext s.mem 4 :=
    Memory.loadWord_congr fun x hx => hkept x (by unfold Within registrySize at *; omega)
  rw [hcleared, hhead] at hsame
  exact absurd hsame (by decide)

end Accesses

/-- In every run that never asks for a page when none is free, each state
reached reports exhaustion exactly while a page is left. No C object is at the
null address. -/
theorem kpalloc_reports_exhaustion_iff (registry : Addr) (s : Kernel)
    (hempty : EmptyRegistry registry s.mem) (hobject : registry ≠ 0) (rs : List Request)
    (hlegal : LegalRun registry ⟨[], []⟩ rs) :
    ∃ s', serveAll registry s rs = .ok ((Pool.run ⟨[], []⟩ rs).1, s') ∧
      FreeList registry s'.mem (Pool.run ⟨[], []⟩ rs).2.queue ∧
      (ReportsExhaustion registry (Pool.run ⟨[], []⟩ rs).2.queue s' ↔
        (Pool.run ⟨[], []⟩ rs).2.queue ≠ []) := by
  obtain ⟨s', hs', hfree⟩ := serveAll_simulates ⟨[], []⟩ rs hempty.freeList hlegal
  refine ⟨s', hs', hfree, ?_⟩
  cases hqueue : (Pool.run ⟨[], []⟩ rs).2.queue with
  | nil =>
      rw [hqueue] at hfree
      exact iff_of_false (not_reports_of_nil hfree hobject) (by simp)
  | cons p pages =>
      rw [hqueue] at hfree
      exact iff_of_true (reports_of_cons hfree) (by simp)

/-- Two pages are freed and one is handed out: the other is reported. -/
theorem kpalloc_reports_exhaustion_left :
    ∃ s', serveAll 0x80110040 ⟨initialMemory 0x80110040, []⟩
        [.kpfree 0x80200000, .kpfree 0x80201000, .kpalloc] =
          .ok ([none, none, some 0x80200000], s') ∧
      ReportsExhaustion 0x80110040 [0x80201000] s' := by
  have hrun : Pool.run ⟨[], []⟩ [.kpfree 0x80200000, .kpfree 0x80201000, .kpalloc] =
      ([none, none, some 0x80200000], ⟨[0x80201000], [0x80200000]⟩) := by decide
  obtain ⟨s', hs', -, hiff⟩ := kpalloc_reports_exhaustion_iff 0x80110040
    ⟨initialMemory 0x80110040, []⟩ (initialMemory_empty (by decide)) (by decide)
    [.kpfree 0x80200000, .kpfree 0x80201000, .kpalloc] (by decide)
  rw [hrun] at hs' hiff
  exact ⟨s', hs', hiff.mpr (by simp)⟩

/-- The one page is handed out; the next call works on the words at 4 and 8,
which are neither the registry's nor a page's. -/
theorem kpalloc_unlinks_null :
    ∃ s', serveAll 0x80110040 ⟨initialMemory 0x80110040, []⟩ [.kpfree 0x80200000, .kpalloc] =
        .ok ([none, some 0x80200000], s') ∧
      8 ∈ kpallocAccesses 0x80110040 s'.mem ∧ ¬ PoolByte 0x80110040 [] 8 ∧
      ¬ ReportsExhaustion 0x80110040 [] s' := by
  have hlegal : LegalRun 0x80110040 ⟨[], []⟩ [.kpfree 0x80200000, .kpalloc] := by decide
  have hrun : Pool.run ⟨[], []⟩ [.kpfree 0x80200000, .kpalloc] =
      ([none, some 0x80200000], ⟨[], [0x80200000]⟩) := by decide
  have hempty : EmptyRegistry 0x80110040 (initialMemory 0x80110040) :=
    initialMemory_empty (by decide)
  obtain ⟨s', hs', hfree⟩ := @serveAll_simulates 0x80110040 ⟨initialMemory 0x80110040, []⟩
    ⟨[], []⟩ [.kpfree 0x80200000, .kpalloc] hempty.freeList hlegal
  rw [hrun] at hs' hfree
  refine ⟨s', hs', ?_, by unfold PoolByte; decide, not_reports_of_nil hfree (by decide)⟩
  rw [kpallocAccesses_eq, hfree.first_nil]
  exact List.mem_append_left _ (List.mem_append_right _ (by simp [listDelAccesses, freeListNode]))

end Yack.PageExhaustion
