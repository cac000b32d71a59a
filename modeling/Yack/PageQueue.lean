import Yack.PageAllocator

/-!
# The page allocator is a FIFO queue of pages

The abstract pool is a queue of free pages and the pages clients hold. The
concrete side serves the same requests with the functions of `pages.c` on raw
memory, where clients may overwrite any byte that is not the allocator's. A run
is legal when nobody frees a page twice, frees the page of the list head, asks
for a page when none is free, or writes to memory that is not theirs.
-/
namespace Yack.PageQueue
open ByteMemory MemoryLayout LinkRing IntrusiveList KernelState PageAllocator

inductive Request where
  | kpalloc
  | kpfree (address : Addr)
  | kpfreeRange (start end_ : Addr)
  | clientWrite (address : Addr) (byte : Byte)
  deriving DecidableEq, Repr

/-- The pages a request frees. -/
def Request.freed : Request → List Addr
  | .kpfree p => [p]
  | .kpfreeRange start end_ => pagesBetween (mmPageup start) (mmPageup end_)
  | .kpalloc | .clientWrite .. => []

def Request.writes : Request → Addr → Prop
  | .clientWrite a _, x => x = a
  | .kpalloc, _ | .kpfree _, _ | .kpfreeRange .., _ => False

/-- One request on memory, with the page `kpalloc` answers. -/
def serve (registry : Addr) (s : Kernel) : Request → Outcome (Option Addr × Kernel)
  | .kpalloc => (kpalloc registry s).map fun r => (some r.1, r.2)
  | .kpfree p => (kpfree registry p s).map (none, ·)
  | .kpfreeRange start end_ => (kpfreeRange registry start end_ s).map (none, ·)
  | .clientWrite a b => .ok (none, { s with mem := s.mem.store a b })

def serveAll (registry : Addr) : Kernel → List Request → Outcome (List (Option Addr) × Kernel)
  | s, [] => .ok ([], s)
  | s, r :: rs =>
      match serve registry s r with
      | .error e => .error e
      | .ok (reply, s) => (serveAll registry s rs).map fun t => (reply :: t.1, t.2)

structure Pool where
  queue : List Addr
  owned : List Addr
  deriving DecidableEq, Repr

/-- First in, first out; a freed page leaves its owner, if it had one. -/
def Pool.step (pool : Pool) : Request → Option Addr × Pool
  | .kpalloc =>
      match pool.queue with
      | [] => (none, pool)
      | p :: ps => (some p, ⟨ps, p :: pool.owned⟩)
  | .kpfree p => (none, ⟨pool.queue ++ [p], pool.owned.filter (· ∉ [p])⟩)
  | .kpfreeRange start end_ =>
      let pages := pagesBetween (mmPageup start) (mmPageup end_)
      (none, ⟨pool.queue ++ pages, pool.owned.filter (· ∉ pages)⟩)
  | .clientWrite .. => (none, pool)

def Pool.run : Pool → List Request → List (Option Addr) × Pool
  | pool, [] => ([], pool)
  | pool, r :: rs =>
      let a := pool.step r
      let b := a.2.run rs
      (a.1 :: b.1, b.2)

/-- Bytes that belong to no free page and not to the list head. -/
def ClientByte (registry : Addr) (pool : Pool) (x : Addr) : Prop :=
  mmPagedown x ∉ pool.queue ∧ ¬ Within registry 8 x

def Legal (registry : Addr) (pool : Pool) : Request → Prop
  | .kpalloc => pool.queue ≠ []
  | .kpfree p => Usable registry p ∧ p ∉ pool.queue
  | .kpfreeRange start end_ =>
      ∀ p ∈ pagesBetween (mmPageup start) (mmPageup end_), Usable registry p ∧ p ∉ pool.queue
  | .clientWrite a _ => ClientByte registry pool a

def LegalRun (registry : Addr) : Pool → List Request → Prop
  | _, [] => True
  | pool, r :: rs => Legal registry pool r ∧ LegalRun registry (pool.step r).2 rs

instance (registry : Addr) (pool : Pool) (x : Addr) : Decidable (ClientByte registry pool x) :=
  inferInstanceAs (Decidable (_ ∧ _))

instance (registry : Addr) (pool : Pool) (r : Request) : Decidable (Legal registry pool r) :=
  match r with
  | .kpalloc => inferInstanceAs (Decidable (pool.queue ≠ []))
  | .kpfree p => inferInstanceAs (Decidable (Usable registry p ∧ p ∉ pool.queue))
  | .kpfreeRange start end_ => List.decidableBAll (fun p => Usable registry p ∧ p ∉ pool.queue)
      (pagesBetween (mmPageup start) (mmPageup end_))
  | .clientWrite a _ => inferInstanceAs (Decidable (ClientByte registry pool a))

instance legalRunDecidable (registry : Addr) : ∀ (pool : Pool) (rs : List Request),
    Decidable (LegalRun registry pool rs)
  | _, [] => isTrue trivial
  | pool, r :: rs =>
      have := legalRunDecidable registry (pool.step r).2 rs
      inferInstanceAs (Decidable (Legal registry pool r ∧ LegalRun registry (pool.step r).2 rs))

/-- No page is free twice, owned twice, or both free and owned. -/
def Pool.Exclusive (pool : Pool) : Prop := (pool.queue ++ pool.owned).Nodup

theorem Pool.Exclusive.append {pool : Pool} {pages : List Addr} (h : pool.Exclusive)
    (hnodup : pages.Nodup) (hnew : ∀ p ∈ pages, p ∉ pool.queue) :
    Pool.Exclusive ⟨pool.queue ++ pages, pool.owned.filter (· ∉ pages)⟩ := by
  have hparts := List.nodup_append.mp h
  refine List.nodup_append.mpr ⟨List.nodup_append.mpr ⟨hparts.1, hnodup, ?_⟩,
    hparts.2.1.filter _, ?_⟩
  · intro p hp q hq hpq
    exact hnew q hq (hpq ▸ hp)
  · intro p hp q hq hpq
    obtain ⟨howned, hfresh⟩ := List.mem_filter.mp hq
    subst q
    rcases List.mem_append.mp hp with hp | hp
    · exact hparts.2.2 p hp p howned rfl
    · simp [hp] at hfresh

theorem Pool.step_exclusive {registry : Addr} {pool : Pool} {r : Request}
    (h : pool.Exclusive) (hr : Legal registry pool r) : (pool.step r).2.Exclusive := by
  cases r with
  | kpalloc =>
      obtain ⟨queue, owned⟩ := pool
      cases queue with
      | nil => exact h
      | cons p ps => exact (List.perm_middle.nodup_iff).mpr h
  | kpfree p => exact h.append (by simp) (by simpa using hr.2)
  | kpfreeRange start end_ =>
      exact h.append (pagesBetween_nodup _ _) fun p hp => (hr p hp).2
  | clientWrite a b => exact h

/-- A page the allocator has seen stays free or owned. -/
theorem Pool.step_keeps {pool : Pool} {r : Request} {p : Addr}
    (h : p ∈ pool.queue ∨ p ∈ pool.owned ∨ p ∈ r.freed) :
    p ∈ (pool.step r).2.queue ∨ p ∈ (pool.step r).2.owned := by
  cases r with
  | kpalloc =>
      obtain ⟨queue, owned⟩ := pool
      cases queue with
      | nil => simpa [Pool.step, Request.freed] using h
      | cons q qs =>
          simp only [Pool.step, Request.freed, List.mem_cons, List.not_mem_nil, or_false] at h ⊢
          tauto
  | kpfree q =>
      simp only [Pool.step, Request.freed, List.mem_append, List.mem_filter, decide_eq_true_eq] at h ⊢
      tauto
  | kpfreeRange start end_ =>
      simp only [Pool.step, Request.freed, List.mem_append, List.mem_filter, decide_eq_true_eq] at h ⊢
      tauto
  | clientWrite a b => simpa [Pool.step, Request.freed] using h

theorem Pool.run_keeps {pool : Pool} {rs : List Request} {p : Addr}
    (h : p ∈ pool.queue ∨ p ∈ pool.owned ∨ ∃ r ∈ rs, p ∈ r.freed) :
    p ∈ (pool.run rs).2.queue ∨ p ∈ (pool.run rs).2.owned := by
  induction rs generalizing pool with
  | nil => simpa [Pool.run] using h
  | cons r rs ih =>
      refine ih ?_
      have hstep : p ∈ pool.queue ∨ p ∈ pool.owned ∨ p ∈ r.freed →
          p ∈ (pool.step r).2.queue ∨ p ∈ (pool.step r).2.owned := Pool.step_keeps
      rcases h with h | h | ⟨r', hr', h⟩
      · exact (hstep (.inl h)).imp_right .inl
      · exact (hstep (.inr (.inl h))).imp_right .inl
      · rcases List.mem_cons.mp hr' with rfl | hr'
        · exact (hstep (.inr (.inr h))).imp_right .inl
        · exact .inr (.inr ⟨r', hr', h⟩)

theorem Pool.run_exclusive {registry : Addr} {pool : Pool} {rs : List Request}
    (h : pool.Exclusive) (hr : LegalRun registry pool rs) : (pool.run rs).2.Exclusive := by
  induction rs generalizing pool with
  | nil => exact h
  | cons r rs ih => exact ih (Pool.step_exclusive h hr.1) hr.2

section Simulation
variable {registry : Addr} {s : Kernel} {pool : Pool}

/-- One request: the memory answers what the queue answers, its ring is the
queue again, and bytes owned by clients before and after are as they were. -/
theorem serve_simulates {r : Request} (h : FreeList registry s.mem pool.queue)
    (hr : Legal registry pool r) :
    ∃ s', serve registry s r = .ok ((pool.step r).1, s') ∧
      FreeList registry s'.mem (pool.step r).2.queue ∧
      ∀ x, ClientByte registry pool x → ClientByte registry (pool.step r).2 x →
        ¬ r.writes x → s'.mem.byte x = s.mem.byte x := by
  have hframe : ∀ {m m' : Memory Addr} {pages : List Addr}, (∀ p ∈ pages, Usable registry p) →
      m.Frame m' (AllocatorBytes registry pages) → ∀ x, mmPagedown x ∉ pages →
      ¬ Within registry 8 x → m'.byte x = m.byte x := by
    intro m m' pages hu hf x hpage hhead
    refine hf.1 x ?_
    rintro (hx | ⟨p, hp, hx⟩)
    · exact hhead hx
    · exact hpage (header_pagedown (hu p hp).aligned hx ▸ hp)
  cases r with
  | kpalloc =>
      obtain ⟨queue, owned⟩ := pool
      cases queue with
      | nil => exact absurd rfl hr
      | cons p ps =>
          obtain ⟨m, hm, hfree, hf, -⟩ := kpalloc_cons h
          refine ⟨_, by rw [serve, hm]; rfl, hfree, ?_⟩
          intro x hx _ _
          exact hframe h.usable hf x hx.1 hx.2
  | kpfree p =>
      obtain ⟨m, hm, hfree, hf⟩ := kpfree_ok h hr.1 hr.2
      refine ⟨_, by rw [serve, hm]; rfl, hfree, ?_⟩
      intro x hx hx' _
      have hu : ∀ q ∈ p :: pool.queue, Usable registry q := by simpa [hr.1] using h.usable
      refine hframe hu hf x ?_ hx.2
      simpa [Pool.step, or_comm] using hx'.1
  | kpfreeRange start end_ =>
      obtain ⟨s', hs', hfree, hf, -⟩ := kpfreeRange_ok h hr
      refine ⟨s', by rw [serve, hs']; rfl, hfree, ?_⟩
      intro x hx hx' _
      exact hframe hfree.usable hf x hx'.1 hx.2
  | clientWrite a b =>
      refine ⟨_, rfl, h.congr fun x hx => ?_, ?_⟩
      · refine s.mem.store_byte_of_ne b ?_
        rintro rfl
        rcases hx with hx | ⟨p, hp, hx⟩
        · exact hr.2 hx
        · exact hr.1 (header_pagedown (h.usable p hp).aligned hx ▸ hp)
      · intro x _ _ hw
        exact s.mem.store_byte_of_ne b hw

theorem serveAll_simulates (pool : Pool) (rs : List Request)
    (h : FreeList registry s.mem pool.queue) (hr : LegalRun registry pool rs) :
    ∃ s', serveAll registry s rs = .ok ((pool.run rs).1, s') ∧
      FreeList registry s'.mem (pool.run rs).2.queue := by
  induction rs generalizing s pool with
  | nil => exact ⟨s, rfl, h⟩
  | cons r rs ih =>
      obtain ⟨s', hs', hfree, -⟩ := serve_simulates h hr.1
      obtain ⟨s'', hs'', hfree'⟩ := ih _ hfree hr.2
      exact ⟨s'', by rw [serveAll, hs', Pool.run]; simp only [hs'']; rfl, hfree'⟩

end Simulation

/-- Every legal run from the empty registry: no assertion fails, the replies
are those of the queue, the ring in memory is the queue, no page is lost or
owned twice, and whatever is asked next touches no byte of a client. -/
theorem page_allocator_refines_fifo (registry : Addr) (s : Kernel)
    (hempty : EmptyRegistry registry s.mem) (rs : List Request)
    (hlegal : LegalRun registry ⟨[], []⟩ rs) :
    ∃ s', serveAll registry s rs = .ok ((Pool.run ⟨[], []⟩ rs).1, s') ∧
      FreeList registry s'.mem (Pool.run ⟨[], []⟩ rs).2.queue ∧
      (Pool.run ⟨[], []⟩ rs).2.Exclusive ∧
      (∀ r ∈ rs, ∀ p ∈ r.freed,
        p ∈ (Pool.run ⟨[], []⟩ rs).2.queue ∨ p ∈ (Pool.run ⟨[], []⟩ rs).2.owned) ∧
      ∀ r, Legal registry (Pool.run ⟨[], []⟩ rs).2 r →
        ∃ s'', serve registry s' r = .ok (((Pool.run ⟨[], []⟩ rs).2.step r).1, s'') ∧
          FreeList registry s''.mem ((Pool.run ⟨[], []⟩ rs).2.step r).2.queue ∧
          ∀ x, ClientByte registry (Pool.run ⟨[], []⟩ rs).2 x →
            ClientByte registry ((Pool.run ⟨[], []⟩ rs).2.step r).2 x →
            ¬ r.writes x → s''.mem.byte x = s'.mem.byte x := by
  obtain ⟨s', hs', hfree⟩ :=
    serveAll_simulates ⟨[], []⟩ rs hempty.freeList hlegal
  refine ⟨s', hs', hfree, Pool.run_exclusive List.nodup_nil hlegal, ?_, ?_⟩
  · intro r hr p hp
    exact Pool.run_keeps (.inr (.inr ⟨r, hr, hp⟩))
  · intro r hr
    exact serve_simulates hfree hr

/-- A page is freed, then a range with ragged ends; the first page is handed
out, overwritten by its owner and freed again, behind the range. -/
theorem page_allocator_refines_fifo_run :
    ∃ s', serveAll 0x80110040 ⟨initialMemory 0x80110040, []⟩
        [.kpfree 0x80200000, .kpfreeRange 0x80300001 0x80302800, .kpalloc,
          .clientWrite 0x80200000 7, .kpfree 0x80200000] =
          .ok ([none, none, some 0x80200000, none, none], s') ∧
      FreeList 0x80110040 s'.mem [0x80301000, 0x80302000, 0x80200000] := by
  have hrun : Pool.run ⟨[], []⟩ [.kpfree 0x80200000, .kpfreeRange 0x80300001 0x80302800,
      .kpalloc, .clientWrite 0x80200000 7, .kpfree 0x80200000] =
      ([none, none, some 0x80200000, none, none],
        ⟨[0x80301000, 0x80302000, 0x80200000], []⟩) := by decide
  obtain ⟨s', hs', hfree, -⟩ := page_allocator_refines_fifo 0x80110040
    ⟨initialMemory 0x80110040, []⟩ (initialMemory_empty (by decide))
    [.kpfree 0x80200000, .kpfreeRange 0x80300001 0x80302800, .kpalloc,
      .clientWrite 0x80200000 7, .kpfree 0x80200000] (by decide)
  rw [hrun] at hs' hfree
  exact ⟨s', hs', hfree⟩

end Yack.PageQueue
