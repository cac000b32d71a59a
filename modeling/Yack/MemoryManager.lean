import Yack.AddressSpaces

/-!
# The memory manager as one system

The allocator, the page tables and their clients share one memory. Clients ask
for pages, give pages back, fill the memory they own with `memset`, read it,
start to use a page of zeros as a page directory, and map ranges into their
directories; the tables of those directories come out of the same free list, in
the middle of a call.

The abstract side keeps the free list, who owns what, the tables handed to each
directory slot, every address space as a function, and the bytes clients know
they have written. As long as a page is left for every request that takes one, a
run of the code answers what the abstract run answers.
-/
namespace Yack.MemoryManager
open ByteMemory MemoryLayout KernelState PageAllocator PageTables AddressSpaces Memop

inductive Request where
  | kpalloc
  | kpfree (address : Addr)
  | kpfreeRange (start end_ : Addr)
  | memset (ptr : Addr) (val : Byte) (size : ℕ)
  | read (address : Addr)
  | useAsDirectory (page : Addr)
  | vmMapPages (call : MapCall)

inductive Reply where
  | done
  | page (address : Addr)
  | byte (b : Byte)
  | mapped (pages : ℤ)
  deriving DecidableEq, Repr

/-- One request on memory. No code runs when a client starts to use a page of
its own as a directory. -/
def serve (registry : Addr) (s : Kernel) : Request → Outcome (Reply × Kernel)
  | .kpalloc => (kpalloc registry s).map fun r => (.page r.1, r.2)
  | .kpfree p => (kpfree registry p s).map (.done, ·)
  | .kpfreeRange start end_ => (kpfreeRange registry start end_ s).map (.done, ·)
  | .memset ptr val size => .ok (.done, { s with mem := (memset s.mem ptr val size).2 })
  | .read a => .ok (.byte (s.mem.byte a), s)
  | .useAsDirectory _ => .ok (.done, s)
  | .vmMapPages c =>
      (vmMapPages registry c.directory c.vaddr c.paddr c.size c.permissions s).map
        fun r => (.mapped r.1, r.2)

def serveAll (registry : Addr) : Kernel → List Request → Outcome (List Reply × Kernel)
  | s, [] => .ok ([], s)
  | s, r :: rs =>
      match serve registry s r with
      | .error e => .error e
      | .ok (reply, s) => (serveAll registry s rs).map fun t => (reply :: t.1, t.2)

structure Space where
  queue : List Addr
  owned : List Addr
  dirs : List Addr
  tables : List Addr
  slots : Finset (Addr × Addr)
  view : Addr → Addr → Option Translation
  content : Addr → Option Byte

/-- Nothing is free, nothing is mapped, nothing is known. -/
def Space.empty : Space := ⟨[], [], [], [], ∅, fun _ _ => none, fun _ => none⟩

/-- Pages that change hands: what was written on them is forgotten. -/
def forget (content : Addr → Option Byte) (pages : List Addr) (x : Addr) : Option Byte :=
  if pages.contains (mmPagedown x) then none else content x

def Space.release (sp : Space) (pages : List Addr) : Space :=
  { sp with
    queue := sp.queue ++ pages
    owned := sp.owned.filter fun p => !pages.contains p
    content := forget sp.content pages }

/-- The slots of `call` that have no table yet. -/
def Space.missing (sp : Space) (c : MapCall) : Finset (Addr × Addr) := c.slots \ sp.slots

/-- The oldest `n` free pages become tables. -/
def Space.grant (sp : Space) (n : ℕ) : Space :=
  { sp with queue := sp.queue.drop n, tables := sp.tables ++ sp.queue.take n }

def Space.map (sp : Space) (c : MapCall) : Space :=
  { sp.grant (sp.missing c).card with
    slots := sp.slots ∪ c.slots
    view := fun d v => if d = c.directory ∧ c.Covers v then some (c.translate v) else sp.view d v }

/-- A legal request that takes pages finds them in the queue. -/
def Space.step (sp : Space) : Request → Reply × Space
  | .kpalloc =>
      match sp.queue with
      | [] => (.done, sp)
      | p :: ps => (.page p, { sp with queue := ps, owned := p :: sp.owned })
  | .kpfree p => (.done, sp.release [p])
  | .kpfreeRange start end_ =>
      (.done, sp.release (pagesBetween (mmPageup start) (mmPageup end_)))
  | .memset ptr val size =>
      (.done, { sp with
        content := fun x => if Within ptr size x then some val else sp.content x })
  | .read a => (.byte ((sp.content a).getD 0), sp)
  | .useAsDirectory d =>
      (.done, { sp with
        owned := sp.owned.filter fun p => !([d] : List Addr).contains p
        dirs := sp.dirs ++ [d]
        content := forget sp.content [d] })
  | .vmMapPages c => (.mapped c.pages.length, sp.map c)

def Space.run : Space → List Request → List Reply × Space
  | sp, [] => ([], sp)
  | sp, r :: rs =>
      let t := (sp.step r).2.run rs
      ((sp.step r).1 :: t.1, t.2)

/-- Bytes of no free page, directory, table or list head. -/
structure ClientByte (registry : Addr) (sp : Space) (x : Addr) : Prop where
  queue : mmPagedown x ∉ sp.queue
  dirs : mmPagedown x ∉ sp.dirs
  tables : mmPagedown x ∉ sp.tables
  head : ¬ Within registry 8 x

/-- A page a client may give back. -/
structure Returnable (registry : Addr) (sp : Space) (p : Addr) : Prop where
  usable : Usable registry p
  queue : p ∉ sp.queue
  dirs : p ∉ sp.dirs
  tables : p ∉ sp.tables

/-- A zeroed page of a client, in kernel data or from the allocator. -/
structure ZeroPage (registry : Addr) (sp : Space) (d : Addr) : Prop where
  aligned : PageAligned d
  outside : ¬ HoldsRegistry registry d
  queue : d ∉ sp.queue
  dirs : d ∉ sp.dirs
  tables : d ∉ sp.tables
  zero : ∀ x, mmPagedown x = d → sp.content x = some 0

/-- A page is free for each table that the call needs. -/
def Space.Room (sp : Space) (c : MapCall) : Prop := (sp.missing c).card ≤ sp.queue.length

instance (sp : Space) (c : MapCall) : Decidable (sp.Room c) := inferInstanceAs (Decidable (_ ≤ _))

def Legal (registry : Addr) (sp : Space) : Request → Prop
  | .kpalloc => sp.queue ≠ []
  | .kpfree p => Returnable registry sp p
  | .kpfreeRange start end_ =>
      ∀ p ∈ pagesBetween (mmPageup start) (mmPageup end_), Returnable registry sp p
  | .memset ptr _ size => size ≤ 2 ^ 32 ∧ ∀ x, Within ptr size x → ClientByte registry sp x
  | .read a => (sp.content a).isSome
  | .useAsDirectory d => ZeroPage registry sp d
  | .vmMapPages c => c.Legal sp.dirs ∧ sp.Room c

def LegalRun (registry : Addr) : Space → List Request → Prop
  | _, [] => True
  | sp, r :: rs => Legal registry sp r ∧ LegalRun registry (sp.step r).2 rs

/-- The pages a request frees. -/
def Request.freed : Request → List Addr
  | .kpfree p => [p]
  | .kpfreeRange start end_ => pagesBetween (mmPageup start) (mmPageup end_)
  | .kpalloc | .memset .. | .read _ | .useAsDirectory _ | .vmMapPages _ => []

/-- No page has two roles. -/
def Space.Exclusive (sp : Space) : Prop :=
  (sp.queue ++ sp.tables ++ sp.dirs ++ sp.owned).Nodup

section Bookkeeping
variable {registry p : Addr} {sp : Space} {pages : List Addr} {c : MapCall} {r : Request}

theorem Space.Exclusive.roles (h : sp.Exclusive) :
    sp.queue.Nodup ∧ sp.tables.Nodup ∧ sp.dirs.Nodup ∧ sp.owned.Nodup ∧
      (∀ p ∈ sp.queue, p ∉ sp.tables ∧ p ∉ sp.dirs ∧ p ∉ sp.owned) ∧
      (∀ p ∈ sp.tables, p ∉ sp.dirs ∧ p ∉ sp.owned) ∧ ∀ p ∈ sp.dirs, p ∉ sp.owned := by
  simp only [Space.Exclusive, List.nodup_append] at h
  grind

theorem Space.exclusive_of_roles
    (h : sp.queue.Nodup ∧ sp.tables.Nodup ∧ sp.dirs.Nodup ∧ sp.owned.Nodup ∧
      (∀ p ∈ sp.queue, p ∉ sp.tables ∧ p ∉ sp.dirs ∧ p ∉ sp.owned) ∧
      (∀ p ∈ sp.tables, p ∉ sp.dirs ∧ p ∉ sp.owned) ∧ ∀ p ∈ sp.dirs, p ∉ sp.owned) :
    sp.Exclusive := by
  simp only [Space.Exclusive, List.nodup_append]
  grind

theorem Space.release_exclusive (h : sp.Exclusive) (hnodup : pages.Nodup)
    (hpages : ∀ p ∈ pages, Returnable registry sp p) : (sp.release pages).Exclusive := by
  obtain ⟨hq, ht, hd, ho, hqs, hts, hds⟩ := h.roles
  refine Space.exclusive_of_roles ⟨?_, ht, hd, ho.filter _, ?_, ?_, ?_⟩
  · refine List.nodup_append.mpr ⟨hq, hnodup, ?_⟩
    intro p hp p' hp' e
    exact (hpages p' hp').queue (e ▸ hp)
  · intro p hp
    rcases List.mem_append.mp hp with hp | hp
    · exact ⟨(hqs p hp).1, (hqs p hp).2.1, fun ho => (hqs p hp).2.2 (List.mem_filter.mp ho).1⟩
    · refine ⟨(hpages p hp).tables, (hpages p hp).dirs, fun ho => ?_⟩
      simpa [hp] using (List.mem_filter.mp ho).2
  · intro p hp
    exact ⟨(hts p hp).1, fun ho => (hts p hp).2 (List.mem_filter.mp ho).1⟩
  · intro p hp ho
    exact hds p hp (List.mem_filter.mp ho).1

theorem Space.grant_exclusive (h : sp.Exclusive) (n : ℕ) : (sp.grant n).Exclusive := by
  refine (List.Perm.nodup_iff ?_).mp h
  refine List.Perm.append_right _ (List.Perm.append_right _ ?_)
  calc sp.queue ++ sp.tables
      = sp.queue.take n ++ (sp.queue.drop n ++ sp.tables) := by
        rw [← List.append_assoc, List.take_append_drop]
    List.Perm _ ((sp.queue.drop n ++ sp.tables) ++ sp.queue.take n) := List.perm_append_comm
    _ = sp.queue.drop n ++ (sp.tables ++ sp.queue.take n) := List.append_assoc _ _ _

theorem Space.step_exclusive (h : sp.Exclusive) (hr : Legal registry sp r) :
    (sp.step r).2.Exclusive := by
  cases r with
  | kpalloc =>
      obtain ⟨hq, ht, hd, ho, hqs, hts, hds⟩ := h.roles
      cases hqueue : sp.queue with
      | nil => exact absurd hqueue hr
      | cons p ps =>
          simp only [Space.step, hqueue]
          rw [hqueue] at hq hqs
          refine Space.exclusive_of_roles ?_
          simp only [List.nodup_cons, List.mem_cons] at *
          grind
  | kpfree p =>
      have hp : ∀ q ∈ [p], Returnable registry sp q := fun q hq => List.mem_singleton.mp hq ▸ hr
      exact Space.release_exclusive h (List.nodup_singleton p) hp
  | kpfreeRange start end_ => exact Space.release_exclusive h (pagesBetween_nodup _ _) hr
  | memset ptr val size => exact h
  | read a => exact h
  | useAsDirectory d =>
      obtain ⟨hq, ht, hd, ho, hqs, hts, hds⟩ := h.roles
      have hnew := hr.queue
      have hdirs := hr.dirs
      have htables := hr.tables
      refine Space.exclusive_of_roles ⟨hq, ht, ?_, ho.filter _, ?_, ?_, ?_⟩ <;>
        simp only [Space.step, List.nodup_append, List.mem_append, List.mem_filter] <;> grind
  | vmMapPages c => exact Space.grant_exclusive h _

end Bookkeeping

/-- The tables of the address spaces, with the slots they serve. -/
structure Tables (registry : Addr) (m : Memory Addr) (sp : Space)
    (table : Addr → Addr → Option Addr) : Prop where
  tree : TableTree registry m sp.dirs (sp.queue ++ sp.tables) sp.queue table
  slots : ∀ slot, slot ∈ sp.slots ↔ (table slot.1 slot.2).isSome
  dirs : ∀ slot ∈ sp.slots, slot.1 ∈ sp.dirs

structure Represents (registry : Addr) (m : Memory Addr) (sp : Space) : Prop where
  exclusive : sp.Exclusive
  tables : ∃ table, Tables registry m sp table
  view : ∀ d ∈ sp.dirs, ∀ v, pageWalk m (mmPhysaddr d) v = sp.view d v
  unmapped : ∀ d, d ∉ sp.dirs → ∀ v, sp.view d v = none
  content : ∀ x b, sp.content x = some b → ClientByte registry sp x ∧ m.byte x = b

section Trees
variable {registry : Addr} {m m' : Memory Addr} {sp : Space} {dirs queue queue' tables : List Addr}
  {table : Addr → Addr → Option Addr} {region : Addr → Prop}

theorem Represents.list (h : Represents registry m sp) : FreeList registry m sp.queue := by
  obtain ⟨table, htables⟩ := h.tables
  exact htables.tree.list

/-- The free list changes hands of pages that are neither directory nor table:
the tree and every walk stay. -/
theorem tableTree_reallocate (h : TableTree registry m dirs (queue ++ tables) queue table)
    (hlist : FreeList registry m' queue') (hf : m.Frame m' region)
    (hr : ∀ x, region x → mmPagedown x ∉ dirs ∧ mmPagedown x ∉ tables)
    (hq : ∀ p ∈ queue, p ∉ tables) (hq' : ∀ p ∈ queue', p ∉ dirs ∧ p ∉ tables) :
    TableTree registry m' dirs (queue' ++ tables) queue' table ∧
      ∀ d ∈ dirs, ∀ v, pageWalk m' (mmPhysaddr d) v = pageWalk m (mmPhysaddr d) v := by
  have htables : ∀ d ∈ dirs, ∀ i : Addr, i.toNat < 1024 → ∀ t, table d i = some t →
      Usable registry t ∧ t ∈ tables := by
    intro d hd i hi t ht
    obtain ⟨hu, hpool, hfree⟩ := h.own d hd i hi t ht
    exact ⟨hu, (List.mem_append.mp hpool).resolve_left hfree⟩
  have hentry : ∀ d ∈ dirs, ∀ i : Addr, i.toNat < 1024 →
      m'.loadWord (entryAddr d i) = m.loadWord (entryAddr d i) := by
    intro d hd i hi
    exact entry_unchanged hf (h.dir d hd).1 hi fun x hx hreg => (hr x hreg).1 (hx ▸ hd)
  have htree : TableTree registry m' dirs (queue' ++ tables) queue' table := by
    refine ⟨hlist, fun p hp => List.mem_append_left _ hp, ?_, ?_, ?_, h.distinct, ?_⟩
    · intro d hd
      obtain ⟨ha, ho, hpool⟩ := h.dir d hd
      refine ⟨ha, ho, fun hmem => ?_⟩
      rcases List.mem_append.mp hmem with hmem | hmem
      · exact (hq' d hmem).1 hd
      · exact hpool (List.mem_append_right _ hmem)
    · intro d hd i hi
      rw [hentry d hd i hi, h.entry d hd i hi]
    · intro d hd i hi t ht
      obtain ⟨hu, htt⟩ := htables d hd i hi t ht
      exact ⟨hu, List.mem_append_right _ htt, fun hq => (hq' t hq).2 htt⟩
    · intro p hp
      rcases List.mem_append.mp hp with hp | hp
      · exact .inl hp
      · refine .inr ((h.pool_used p (List.mem_append_right _ hp)).resolve_left ?_)
        exact fun hfree => hq p hfree hp
  refine ⟨htree, fun d hd v => ?_⟩
  rw [htree.walk hd, h.walk hd]
  cases ht : table d (x86PdIndex v) with
  | none => rfl
  | some t =>
      obtain ⟨hu, htt⟩ := htables d hd _ (x86PdIndex_lt v) t ht
      rw [Option.bind_some, Option.bind_some, entry_unchanged hf hu.aligned (x86PtIndex_lt v)
        fun x hx hreg => (hr x hreg).2 (hx ▸ htt)]

theorem Represents.table_usable (h : Represents registry m sp) {t : Addr} (ht : t ∈ sp.tables) :
    Usable registry t := by
  obtain ⟨table, htables⟩ := h.tables
  rcases htables.tree.pool_used t (List.mem_append_right _ ht) with hfree | ⟨d, hd, i, hi, hslot⟩
  · exact h.list.usable t hfree
  · exact (htables.tree.own d hd i hi t hslot).1

/-- The allocator's bytes are in no directory and no table. -/
theorem Represents.allocator_off (h : Represents registry m sp) {pages : List Addr}
    (hpages : ∀ p ∈ pages, Usable registry p ∧ p ∉ sp.dirs ∧ p ∉ sp.tables) {x : Addr}
    (hx : AllocatorBytes registry pages x) :
    mmPagedown x ∉ sp.dirs ∧ mmPagedown x ∉ sp.tables := by
  obtain ⟨table, htables⟩ := h.tables
  rcases hx.pagedown h.list.registry_aligned (fun p hp => (hpages p hp).1) with hx | hx
  · exact ⟨fun hd => (htables.tree.dir _ hd).2.1 hx, fun ht => (h.table_usable ht).outside hx⟩
  · exact (hpages _ hx).2

theorem Represents.queue_off (h : Represents registry m sp) {p : Addr} (hp : p ∈ sp.queue) :
    Usable registry p ∧ p ∉ sp.dirs ∧ p ∉ sp.tables := by
  obtain ⟨-, -, -, -, hroles, -⟩ := h.exclusive.roles
  exact ⟨h.list.usable p hp, (hroles p hp).2.1, (hroles p hp).1⟩

/-- What only concerns the free list and clients leaves the address spaces. -/
theorem Represents.reallocate {sp' : Space} (h : Represents registry m sp)
    (hsame : sp'.dirs = sp.dirs ∧ sp'.tables = sp.tables ∧ sp'.slots = sp.slots ∧
      sp'.view = sp.view)
    (hexcl : sp'.Exclusive) (hlist : FreeList registry m' sp'.queue) (hf : m.Frame m' region)
    (hr : ∀ x, region x → mmPagedown x ∉ sp.dirs ∧ mmPagedown x ∉ sp.tables)
    (hcontent : ∀ x b, sp'.content x = some b → ClientByte registry sp' x ∧ m'.byte x = b) :
    Represents registry m' sp' := by
  obtain ⟨hdirs, htabs, hslots, hview⟩ := hsame
  obtain ⟨table, htables⟩ := h.tables
  obtain ⟨-, -, -, -, hroles, -⟩ := h.exclusive.roles
  obtain ⟨-, -, -, -, hroles', -⟩ := hexcl.roles
  obtain ⟨htree, hwalk⟩ := tableTree_reallocate htables.tree hlist hf hr
    (fun p hp => (hroles p hp).1) fun p hp => ⟨hdirs ▸ (hroles' p hp).2.1, htabs ▸ (hroles' p hp).1⟩
  refine ⟨hexcl, ⟨table, ?_, ?_, ?_⟩, ?_, ?_, hcontent⟩
  · rw [hdirs, htabs]
    exact htree
  · rw [hslots]
    exact htables.slots
  · rw [hslots, hdirs]
    exact htables.dirs
  · intro d hd v
    rw [hdirs] at hd
    rw [hwalk d hd v, hview, h.view d hd v]
  · intro d hd v
    rw [hview]
    exact h.unmapped d (hdirs ▸ hd) v

end Trees

section Allocator
variable {registry : Addr} {s : Kernel} {sp : Space}

theorem forget_eq_some {content : Addr → Option Byte} {pages : List Addr} {x : Addr} {b : Byte} :
    forget content pages x = some b ↔ mmPagedown x ∉ pages ∧ content x = some b := by
  unfold forget
  split <;> simp_all

/-- Client bytes are none of the allocator's. -/
theorem ClientByte.allocator {x : Addr} (h : ClientByte registry sp x) {pages : List Addr}
    (hpages : ∀ p ∈ pages, Usable registry p) (hx : mmPagedown x ∉ pages) :
    ¬ AllocatorBytes registry pages x := by
  rintro (hhead | ⟨p, hp, hin⟩)
  · exact h.head hhead
  · exact hx (header_pagedown (hpages p hp).aligned hin ▸ hp)

theorem kpalloc_simulates {p : Addr} {ps : List Addr} (h : Represents registry s.mem sp)
    (hqueue : sp.queue = p :: ps) :
    ∃ s', kpalloc registry s = .ok (p, s') ∧
      Represents registry s'.mem { sp with queue := ps, owned := p :: sp.owned } := by
  have hlist := h.list
  rw [hqueue] at hlist
  obtain ⟨m, hm, hfree, hf, -⟩ := kpalloc_cons hlist
  have hlegal : Legal registry sp .kpalloc := by
    change sp.queue ≠ []
    rw [hqueue]
    exact List.cons_ne_nil _ _
  have hexcl := Space.step_exclusive h.exclusive hlegal
  simp only [Space.step, hqueue] at hexcl
  refine ⟨_, hm, h.reallocate ⟨rfl, rfl, rfl, rfl⟩ hexcl hfree hf ?_ ?_⟩
  · intro x hx
    exact h.allocator_off (fun q hq => h.queue_off (hqueue ▸ hq)) hx
  · intro x b hb
    obtain ⟨hclient, hbyte⟩ := h.content x b hb
    have hout : mmPagedown x ∉ p :: ps := hqueue ▸ hclient.queue
    refine ⟨⟨fun hq => hout (List.mem_cons_of_mem _ hq), hclient.dirs, hclient.tables,
      hclient.head⟩, ?_⟩
    rw [hf.1 x (hclient.allocator hlist.usable hout), hbyte]

/-- Pages return to the end of the free list, in either function that frees. -/
theorem release_simulates {pages : List Addr} {m : Memory Addr}
    (h : Represents registry s.mem sp) (hnodup : pages.Nodup)
    (hpages : ∀ p ∈ pages, Returnable registry sp p)
    (hlist : FreeList registry m (sp.queue ++ pages))
    (hf : s.mem.Frame m (AllocatorBytes registry (sp.queue ++ pages))) :
    Represents registry m (sp.release pages) := by
  have hexcl := Space.release_exclusive h.exclusive hnodup hpages
  refine h.reallocate ⟨rfl, rfl, rfl, rfl⟩ hexcl hlist hf ?_ ?_
  · intro x hx
    refine h.allocator_off (fun q hq => ?_) hx
    rcases List.mem_append.mp hq with hq | hq
    · exact h.queue_off hq
    · exact ⟨(hpages q hq).usable, (hpages q hq).dirs, (hpages q hq).tables⟩
  · intro x b hb
    obtain ⟨hout, hb⟩ := forget_eq_some.mp hb
    obtain ⟨hclient, hbyte⟩ := h.content x b hb
    have hqueue : mmPagedown x ∉ sp.queue ++ pages := by
      rw [List.mem_append, not_or]
      exact ⟨hclient.queue, hout⟩
    refine ⟨⟨hqueue, hclient.dirs, hclient.tables, hclient.head⟩, ?_⟩
    rw [hf.1 x (hclient.allocator hlist.usable hqueue), hbyte]

theorem kpfree_simulates {p : Addr} (h : Represents registry s.mem sp)
    (hp : Returnable registry sp p) :
    ∃ s', kpfree registry p s = .ok s' ∧ Represents registry s'.mem (sp.release [p]) := by
  obtain ⟨m, hm, hfree, hf⟩ := kpfree_ok h.list hp.usable hp.queue
  refine ⟨_, hm, release_simulates h (List.nodup_singleton p) ?_ hfree ?_⟩
  · intro q hq
    exact List.mem_singleton.mp hq ▸ hp
  · exact hf.mono fun x hx => hx.mono fun q hq => by simpa [or_comm] using hq

theorem kpfreeRange_simulates {start end_ : Addr} (h : Represents registry s.mem sp)
    (hp : ∀ p ∈ pagesBetween (mmPageup start) (mmPageup end_), Returnable registry sp p) :
    ∃ s', kpfreeRange registry start end_ s = .ok s' ∧
      Represents registry s'.mem
        (sp.release (pagesBetween (mmPageup start) (mmPageup end_))) := by
  obtain ⟨s', hs', hfree, hf, -⟩ :=
    kpfreeRange_ok h.list fun p hp' => ⟨(hp p hp').usable, (hp p hp').queue⟩
  exact ⟨s', hs', release_simulates h (pagesBetween_nodup _ _) hp hfree hf⟩

theorem memset_simulates {ptr : Addr} {val : Byte} {size : ℕ} (h : Represents registry s.mem sp)
    (hsize : size ≤ 2 ^ 32) (hclient : ∀ x, Within ptr size x → ClientByte registry sp x) :
    Represents registry (memset s.mem ptr val size).2 { sp with
      content := fun x => if Within ptr size x then some val else sp.content x } := by
  have hf := memsetLoop_frame val size ptr s.mem hsize
  refine h.reallocate ⟨rfl, rfl, rfl, rfl⟩ h.exclusive ?_ hf ?_ ?_
  · refine h.list.congr fun x hx => hf.1 x fun hin => ?_
    exact (hclient x hin).allocator h.list.usable (hclient x hin).queue hx
  · intro x hin
    exact ⟨(hclient x hin).dirs, (hclient x hin).tables⟩
  · intro x b hb
    change (if Within ptr size x then some val else sp.content x) = some b at hb
    rw [memset, memsetLoop_byte val size ptr x s.mem hsize]
    by_cases hin : Within ptr size x
    · rw [if_pos hin, Option.some.injEq] at hb
      obtain ⟨hq, hd, ht, hh⟩ := hclient x hin
      exact ⟨⟨hq, hd, ht, hh⟩, by rw [if_pos hin, hb]⟩
    · rw [if_neg hin] at hb
      obtain ⟨⟨hq, hd, ht, hh⟩, hbyte⟩ := h.content x b hb
      exact ⟨⟨hq, hd, ht, hh⟩, by rw [if_neg hin, hbyte]⟩

end Allocator

section Mapping
variable {registry : Addr} {s : Kernel} {sp : Space} {c : MapCall}

/-- A page of zeros is a directory that maps nothing. -/
theorem useAsDirectory_simulates {m : Memory Addr} {d : Addr}
    (h : Represents registry m sp) (hd : ZeroPage registry sp d) :
    Represents registry m (sp.step (.useAsDirectory d)).2 := by
  have hexcl := Space.step_exclusive h.exclusive (show Legal registry sp (.useAsDirectory d) from hd)
  obtain ⟨table, htree, hslots, hdirs⟩ := h.tables
  have hempty : ∀ i, table d i = none := by
    intro i
    refine Option.not_isSome_iff_eq_none.mp fun hsome => hd.dirs ?_
    exact hdirs (d, i) ((hslots (d, i)).mpr hsome)
  have hzero : ∀ i : Addr, i.toNat < 1024 → m.loadWord (entryAddr d i) = 0 := by
    intro i hi
    refine loadWord_of_zero fun x hx => (h.content x 0 (hd.zero x ?_)).2
    rw [Aligned4.pagedown_within (entryAddr_aligned hd.aligned hi) hx,
      entryAddr_pagedown hd.aligned hi]
  have hmem : ∀ d', d' ∈ sp.dirs ++ [d] → d' ∈ sp.dirs ∨ d' = d := by
    intro d' hd'
    simpa using hd'
  have htree' : TableTree registry m (sp.dirs ++ [d]) (sp.queue ++ sp.tables) sp.queue table := by
    refine ⟨htree.list, htree.free_pool, ?_, ?_, ?_, ?_, ?_⟩
    · intro d' hd'
      rcases hmem d' hd' with hd' | rfl
      · exact htree.dir d' hd'
      · refine ⟨hd.aligned, hd.outside, ?_⟩
        rw [List.mem_append, not_or]
        exact ⟨hd.queue, hd.tables⟩
    · intro d' hd' i hi
      rcases hmem d' hd' with hd' | rfl
      · exact htree.entry d' hd' i hi
      · rw [hzero i hi, hempty i, Option.elim_none]
    · intro d' hd' i hi t ht
      rcases hmem d' hd' with hd' | rfl
      · exact htree.own d' hd' i hi t ht
      · simp [hempty] at ht
    · intro d₁ hd₁ d₂ hd₂ i₁ i₂ hi₁ hi₂ t ht₁ ht₂
      rcases hmem d₁ hd₁ with hd₁ | rfl
      · rcases hmem d₂ hd₂ with hd₂ | rfl
        · exact htree.distinct d₁ hd₁ d₂ hd₂ i₁ i₂ hi₁ hi₂ t ht₁ ht₂
        · simp [hempty] at ht₂
      · simp [hempty] at ht₁
    · intro p hp
      refine (htree.pool_used p hp).imp_right ?_
      rintro ⟨d', hd', hrest⟩
      exact ⟨d', List.mem_append_left _ hd', hrest⟩
  refine ⟨hexcl, ⟨table, htree', hslots, ?_⟩, ?_, ?_, ?_⟩
  · intro slot hslot
    exact List.mem_append_left _ (hdirs slot hslot)
  · intro d' hd' v
    rcases hmem d' hd' with hd' | rfl
    · exact h.view d' hd' v
    · rw [htree'.walk hd', hempty, Option.bind_none]
      exact (h.unmapped d' hd.dirs v).symm
  · intro d' hd' v
    exact h.unmapped d' (fun hold => hd' (List.mem_append_left _ hold)) v
  · intro x b hb
    obtain ⟨hout, hb⟩ := forget_eq_some.mp hb
    obtain ⟨⟨hq, hdx, ht, hh⟩, hbyte⟩ := h.content x b hb
    refine ⟨⟨hq, ?_, ht, hh⟩, hbyte⟩
    simp only [Space.step, List.mem_append, not_or]
    exact ⟨hdx, hout⟩

/-- The views with the page `p` of the call mapped. -/
def Space.override (sp : Space) (c : MapCall) (p : Addr) : Addr → Addr → Option Translation :=
  fun d v => if d = c.directory ∧ mmPagedown v = p then some (c.translate v) else sp.view d v

/-- One page of a call: a table is taken from the queue if its slot has none. -/
def Space.mapPage (c : MapCall) (sp : Space) (p : Addr) : Space :=
  if (c.directory, x86PdIndex p) ∈ sp.slots then { sp with view := sp.override c p }
  else { sp.grant 1 with
    slots := insert (c.directory, x86PdIndex p) sp.slots
    view := sp.override c p }

/-- What a mapping writes belongs to no client. -/
theorem ClientByte.footprint {x : Addr} (h : ClientByte registry sp x) :
    ¬ Footprint registry sp.dirs (sp.queue ++ sp.tables) x := by
  rintro (hx | hx | hx)
  · exact h.head hx
  · exact h.dirs hx
  · rcases List.mem_append.mp hx with hx | hx
    · exact h.queue hx
    · exact h.tables hx

/-- A tree is the same whichever way its pool is listed. -/
theorem tableTree_pool {m : Memory Addr} {dirs pool pool' free : List Addr}
    {table : Addr → Addr → Option Addr} (h : TableTree registry m dirs pool free table)
    (hpool : ∀ p, p ∈ pool ↔ p ∈ pool') : TableTree registry m dirs pool' free table := by
  refine ⟨h.list, ?_, ?_, h.entry, ?_, h.distinct, ?_⟩
  · intro p hp
    exact (hpool p).mp (h.free_pool p hp)
  · intro d hd
    obtain ⟨ha, ho, hout⟩ := h.dir d hd
    exact ⟨ha, ho, fun hp => hout ((hpool d).mpr hp)⟩
  · intro d hd i hi t ht
    obtain ⟨hu, hp, hf⟩ := h.own d hd i hi t ht
    exact ⟨hu, (hpool t).mp hp, hf⟩
  · intro p hp
    exact h.pool_used p ((hpool p).mpr hp)

/-- A page's entry gives the call's translation, and no other walk changes. -/
theorem Represents.override_walk {p paddr : Addr} {m : Memory Addr}
    (h : Represents registry s.mem sp) (hpaddr : paddr = c.paddr + (p - c.vaddr))
    (hmaps : MapsPage s.mem m sp.dirs c.directory p paddr c.permissions) :
    ∀ d ∈ sp.dirs, ∀ v, pageWalk m (mmPhysaddr d) v = sp.override c p d v := by
  intro d hd v
  have hoff : p - c.vaddr + (v - p) = v - c.vaddr := by bv_omega
  have hphys : paddr + (v - p) = c.paddr + (v - c.vaddr) := by
    rw [hpaddr, BitVec.add_assoc, hoff]
  rw [hmaps d hd v, h.view d hd v, hphys]
  rfl

theorem Represents.override_unmapped {p : Addr} (h : Represents registry s.mem sp)
    (hd : c.directory ∈ sp.dirs) : ∀ d, d ∉ sp.dirs → ∀ v, sp.override c p d v = none := by
  intro d hd' v
  have hne : ¬ (d = c.directory ∧ mmPagedown v = p) := by
    rintro ⟨rfl, -⟩
    exact hd' hd
  rw [Space.override, if_neg hne, h.unmapped d hd' v]

section OnePage
variable {p paddr : Addr}

theorem mapPage_hit (h : Represents registry s.mem sp) (hd : c.directory ∈ sp.dirs)
    (hp : PageAligned p) (hpa : PageAligned paddr) (hperm : c.permissions.toNat ≤ 0xFFF)
    (hpaddr : paddr = c.paddr + (p - c.vaddr)) (hin : (c.directory, x86PdIndex p) ∈ sp.slots) :
    ∃ s', vmMapPage_ registry c.directory p paddr c.permissions s = .ok (0, s') ∧
      Represents registry s'.mem { sp with view := sp.override c p } := by
  obtain ⟨table, htree, hslots, hdirs⟩ := h.tables
  obtain ⟨t, ht⟩ := Option.isSome_iff_exists.mp ((hslots _).mp hin)
  obtain ⟨s', hrun, htree', hmaps, hf⟩ := vmMapPage_hit htree hd hp hpa hperm ht
  refine ⟨s', hrun, h.exclusive, ⟨table, htree', hslots, hdirs⟩, h.override_walk hpaddr hmaps,
    h.override_unmapped hd, ?_⟩
  intro x b hb
  obtain ⟨hclient, hbyte⟩ := h.content x b hb
  refine ⟨⟨hclient.queue, hclient.dirs, hclient.tables, hclient.head⟩, ?_⟩
  rw [hf.1 x hclient.footprint, hbyte]

theorem mapPage_miss (h : Represents registry s.mem sp) (hd : c.directory ∈ sp.dirs)
    (hp : PageAligned p) (hpa : PageAligned paddr) (hperm : c.permissions.toNat ≤ 0xFFF)
    (hpaddr : paddr = c.paddr + (p - c.vaddr)) (hin : (c.directory, x86PdIndex p) ∉ sp.slots)
    (hqueue : sp.queue ≠ []) :
    ∃ s', vmMapPage_ registry c.directory p paddr c.permissions s = .ok (0, s') ∧
      Represents registry s'.mem { sp.grant 1 with
        slots := insert (c.directory, x86PdIndex p) sp.slots
        view := sp.override c p } := by
  obtain ⟨table, htree, hslots, hdirs⟩ := h.tables
  obtain ⟨t, ts, hcons⟩ := List.exists_cons_of_ne_nil hqueue
  have hnone : table c.directory (x86PdIndex p) = none :=
    Option.not_isSome_iff_eq_none.mp fun hsome => hin ((hslots _).mpr hsome)
  rw [hcons] at htree
  obtain ⟨s', hrun, htree', hmaps, hf⟩ := vmMapPage_miss htree hd hp hpa hperm hnone
  have hgrant : sp.grant 1 = { sp with queue := ts, tables := sp.tables ++ [t] } := by
    simp only [Space.grant, hcons, List.drop_one, List.tail_cons, List.take_succ_cons,
      List.take_zero]
  have hexcl := Space.grant_exclusive h.exclusive 1
  rw [hgrant] at hexcl ⊢
  refine ⟨s', hrun, hexcl, ⟨addTable table c.directory (x86PdIndex p) t, ?_, ?_, ?_⟩,
    h.override_walk hpaddr hmaps, h.override_unmapped hd, ?_⟩
  · refine tableTree_pool htree' fun q => ?_
    simp only [List.mem_append, List.mem_cons, List.not_mem_nil, or_false]
    tauto
  · rintro ⟨d', i'⟩
    rw [Finset.mem_insert, hslots, addTable]
    by_cases hsame : d' = c.directory ∧ i' = x86PdIndex p
    · simp [hsame]
    · simp [hsame]
  · intro slot hs
    rcases Finset.mem_insert.mp hs with rfl | hs
    · exact hd
    · exact hdirs slot hs
  · intro x b hb
    obtain ⟨hclient, hbyte⟩ := h.content x b hb
    have hfoot := hclient.footprint
    have hout := hclient.queue
    rw [hcons] at hfoot hout
    rw [List.mem_cons, not_or] at hout
    refine ⟨⟨hout.2, hclient.dirs, ?_, hclient.head⟩, ?_⟩
    · rw [List.mem_append, List.mem_singleton, not_or]
      exact ⟨hclient.tables, hout.1⟩
    · rw [hf.1 x hfoot, hbyte]

/-- One page of a call does to memory what it does to the abstract spaces, if a
page is free when its slot has no table. -/
theorem mapPage_simulates (h : Represents registry s.mem sp)
    (hd : c.directory ∈ sp.dirs) (hp : PageAligned p) (hpa : PageAligned paddr)
    (hperm : c.permissions.toNat ≤ 0xFFF) (hpaddr : paddr = c.paddr + (p - c.vaddr))
    (hqueue : (c.directory, x86PdIndex p) ∉ sp.slots → sp.queue ≠ []) :
    ∃ s', vmMapPage_ registry c.directory p paddr c.permissions s = .ok (0, s') ∧
      Represents registry s'.mem (sp.mapPage c p) := by
  unfold Space.mapPage
  by_cases hin : (c.directory, x86PdIndex p) ∈ sp.slots
  · rw [if_pos hin]
    exact mapPage_hit h hd hp hpa hperm hpaddr hin
  · rw [if_neg hin]
    exact mapPage_miss h hd hp hpa hperm hpaddr hin (hqueue hin)

end OnePage

def slotsOf (d : Addr) (pages : List Addr) : Finset (Addr × Addr) :=
  (pages.map fun p => (d, x86PdIndex p)).toFinset

theorem slotsOf_cons (d p : Addr) (pages : List Addr) :
    slotsOf d (p :: pages) = insert (d, x86PdIndex p) (slotsOf d pages) := by
  simp [slotsOf]

/-- A slot that is new is counted once, however often the pages return to it. -/
theorem card_missing_cons {d p : Addr} {pages : List Addr} {slots : Finset (Addr × Addr)}
    (hin : (d, x86PdIndex p) ∉ slots) : (slotsOf d (p :: pages) \ slots).card =
      1 + (slotsOf d pages \ insert (d, x86PdIndex p) slots).card := by
  have hinsert : slotsOf d (p :: pages) \ slots =
      insert (d, x86PdIndex p) (slotsOf d pages \ insert (d, x86PdIndex p) slots) := by
    rw [slotsOf_cons, Finset.insert_sdiff_of_notMem _ hin]
    ext slot
    by_cases hs : slot = (d, x86PdIndex p) <;> simp [hs]
  rw [hinsert, Finset.card_insert_of_notMem (by simp), Nat.add_comm]

/-- What is left of the pages finds the tables that the first one leaves, and the
first one finds its own. -/
theorem room_tail {p : Addr} {pages : List Addr}
    (h : (slotsOf c.directory (p :: pages) \ sp.slots).card ≤ sp.queue.length) :
    ((c.directory, x86PdIndex p) ∉ sp.slots → sp.queue ≠ []) ∧
      (slotsOf c.directory pages \ (sp.mapPage c p).slots).card ≤
        (sp.mapPage c p).queue.length := by
  unfold Space.mapPage
  by_cases hin : (c.directory, x86PdIndex p) ∈ sp.slots
  · rw [slotsOf_cons, Finset.insert_sdiff_of_mem _ hin] at h
    rw [if_pos hin]
    exact ⟨fun hnew => absurd hin hnew, h⟩
  · rw [card_missing_cons hin] at h
    rw [if_neg hin]
    refine ⟨fun _ hnil => ?_, ?_⟩
    · rw [hnil, List.length_nil] at h
      omega
    · simp only [Space.grant, List.length_drop]
      omega

theorem Space.mapPage_dirs (sp : Space) (c : MapCall) (p : Addr) :
    (sp.mapPage c p).dirs = sp.dirs := by
  unfold Space.mapPage
  split_ifs <;> rfl

/-- The loop, from its `k`-th page on. -/
theorem mapPages_simulate (hc : c.Legal sp.dirs) {done rest : List Addr}
    (hsplit : done ++ rest = c.pages) (h : Represents registry s.mem sp)
    (hroom : (slotsOf c.directory rest \ sp.slots).card ≤ sp.queue.length) :
    ∃ s' paddr, rest.foldlM (mapStep registry c.directory c.permissions)
        (c.paddr + BitVec.ofNat 32 (4096 * done.length), (done.length : ℤ), s) =
          .ok (paddr, (c.pages.length : ℤ), s') ∧
      Represents registry s'.mem (rest.foldl (Space.mapPage c) sp) := by
  induction rest generalizing done sp s with
  | nil =>
      rw [List.append_nil] at hsplit
      exact ⟨s, _, by rw [hsplit]; rfl, h⟩
  | cons p rest ih =>
      have hpages : done ++ p :: rest = pagesBetween c.vaddr (mmPageup (c.vaddr + c.size)) := by
        rw [hsplit, MapCall.pages, hc.vaddr.pagedown]
      have hp : p = c.vaddr + BitVec.ofNat 32 (4096 * done.length) := pages_split hpages
      have haligned : PageAligned p := hp ▸ pageAligned_add hc.vaddr done.length
      have hoff : c.paddr + BitVec.ofNat 32 (4096 * done.length) = c.paddr + (p - c.vaddr) := by
        rw [hp]
        bv_omega
      obtain ⟨hqueue, hroom'⟩ := room_tail hroom
      obtain ⟨s', hrun, h'⟩ := mapPage_simulates h hc.directory haligned
        (pageAligned_add hc.paddr done.length) hc.permissions hoff hqueue
      have hnext : c.paddr + BitVec.ofNat 32 (4096 * done.length) + x86Pagesz =
          c.paddr + BitVec.ofNat 32 (4096 * (done ++ [p]).length) := by
        rw [List.length_append, List.length_singleton, Nat.mul_add, BitVec.ofNat_add,
          ← BitVec.add_assoc]
        rfl
      have hcount : (done.length : ℤ) + 1 = ((done ++ [p]).length : ℤ) := by simp
      have hsplit' : (done ++ [p]) ++ rest = c.pages := by rw [← hsplit, List.append_assoc]; rfl
      have hc' : c.Legal (sp.mapPage c p).dirs := by rwa [Space.mapPage_dirs]
      have htail := ih hc' hsplit' h' hroom'
      simp only [List.foldlM_cons, mapStep, hrun]
      simp only [bind, Except.bind, pure, Except.pure, hnext, hcount]
      exact htail

end Mapping

section OneStep
variable {registry : Addr} {s : Kernel} {sp : Space} {c : MapCall}

/-- The spaces after the pages of a call, taken together. -/
def Space.mapAll (sp : Space) (c : MapCall) (pages : List Addr) : Space :=
  { sp.grant (slotsOf c.directory pages \ sp.slots).card with
    slots := sp.slots ∪ slotsOf c.directory pages
    view := fun d v =>
      if d = c.directory ∧ pages.contains (mmPagedown v) then some (c.translate v)
      else sp.view d v }

theorem Space.ext {a b : Space} (hqueue : a.queue = b.queue) (howned : a.owned = b.owned)
    (hdirs : a.dirs = b.dirs) (htables : a.tables = b.tables) (hslots : a.slots = b.slots)
    (hview : ∀ d v, a.view d v = b.view d v) (hcontent : a.content = b.content) : a = b := by
  obtain ⟨⟩ := a
  obtain ⟨⟩ := b
  simp only [Space.mk.injEq]
  exact ⟨hqueue, howned, hdirs, htables, hslots, funext fun d => funext (hview d), hcontent⟩

theorem Space.mapAll_view (sp : Space) (c : MapCall) (p : Addr) (pages : List Addr) (d v : Addr) :
    (if d = c.directory ∧ pages.contains (mmPagedown v) then some (c.translate v)
      else sp.override c p d v) = (sp.mapAll c (p :: pages)).view d v := by
  simp only [Space.mapAll, Space.override, List.contains_iff_mem, List.mem_cons]
  by_cases hrest : d = c.directory ∧ mmPagedown v ∈ pages
  · simp [hrest]
  · by_cases hp : d = c.directory ∧ mmPagedown v = p
    · rw [if_neg hrest, if_pos hp, if_pos ⟨hp.1, .inl hp.2⟩]
    · rw [if_neg hrest, if_neg hp, if_neg (by tauto)]

/-- Page by page the call takes one table for each of its missing slots. -/
theorem Space.mapPages_eq (sp : Space) (c : MapCall) (pages : List Addr) :
    pages.foldl (Space.mapPage c) sp = sp.mapAll c pages := by
  induction pages generalizing sp with
  | nil =>
      refine Space.ext ?_ rfl rfl ?_ ?_ ?_ rfl <;>
        simp [Space.mapAll, Space.grant, slotsOf]
  | cons p pages ih =>
      rw [List.foldl_cons, ih, Space.mapPage]
      by_cases hin : (c.directory, x86PdIndex p) ∈ sp.slots
      · have hsame : slotsOf c.directory (p :: pages) \ sp.slots =
            slotsOf c.directory pages \ sp.slots := by
          rw [slotsOf_cons, Finset.insert_sdiff_of_mem _ hin]
        rw [if_pos hin]
        refine Space.ext ?_ rfl rfl ?_ ?_ ?_ rfl
        · simp only [Space.mapAll, Space.grant, hsame]
        · simp only [Space.mapAll, Space.grant, hsame]
        · simp only [Space.mapAll]
          rw [slotsOf_cons, Finset.union_insert, Finset.insert_eq_of_mem]
          exact Finset.mem_union_left _ hin
        · exact Space.mapAll_view sp c p pages
      · have hcard := @card_missing_cons _ _ pages _ hin
        rw [if_neg hin]
        refine Space.ext ?_ rfl rfl ?_ ?_ ?_ rfl
        · simp only [Space.mapAll, Space.grant, hcard, List.drop_drop]
        · simp only [Space.mapAll, Space.grant, hcard, List.append_assoc, List.take_add]
        · simp only [Space.mapAll]
          rw [slotsOf_cons, Finset.union_insert, Finset.insert_union]
        · exact Space.mapAll_view sp c p pages

theorem vmMapPages_simulates (hc : c.Legal sp.dirs) (hroom : sp.Room c)
    (h : Represents registry s.mem sp) :
    ∃ s', vmMapPages registry c.directory c.vaddr c.paddr c.size c.permissions s =
        .ok ((c.pages.length : ℤ), s') ∧ Represents registry s'.mem (sp.map c) := by
  have hmap : sp.mapAll c c.pages = sp.map c := by
    refine Space.ext rfl rfl rfl rfl rfl ?_ rfl
    intro d v
    simp only [Space.mapAll, Space.map, List.contains_iff_mem, mem_pages hc.vaddr]
  obtain ⟨s', paddr, hrun, h'⟩ :=
    @mapPages_simulate registry _ _ _ hc _ _ (List.nil_append c.pages) h hroom
  rw [List.length_nil, Nat.mul_zero, show ((0 : ℕ) : ℤ) = 0 from rfl,
    show c.paddr + BitVec.ofNat 32 0 = c.paddr from BitVec.add_zero _] at hrun
  rw [Space.mapPages_eq, hmap] at h'
  rw [vmMapPages_eq hc.vaddr]
  exact ⟨s', by rw [hrun]; rfl, h'⟩

end OneStep

section Runs
variable {registry : Addr} {s : Kernel} {sp : Space}

/-- One request: the code answers what the abstract manager answers. -/
theorem serve_simulates {r : Request} (h : Represents registry s.mem sp)
    (hr : Legal registry sp r) : ∃ s', serve registry s r = .ok ((sp.step r).1, s') ∧
      Represents registry s'.mem (sp.step r).2 := by
  cases r with
  | kpalloc =>
      obtain ⟨p, ps, hqueue⟩ := List.exists_cons_of_ne_nil hr
      obtain ⟨s', hs', h'⟩ := kpalloc_simulates h hqueue
      refine ⟨s', ?_⟩
      simp only [Space.step, hqueue]
      exact ⟨by rw [serve, hs']; rfl, h'⟩
  | kpfree p =>
      obtain ⟨s', hs', h'⟩ := kpfree_simulates h hr
      exact ⟨s', by rw [serve, hs']; rfl, h'⟩
  | kpfreeRange start end_ =>
      obtain ⟨s', hs', h'⟩ := kpfreeRange_simulates h hr
      exact ⟨s', by rw [serve, hs']; rfl, h'⟩
  | memset ptr val size => exact ⟨_, rfl, memset_simulates h hr.1 hr.2⟩
  | read a =>
      obtain ⟨b, hb⟩ := Option.isSome_iff_exists.mp hr
      refine ⟨s, ?_, h⟩
      rw [serve, (h.content a b hb).2, Space.step, hb, Option.getD_some]
  | useAsDirectory d => exact ⟨s, rfl, useAsDirectory_simulates h hr⟩
  | vmMapPages c =>
      obtain ⟨s', hs', h'⟩ := vmMapPages_simulates hr.1 hr.2 h
      exact ⟨s', by rw [serve, hs']; rfl, h'⟩

theorem serveAll_simulates {rs : List Request} (h : Represents registry s.mem sp)
    (hr : LegalRun registry sp rs) : ∃ s', serveAll registry s rs = .ok ((sp.run rs).1, s') ∧
      Represents registry s'.mem (sp.run rs).2 := by
  induction rs generalizing s sp with
  | nil => exact ⟨s, rfl, h⟩
  | cons r rs ih =>
      obtain ⟨s₁, hserve, h₁⟩ := serve_simulates h hr.1
      obtain ⟨s', hrest, h'⟩ := ih h₁ hr.2
      refine ⟨s', ?_, h'⟩
      rw [serveAll, hserve]
      simp only [hrest]
      rfl

end Runs

end Yack.MemoryManager
