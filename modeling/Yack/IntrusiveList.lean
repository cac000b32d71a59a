import Yack.LinkRing
import Yack.MemoryLayout

/-!
# The intrusive list of `utils/include/list.h`

`struct list_head` is two pointers, `next` at offset 0 and `prev` at offset 4,
embedded in the object it links. The functions below are the raw stores of the
header, in its order. Reading the two fields of every node turns a memory into
the link functions of `LinkRing`, and the two operations the page allocator
uses become the two edits of a ring.
-/
namespace Yack.IntrusiveList
open ByteMemory MemoryLayout LinkRing

def listNext (m : Memory Addr) (node : Addr) : Addr := m.loadWord node
def listPrev (m : Memory Addr) (node : Addr) : Addr := m.loadWord (node + 4)

/-- `__list_add`: the four stores, in order. -/
def listAddBetween (m : Memory Addr) (new prev next : Addr) : Memory Addr :=
  let m := m.storeWord (next + 4) new
  let m := m.storeWord new next
  let m := m.storeWord (new + 4) prev
  m.storeWord prev new

def listAddTail (m : Memory Addr) (new head : Addr) : Memory Addr :=
  listAddBetween m new (listPrev m head) head

/-- `__list_del`. -/
def listDelBetween (m : Memory Addr) (prev next : Addr) : Memory Addr :=
  let m := m.storeWord (next + 4) prev
  m.storeWord prev next

def listDel (m : Memory Addr) (entry : Addr) : Memory Addr :=
  let m := listDelBetween m (listPrev m entry) (listNext m entry)
  let m := m.storeWord entry 0
  m.storeWord (entry + 4) 0

/-- `list_first_entry_or_null`, with the offset `container_of` subtracts. -/
def listFirstEntryOrNull (m : Memory Addr) (head offset : Addr) : Addr :=
  let pos := listNext m head
  if pos ≠ head then pos - offset else 0

/-- Nodes whose two words are aligned and never overlap another node's words. -/
def Spaced (nodes : List Addr) : Prop :=
  (∀ x ∈ nodes, Aligned4 x) ∧ ∀ x ∈ nodes, ∀ y ∈ nodes, x ≠ y + 4

/-- The bytes of the links of `nodes`. -/
def LinkBytes (nodes : List Addr) (x : Addr) : Prop := ∃ n ∈ nodes, Within n 8 x

theorem within_links {a x : Addr} : Within a 8 x ↔ Within a 4 x ∨ Within (a + 4) 4 x := by
  unfold Within
  constructor
  · intro h
    by_cases hx : (x - a).toNat < 4
    · exact .inl hx
    · right; bv_omega
  · rintro (h | h) <;> bv_omega

theorem Spaced.mono {small large : List Addr} (h : Spaced large)
    (hsub : ∀ x ∈ small, x ∈ large) : Spaced small :=
  ⟨fun x hx => h.1 x (hsub x hx), fun x hx y hy => h.2 x (hsub x hx) y (hsub y hy)⟩

section Nodes
variable {m : Memory Addr} {nodes : List Addr} {x y : Addr}

/-- Storing a forward link is a point update of `next` and leaves `prev`. -/
theorem Spaced.store_next (h : Spaced nodes) (hx : x ∈ nodes) (hy : y ∈ nodes) (v : Addr) :
    listNext (m.storeWord y v) x = (if x = y then v else listNext m x) ∧
      listPrev (m.storeWord y v) x = listPrev m x := by
  have hne : x + 4 ≠ y := fun e => h.2 y hy x hx e.symm
  refine ⟨m.loadWord_storeWord_aligned v (h.1 y hy) (h.1 x hx), ?_⟩
  rw [listPrev, m.loadWord_storeWord_aligned v (h.1 y hy) (h.1 x hx).add_four, if_neg hne, listPrev]

theorem Spaced.store_prev (h : Spaced nodes) (hx : x ∈ nodes) (hy : y ∈ nodes) (v : Addr) :
    listPrev (m.storeWord (y + 4) v) x = (if x = y then v else listPrev m x) ∧
      listNext (m.storeWord (y + 4) v) x = listNext m x := by
  have hsame : x + 4 = y + 4 ↔ x = y := ⟨fun e => by bv_omega, fun e => by rw [e]⟩
  constructor
  · rw [listPrev, m.loadWord_storeWord_aligned v (h.1 y hy).add_four (h.1 x hx).add_four]
    simp only [hsame, listPrev]
  · rw [listNext, m.loadWord_storeWord_aligned v (h.1 y hy).add_four (h.1 x hx),
      if_neg (h.2 x hx y hy), listNext]

theorem frame_store_next (hx : x ∈ nodes) (v : Addr) :
    m.Frame (m.storeWord x v) (LinkBytes nodes) :=
  (m.frame_storeWord x v).mono fun _ hb => ⟨x, hx, within_links.mpr (.inl hb)⟩

theorem frame_store_prev (hx : x ∈ nodes) (v : Addr) :
    m.Frame (m.storeWord (x + 4) v) (LinkBytes nodes) :=
  (m.frame_storeWord (x + 4) v).mono fun _ hb => ⟨x, hx, within_links.mpr (.inr hb)⟩

end Nodes

section Operations
variable {m : Memory Addr} {head n : Addr} {ns : List Addr}

/-- `list_add_tail` appends to the ring and stores only to links of its nodes. -/
theorem listAddTail_ring (h : Ring (listNext m) (listPrev m) head ns)
    (hs : Spaced (n :: head :: ns)) (hnew : n ∉ head :: ns) :
    Ring (listNext (listAddTail m n head)) (listPrev (listAddTail m n head)) head (ns ++ [n]) ∧
      m.Frame (listAddTail m n head) (LinkBytes (n :: head :: ns)) := by
  have hn : n ∈ n :: head :: ns := by simp
  have hh : head ∈ n :: head :: ns := by simp
  have hold : ∀ x ∈ head :: ns, x ∈ n :: head :: ns := fun x hx => List.mem_cons_of_mem _ hx
  have hl : listPrev m head ∈ n :: head :: ns := hold _ h.prev_head_mem
  have hne : ∀ x ∈ head :: ns, x ≠ n := fun x hx e => hnew (e ▸ hx)
  have hnext : ∀ x ∈ n :: head :: ns, listNext (listAddTail m n head) x =
      if x = listPrev m head then n else if x = n then head else listNext m x := by
    intro x hx
    simp only [listAddTail, listAddBetween]
    rw [(hs.store_next hx hl _).1, (hs.store_prev hx hn _).2, (hs.store_next hx hn _).1,
      (hs.store_prev hx hh _).2]
  have hprev : ∀ x ∈ n :: head :: ns, listPrev (listAddTail m n head) x =
      if x = n then listPrev m head else if x = head then n else listPrev m x := by
    intro x hx
    simp only [listAddTail, listAddBetween]
    rw [(hs.store_next hx hl _).2, (hs.store_prev hx hn _).1, (hs.store_next hx hn _).2,
      (hs.store_prev hx hh _).1]
  constructor
  · refine h.link_last hnew ?_ ?_ ?_ ?_ ?_ ?_
    · rw [hnext _ hl, if_pos rfl]
    · rw [hprev n hn, if_pos rfl]
    · rw [hnext n hn, if_neg (hne _ h.prev_head_mem).symm, if_pos rfl]
    · rw [hprev head hh, if_neg (hne head (by simp)), if_pos rfl]
    · intro x hx hxl
      rw [hnext x (hold x hx), if_neg hxl, if_neg (hne x hx)]
    · intro x hx
      have hx' : x ∈ head :: ns := List.mem_cons_of_mem _ hx
      have hxh : x ≠ head := fun e => (List.nodup_cons.mp h.nodup).1 (e ▸ hx)
      rw [hprev x (hold x hx'), if_neg (hne x hx'), if_neg hxh]
  · exact (((frame_store_prev hh _).trans (frame_store_next hn _)).trans
      (frame_store_prev hn _)).trans (frame_store_next hl _)

/-- `list_del` of the oldest node pops the ring and nulls that node's links. -/
theorem listDel_ring (h : Ring (listNext m) (listPrev m) head (n :: ns))
    (hs : Spaced (head :: n :: ns)) :
    Ring (listNext (listDel m n)) (listPrev (listDel m n)) head ns ∧
      listNext (listDel m n) n = 0 ∧ listPrev (listDel m n) n = 0 ∧
      m.Frame (listDel m n) (LinkBytes (head :: n :: ns)) := by
  have hnodup := h.nodup
  simp only [List.nodup_cons, List.mem_cons, not_or] at hnodup
  have hn : n ∈ head :: n :: ns := by simp
  have hh : head ∈ head :: n :: ns := by simp
  have hold : ∀ x ∈ head :: ns, x ∈ head :: n :: ns := by
    intro x hx
    rcases List.mem_cons.mp hx with rfl | hx <;> simp_all
  have hf : listNext m n ∈ head :: n :: ns := hold _ h.next_first_mem
  have hne : ∀ x ∈ head :: ns, x ≠ n := by
    rintro x hx rfl
    rcases List.mem_cons.mp hx with hx | hx
    · exact hnodup.1.1 hx.symm
    · exact hnodup.2.1 hx
  have hback : listPrev m n = head := h.path.2.1
  have hnext : ∀ x ∈ head :: n :: ns, listNext (listDel m n) x =
      if x = n then 0 else if x = head then listNext m n else listNext m x := by
    intro x hx
    simp only [listDel, listDelBetween, hback]
    rw [(hs.store_prev hx hn _).2, (hs.store_next hx hn _).1, (hs.store_next hx hh _).1,
      (hs.store_prev hx hf _).2]
  have hprev : ∀ x ∈ head :: n :: ns, listPrev (listDel m n) x =
      if x = n then 0 else if x = listNext m n then head else listPrev m x := by
    intro x hx
    simp only [listDel, listDelBetween, hback]
    rw [(hs.store_prev hx hn _).1, (hs.store_next hx hn _).2, (hs.store_next hx hh _).2,
      (hs.store_prev hx hf _).1]
  refine ⟨h.unlink_first ?_ ?_ ?_ ?_, ?_, ?_, ?_⟩
  · rw [hnext head hh, if_neg (hne head (by simp)), if_pos rfl]
  · rw [hprev _ hf, if_neg (hne _ h.next_first_mem), if_pos rfl]
  · intro x hx
    have hxh : x ≠ head := fun e => hnodup.1.2 (e ▸ hx)
    rw [hnext x (by simp [hx]), if_neg (hne x (by simp [hx])), if_neg hxh]
  · intro x hx hxf
    rw [hprev x (hold x hx), if_neg (hne x hx), if_neg hxf]
  · rw [hnext n hn, if_pos rfl]
  · rw [hprev n hn, if_pos rfl]
  · simp only [listDel, listDelBetween, hback]
    exact (((frame_store_prev hf _).trans (frame_store_next hh _)).trans
      (frame_store_next hn _)).trans (frame_store_prev hn _)

end Operations
end Yack.IntrusiveList
