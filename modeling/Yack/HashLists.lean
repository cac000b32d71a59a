import Yack.ByteMemory
import Yack.ChainSurgery

/-!
# The chained lists of `utils/include/list.h`

`struct hlist_head` is one pointer, so that a table of heads takes half the room.
`struct hlist_node` has `next` at offset 0 and `pprev` at offset 4, the address of
the pointer that points at the node: the `first` of the head or the `next` of the
node before it, which are both at offset 0. Every order of the operations on any
number of heads and nodes leaves the lists it is meant to.
-/
namespace Yack.HashLists
open ByteMemory ChainSurgery
open ListSurgery (Links)

def hlistFirst (m : Memory Addr) (h : Addr) : Addr := m.loadWord h
def hlistNext (m : Memory Addr) (n : Addr) : Addr := m.loadWord n
def hlistPprev (m : Memory Addr) (n : Addr) : Addr := m.loadWord (n + 4)

def initHlistHead (m : Memory Addr) (ptr : Addr) : Memory Addr := m.storeWord ptr 0

def initHlistNode (m : Memory Addr) (h : Addr) : Memory Addr :=
  let m := m.storeWord h 0
  m.storeWord (h + 4) 0

def hlistUnhashed (m : Memory Addr) (h : Addr) : Bool := hlistPprev m h == 0

def hlistEmpty (m : Memory Addr) (h : Addr) : Bool := hlistFirst m h == 0

/-- The store to `pprev` of a node that may be NULL. -/
def storeBack (m : Memory Addr) (next pprev : Addr) : Memory Addr :=
  if next ≠ 0 then m.storeWord (next + 4) pprev else m

/-- `__hlist_del`. -/
def hlistUnlink (m : Memory Addr) (n : Addr) : Memory Addr :=
  let next := hlistNext m n
  let pprev := hlistPprev m n
  let m := m.storeWord pprev next
  storeBack m next pprev

/-- The comment of `hlist_del` has the node stay hashed; the code clears its `pprev`. -/
def hlistDel (m : Memory Addr) (n : Addr) : Memory Addr :=
  let m := hlistUnlink m n
  let m := m.storeWord n 0
  m.storeWord (n + 4) 0

def hlistDelInit (m : Memory Addr) (n : Addr) : Memory Addr :=
  if !hlistUnhashed m n then initHlistNode (hlistUnlink m n) n else m

def hlistAddHead (m : Memory Addr) (n h : Addr) : Memory Addr :=
  let first := hlistFirst m h
  let m := m.storeWord n first
  let m := storeBack m first n
  let m := m.storeWord h n
  m.storeWord (n + 4) h

def hlistAddBefore (m : Memory Addr) (n next : Addr) : Memory Addr :=
  let m := m.storeWord (n + 4) (hlistPprev m next)
  let m := m.storeWord n next
  let m := m.storeWord (next + 4) n
  m.storeWord (hlistPprev m n) n

def hlistAddBehind (m : Memory Addr) (n prev : Addr) : Memory Addr :=
  let m := m.storeWord n (hlistNext m prev)
  let m := m.storeWord prev n
  let m := m.storeWord (n + 4) prev
  storeBack m (hlistNext m n) n

def hlistAddFake (m : Memory Addr) (n : Addr) : Memory Addr := m.storeWord (n + 4) n

def hlistFake (m : Memory Addr) (h : Addr) : Bool := hlistPprev m h == h

def hlistIsSingularNode (m : Memory Addr) (n h : Addr) : Bool :=
  hlistNext m n == 0 && hlistPprev m n == h

def hlistMoveList (m : Memory Addr) (old new : Addr) : Memory Addr :=
  let m := m.storeWord new (hlistFirst m old)
  let m := storeBack m (hlistFirst m new) new
  m.storeWord old 0

inductive Operation where
  | initHlistHead (ptr : Addr)
  | initHlistNode (h : Addr)
  | hlistDel (n : Addr)
  | hlistDelInit (n : Addr)
  | hlistAddHead (n h : Addr)
  | hlistAddBefore (n next : Addr)
  | hlistAddBehind (n prev : Addr)
  | hlistAddFake (n : Addr)
  | hlistMoveList (old new : Addr)
  deriving DecidableEq, Repr

def Operation.run (m : Memory Addr) : Operation → Memory Addr
  | .initHlistHead ptr => HashLists.initHlistHead m ptr
  | .initHlistNode h => HashLists.initHlistNode m h
  | .hlistDel n => HashLists.hlistDel m n
  | .hlistDelInit n => HashLists.hlistDelInit m n
  | .hlistAddHead n h => HashLists.hlistAddHead m n h
  | .hlistAddBefore n next => HashLists.hlistAddBefore m n next
  | .hlistAddBehind n prev => HashLists.hlistAddBehind m n prev
  | .hlistAddFake n => HashLists.hlistAddFake m n
  | .hlistMoveList old new => HashLists.hlistMoveList m old new

/-- `hlist_for_each`: the positions it visits, given enough turns. -/
def hlistForEach (m : Memory Addr) : ℕ → Addr → Option (List Addr)
  | 0, _ => none
  | fuel + 1, pos =>
      if pos = 0 then some []
      else (hlistForEach m fuel (hlistNext m pos)).map (pos :: ·)

/-- What a head or a node is. Nothing is known of the pointers of a `raw` head and
of a `loose` node; a `fake` node is all there is of a list without a head. -/
inductive Place where
  | raw (head : Addr)
  | list (head : Addr) (entries : List Addr)
  | loose (node : Addr)
  | unhashed (node : Addr)
  | fake (node : Addr)
  deriving DecidableEq, Repr

@[simp] def Place.heads : Place → List Addr
  | .raw head | .list head _ => [head]
  | .loose _ | .unhashed _ | .fake _ => []

@[simp] def Place.nodes : Place → List Addr
  | .raw _ => []
  | .list _ entries => entries
  | .loose node | .unhashed node | .fake node => [node]

def headsOf (l : List Place) : List Addr := l.flatMap Place.heads
def nodesOf (l : List Place) : List Addr := l.flatMap Place.nodes

@[simp] theorem headsOf_nil : headsOf [] = [] := rfl
@[simp] theorem headsOf_cons (p : Place) (l : List Place) :
    headsOf (p :: l) = p.heads ++ headsOf l := rfl
@[simp] theorem nodesOf_nil : nodesOf [] = [] := rfl
@[simp] theorem nodesOf_cons (p : Place) (l : List Place) :
    nodesOf (p :: l) = p.nodes ++ nodesOf l := rfl

/-- What can be used as something less. -/
inductive Forgets : Place → Place → Prop where
  | unhashed {n} : Forgets (.unhashed n) (.loose n)
  | fake {n} : Forgets (.fake n) (.loose n)
  | empty {h} : Forgets (.list h []) (.raw h)

/-- One operation, where it may be used. -/
inductive Step : List Place → Operation → List Place → Prop where
  | initHlistHead {h l} : Step (.raw h :: l) (.initHlistHead h) (.list h [] :: l)
  | initHlistNode {n l} : Step (.loose n :: l) (.initHlistNode n) (.unhashed n :: l)
  | hlistDel {n h a b l} : Step (.list h (a ++ n :: b) :: l) (.hlistDel n)
      (.unhashed n :: .list h (a ++ b) :: l)
  | hlistDelFake {n l} : Step (.fake n :: l) (.hlistDel n) (.unhashed n :: l)
  | hlistDelInit {n h a b l} : Step (.list h (a ++ n :: b) :: l) (.hlistDelInit n)
      (.unhashed n :: .list h (a ++ b) :: l)
  | hlistDelInitFake {n l} : Step (.fake n :: l) (.hlistDelInit n) (.unhashed n :: l)
  | hlistDelInitUnhashed {n l} : Step (.unhashed n :: l) (.hlistDelInit n) (.unhashed n :: l)
  | hlistAddHead {n h ns l} : Step (.loose n :: .list h ns :: l) (.hlistAddHead n h)
      (.list h (n :: ns) :: l)
  | hlistAddBefore {n h x a b l} : Step (.loose n :: .list h (a ++ x :: b) :: l)
      (.hlistAddBefore n x) (.list h (a ++ n :: x :: b) :: l)
  | hlistAddBehind {n h x a b l} : Step (.loose n :: .list h (a ++ x :: b) :: l)
      (.hlistAddBehind n x) (.list h (a ++ x :: n :: b) :: l)
  | hlistAddFake {n l} : Step (.unhashed n :: l) (.hlistAddFake n) (.fake n :: l)
  | hlistMoveList {old new ns l} : Step (.list old ns :: .raw new :: l)
      (.hlistMoveList old new) (.list old [] :: .list new ns :: l)
  | forget {p p' op l l'} : Forgets p p' → Step (p' :: l) op l' → Step (p :: l) op l'
  | perm {op l₁ l₂ l₃ l₄} : l₁.Perm l₂ → Step l₂ op l₃ → l₃.Perm l₄ → Step l₁ op l₄

inductive Steps : List Place → List Operation → List Place → Prop where
  | nil {l} : Steps l [] l
  | cons {l op l' ops l''} : Step l op l' → Steps l' ops l'' → Steps l (op :: ops) l''

def links (m : Memory Addr) : Links Addr := ⟨hlistNext m, hlistPprev m⟩

def Place.Holds (f : Links Addr) : Place → Prop
  | .raw _ | .loose _ => True
  | .list head entries => Chain 0 f head entries
  | .unhashed node => f.next node = 0 ∧ f.prev node = 0
  | .fake node => f.next node = 0 ∧ f.prev node = node

/-- The pointers are aligned and share no word, and none of them is at NULL. A head
takes one word, so that heads may lie side by side. -/
structure Separate (heads nodes : List Addr) : Prop where
  aligned : ∀ x ∈ heads ++ nodes, Aligned4 x
  apart : ∀ x ∈ heads ++ nodes, ∀ n ∈ nodes, x ≠ n + 4
  nonnull : 0 ∉ heads ++ nodes

/-- The bytes of the heads and of the nodes. -/
def HlistBytes (heads nodes : List Addr) (x : Addr) : Prop :=
  (∃ h ∈ heads ++ nodes, Within h 4 x) ∨ ∃ n ∈ nodes, Within (n + 4) 4 x

structure Stored (heads nodes : List Addr) (m : Memory Addr) (l : List Place) : Prop where
  holds : ∀ p ∈ l, p.Holds (links m)
  nodup : (headsOf l ++ nodesOf l).Nodup
  heads : ∀ x ∈ headsOf l, x ∈ heads
  nodes : ∀ x ∈ nodesOf l, x ∈ nodes

/-- After some stores to the pointers, these are `f`. -/
structure Written (heads nodes : List Addr) (m : Memory Addr) (f : Links Addr)
    (m' : Memory Addr) : Prop where
  next : ∀ x ∈ heads ++ nodes, hlistNext m' x = f.next x
  prev : ∀ x ∈ nodes, hlistPprev m' x = f.prev x
  frame : m.Frame m' (HlistBytes heads nodes)

section Written
variable {heads nodes : List Addr} {m m' : Memory Addr} {f f' : Links Addr} {l : List Place}
  {p : Place} {n x y : Addr} {ns : List Addr}

theorem Written.refl (heads nodes : List Addr) (m : Memory Addr) :
    Written heads nodes m (links m) m :=
  ⟨fun _ _ => rfl, fun _ _ => rfl, Memory.Frame.refl m _⟩

theorem Written.setNext (hw : Written heads nodes m f m') (hs : Separate heads nodes)
    (hy : y ∈ heads ++ nodes) (v : Addr) :
    Written heads nodes m (f.setNext y v) (m'.storeWord y v) := by
  refine ⟨fun x hx => ?_, fun x hx => ?_, hw.frame.trans ?_⟩
  · rw [hlistNext, m'.loadWord_storeWord_aligned v (hs.aligned y hy) (hs.aligned x hx)]
    exact (if_congr Iff.rfl rfl (hw.next x hx)).trans (Function.update_apply f.next y v x).symm
  · have hx' := (hs.aligned x (List.mem_append_right _ hx)).add_four
    rw [hlistPprev, m'.loadWord_storeWord_aligned v (hs.aligned y hy) hx',
      if_neg (hs.apart y hy x hx).symm]
    exact hw.prev x hx
  · exact (m'.frame_storeWord y v).mono fun x hx => .inl ⟨y, hy, hx⟩

theorem Written.setPrev (hw : Written heads nodes m f m') (hs : Separate heads nodes)
    (hy : y ∈ nodes) (v : Addr) :
    Written heads nodes m (f.setPrev y v) (m'.storeWord (y + 4) v) := by
  have hy' := (hs.aligned y (List.mem_append_right _ hy)).add_four
  refine ⟨fun x hx => ?_, fun x hx => ?_, hw.frame.trans ?_⟩
  · rw [hlistNext, m'.loadWord_storeWord_aligned v hy' (hs.aligned x hx),
      if_neg (hs.apart x hx y hy)]
    exact hw.next x hx
  · have hx' := (hs.aligned x (List.mem_append_right _ hx)).add_four
    have hsame : x + 4 = y + 4 ↔ x = y := ⟨fun e => by bv_omega, fun e => by rw [e]⟩
    rw [hlistPprev, m'.loadWord_storeWord_aligned v hy' hx']
    exact (if_congr hsame rfl (hw.prev x hx)).trans (Function.update_apply f.prev y v x).symm
  · exact (m'.frame_storeWord (y + 4) v).mono fun x hx => .inr ⟨y, hy, hx⟩

/-- Only an empty list starts with NULL. -/
theorem Separate.first_eq (hs : Separate heads nodes) (hns : ∀ x ∈ ns, x ∈ nodes) :
    ns.headD 0 = 0 ↔ ns = [] := by
  cases ns with
  | nil => simp
  | cons n ns =>
      have hn : n ∈ heads ++ nodes := List.mem_append_right _ (hns n (List.mem_cons_self ..))
      have hne : n ≠ 0 := fun heq => hs.nonnull (heq ▸ hn)
      simpa using hne

theorem Written.setBack (hw : Written heads nodes m f m') (hs : Separate heads nodes)
    (hns : ∀ x ∈ ns, x ∈ nodes) (v : Addr) :
    Written heads nodes m (setBack f ns v) (storeBack m' (ns.headD 0) v) := by
  cases ns with
  | nil => exact hw
  | cons n ns =>
      have hne : n ≠ 0 := (hs.first_eq hns).not.mpr (List.cons_ne_nil n ns)
      rw [List.headD_cons, storeBack, if_pos hne]
      exact hw.setPrev hs (hns n (List.mem_cons_self ..)) v

theorem Place.Holds.congr (h : p.Holds f)
    (hnext : ∀ x ∈ p.heads ++ p.nodes, f'.next x = f.next x)
    (hprev : ∀ x ∈ p.nodes, f'.prev x = f.prev x) : p.Holds f' := by
  cases p with
  | raw head => trivial
  | loose node => trivial
  | list head entries => exact Chain.congr h hnext hprev
  | unhashed node =>
      exact ⟨(hnext node (by simp [Place.nodes])).trans h.1,
        (hprev node (by simp [Place.nodes])).trans h.2⟩
  | fake node =>
      exact ⟨(hnext node (by simp [Place.nodes])).trans h.1,
        (hprev node (by simp [Place.nodes])).trans h.2⟩

/-- What one operation establishes. -/
def Becomes (heads nodes : List Addr) (m m' : Memory Addr) (l : List Place) : Prop :=
  Stored heads nodes m' l ∧ m.Frame m' (HlistBytes heads nodes)

theorem Stored.perm {l' : List Place} (h : Stored heads nodes m l) (hl : l.Perm l') :
    Stored heads nodes m l' := by
  have hheads := hl.flatMap_right Place.heads
  have hnodes := hl.flatMap_right Place.nodes
  exact ⟨fun p hp => h.holds p (hl.mem_iff.mpr hp), (hheads.append hnodes).nodup_iff.mp h.nodup,
    fun x hx => h.heads x (hheads.mem_iff.mpr hx), fun x hx => h.nodes x (hnodes.mem_iff.mpr hx)⟩

/-- An operation on the places `ps` leaves the others. -/
theorem Stored.edit (ps qs : List Place) (hm : Stored heads nodes m (ps ++ l))
    (hw : Written heads nodes m f m') (hheads : (headsOf ps).Perm (headsOf qs))
    (hnodes : (nodesOf ps).Perm (nodesOf qs)) (hqs : ∀ q ∈ qs, q.Holds f)
    (hnext : ∀ x, x ∉ headsOf ps → x ∉ nodesOf ps → f.next x = hlistNext m x)
    (hprev : ∀ x, x ∉ nodesOf ps → f.prev x = hlistPprev m x) :
    Becomes heads nodes m m' (qs ++ l) := by
  have hsplit : ∀ rs : List Place, headsOf (rs ++ l) = headsOf rs ++ headsOf l ∧
      nodesOf (rs ++ l) = nodesOf rs ++ nodesOf l := fun rs =>
    ⟨List.flatMap_append, List.flatMap_append⟩
  have hheads' : (headsOf (ps ++ l)).Perm (headsOf (qs ++ l)) := by
    rw [(hsplit ps).1, (hsplit qs).1]
    exact hheads.append_right _
  have hnodes' : (nodesOf (ps ++ l)).Perm (nodesOf (qs ++ l)) := by
    rw [(hsplit ps).2, (hsplit qs).2]
    exact hnodes.append_right _
  have hin : ∀ x ∈ headsOf (qs ++ l), x ∈ heads := fun x hx => hm.heads x (hheads'.mem_iff.mpr hx)
  have hin' : ∀ x ∈ nodesOf (qs ++ l), x ∈ nodes := fun x hx =>
    hm.nodes x (hnodes'.mem_iff.mpr hx)
  refine ⟨⟨fun p hp => ?_, (hheads'.append hnodes').nodup_iff.mp hm.nodup, hin, hin'⟩, hw.frame⟩
  have hmemHeads : ∀ x ∈ p.heads, x ∈ headsOf (qs ++ l) := fun x hx =>
    List.mem_flatMap.mpr ⟨p, hp, hx⟩
  have hmemNodes : ∀ x ∈ p.nodes, x ∈ nodesOf (qs ++ l) := fun x hx =>
    List.mem_flatMap.mpr ⟨p, hp, hx⟩
  have hholds : p.Holds f := by
    obtain hp | hp := List.mem_append.mp hp
    · exact hqs p hp
    -- the pointers of the other places have not been stored to
    obtain ⟨hdupHeads, hdupNodes, hdisj⟩ := List.nodup_append.mp hm.nodup
    rw [(hsplit ps).1] at hdupHeads hdisj
    rw [(hsplit ps).2] at hdupNodes hdisj
    have hheadsOut : ∀ x ∈ p.heads, x ∉ headsOf ps ∧ x ∉ nodesOf ps := fun x hx => by
      have hx' : x ∈ headsOf l := List.mem_flatMap.mpr ⟨p, hp, hx⟩
      exact ⟨fun hmem => (List.nodup_append.mp hdupHeads).2.2 x hmem x hx' rfl, fun hmem =>
        hdisj x (List.mem_append_right _ hx') x (List.mem_append_left _ hmem) rfl⟩
    have hnodesOut : ∀ x ∈ p.nodes, x ∉ headsOf ps ∧ x ∉ nodesOf ps := fun x hx => by
      have hx' : x ∈ nodesOf l := List.mem_flatMap.mpr ⟨p, hp, hx⟩
      exact ⟨fun hmem =>
        hdisj x (List.mem_append_left _ hmem) x (List.mem_append_right _ hx') rfl, fun hmem =>
          (List.nodup_append.mp hdupNodes).2.2 x hmem x hx' rfl⟩
    refine (hm.holds p (List.mem_append_right _ hp)).congr (fun x hx => ?_) fun x hx => ?_
    · obtain hx | hx := List.mem_append.mp hx
      · exact hnext x (hheadsOut x hx).1 (hheadsOut x hx).2
      · exact hnext x (hnodesOut x hx).1 (hnodesOut x hx).2
    · exact hprev x (hnodesOut x hx).2
  refine hholds.congr (fun x hx => ?_) fun x hx => hw.prev x (hin' x (hmemNodes x hx))
  refine hw.next x (List.mem_append.mpr ?_)
  obtain hx | hx := List.mem_append.mp hx
  · exact .inl (hin x (hmemHeads x hx))
  · exact .inr (hin' x (hmemNodes x hx))

end Written

section Operations
variable {heads nodes : List Addr} {m m' m'' : Memory Addr} {l l' : List Place}
  {h n x old new : Addr} {a b ns : List Addr}

theorem Becomes.trans (h₁ : Becomes heads nodes m m' l) (h₂ : Becomes heads nodes m' m'' l') :
    Becomes heads nodes m m'' l' :=
  ⟨h₂.1, h₁.2.trans h₂.2⟩

theorem Stored.initHead (hm : Stored heads nodes m (.raw h :: l)) (hs : Separate heads nodes) :
    Becomes heads nodes m (initHlistHead m h) (.list h [] :: l) := by
  have hh : h ∈ heads ++ nodes := List.mem_append_left _ (hm.heads h (by simp))
  have hw := (Written.refl heads nodes m).setNext hs hh 0
  refine Stored.edit [.raw h] [.list h []] hm hw (.refl _) (.refl _) ?_ ?_ fun _ _ => rfl
  · simp only [List.forall_mem_singleton]
    exact Function.update_self ..
  · intro x hx _
    exact Function.update_of_ne (by simpa using hx) _ _

theorem Stored.initNode (hm : Stored heads nodes m (.loose n :: l)) (hs : Separate heads nodes) :
    Becomes heads nodes m (initHlistNode m n) (.unhashed n :: l) := by
  have hn : n ∈ nodes := hm.nodes n (by simp)
  have hw := ((Written.refl heads nodes m).setNext hs (List.mem_append_right _ hn) 0).setPrev hs
    hn 0
  refine Stored.edit [.loose n] [.unhashed n] hm hw (.refl _) (.refl _) ?_ ?_ ?_
  · simp only [List.forall_mem_singleton]
    exact ⟨Function.update_self .., Function.update_self ..⟩
  · intro x _ hx
    exact Function.update_of_ne (by simpa using hx) _ _
  · intro x hx
    exact Function.update_of_ne (by simpa using hx) _ _

/-- What points at the place after `a` is a head or a node. -/
theorem Stored.cell (hm : Stored heads nodes m (.list h (a ++ b) :: l)) :
    a.getLastD h ∈ heads ++ nodes := by
  obtain hp | hp := List.mem_cons.mp (ListSurgery.getLastD_mem h a)
  · rw [hp]
    exact List.mem_append_left _ (hm.heads h (by simp))
  · exact List.mem_append_right _
      (hm.nodes _ (List.mem_append_left _ (List.mem_append_left _ hp)))

theorem ne_cell (hh : x ≠ h) (ha : x ∉ a) : x ≠ a.getLastD h := by
  rintro rfl
  obtain hp | hp := List.mem_cons.mp (ListSurgery.getLastD_mem h a)
  · exact hh hp
  · exact ha hp

theorem Stored.chain (hm : Stored heads nodes m (.list h ns :: l)) : Chain 0 (links m) h ns :=
  hm.holds _ (List.mem_cons_self ..)

theorem Stored.nodup_list (hm : Stored heads nodes m (.list h ns :: l)) : (h :: ns).Nodup := by
  refine hm.nodup.sublist ?_
  rw [headsOf_cons, nodesOf_cons, Place.heads, Place.nodes, List.singleton_append, List.cons_append]
  exact ((List.sublist_append_left ns _).trans (List.sublist_append_right _ _)).cons_cons h

/-- `__hlist_del`, on a node of a list. -/
theorem Stored.unlinked (hm : Stored heads nodes m (.list h (a ++ n :: b) :: l))
    (hs : Separate heads nodes) :
    Becomes heads nodes m (hlistUnlink m n) (.loose n :: .list h (a ++ b) :: l) := by
  obtain ⟨hprev, hnext⟩ := hm.chain.around
  have hcell := hm.cell
  have hb : ∀ x ∈ b, x ∈ nodes := fun x hx => hm.nodes x (by simp [hx])
  have hw := ((Written.refl heads nodes m).setNext hs hcell (b.headD 0)).setBack hs hb
    (a.getLastD h)
  have hrun : hlistUnlink m n =
      storeBack (m.storeWord (a.getLastD h) (b.headD 0)) (b.headD 0) (a.getLastD h) := by
    rw [← hnext, ← hprev]
    rfl
  rw [hrun]
  refine Stored.edit [.list h (a ++ n :: b)] [.loose n, .list h (a ++ b)] hm hw (.refl _)
    (by simp) ?_ ?_ ?_
  · simp only [List.forall_mem_cons, List.not_mem_nil, false_imp_iff, implies_true, and_true]
    exact ⟨trivial, hm.chain.unlink hm.nodup_list⟩
  · intro x hx hx'
    rw [setBack_next]
    exact Function.update_of_ne
      (ne_cell (fun heq => hx (by simp [heq])) fun hmem => hx' (by simp [hmem])) _ _
  · intro x hx
    exact setBack_prev (fun hmem => hx (by simp [hmem])) _ _

/-- A fake node points at itself, and its `next` is stored to twice. -/
theorem Stored.unlinkedFake (hm : Stored heads nodes m (.fake n :: l))
    (hs : Separate heads nodes) :
    Becomes heads nodes m (hlistUnlink m n) (.loose n :: l) := by
  obtain ⟨hnext, hprev⟩ : hlistNext m n = 0 ∧ hlistPprev m n = n :=
    hm.holds _ (List.mem_cons_self ..)
  have hn : n ∈ nodes := hm.nodes n (by simp)
  have hw := (Written.refl heads nodes m).setNext hs (List.mem_append_right _ hn) 0
  have hrun : hlistUnlink m n = m.storeWord n 0 := by
    rw [hlistUnlink, hnext, hprev]
    rfl
  rw [hrun]
  refine Stored.edit [.fake n] [.loose n] hm hw (.refl _) (.refl _) ?_ ?_ fun _ _ => rfl
  · simp only [List.forall_mem_singleton]
    trivial
  · intro x _ hx
    exact Function.update_of_ne (by simpa using hx) _ _

theorem Stored.deleted (hm : Stored heads nodes m (.list h (a ++ n :: b) :: l))
    (hs : Separate heads nodes) :
    Becomes heads nodes m (hlistDel m n) (.unhashed n :: .list h (a ++ b) :: l) :=
  (hm.unlinked hs).trans ((hm.unlinked hs).1.initNode hs)

theorem Stored.deletedFake (hm : Stored heads nodes m (.fake n :: l))
    (hs : Separate heads nodes) : Becomes heads nodes m (hlistDel m n) (.unhashed n :: l) :=
  (hm.unlinkedFake hs).trans ((hm.unlinkedFake hs).1.initNode hs)

theorem Stored.hashed (hm : Stored heads nodes m (.list h ns :: l)) (hs : Separate heads nodes)
    (hx : x ∈ ns) : hlistUnhashed m x = false := by
  obtain ⟨a, b, rfl⟩ := List.append_of_mem hx
  have hprev : hlistPprev m x = a.getLastD h := hm.chain.around.1
  rw [hlistUnhashed, hprev, beq_eq_false_iff_ne]
  exact ne_of_mem_of_not_mem hm.cell hs.nonnull

theorem hlistDelInit_hashed (h : hlistUnhashed m n = false) : hlistDelInit m n = hlistDel m n := by
  rw [hlistDelInit, h]
  rfl

theorem Stored.fake_hashed (hm : Stored heads nodes m (.fake n :: l)) (hs : Separate heads nodes) :
    hlistUnhashed m n = false := by
  have hprev : hlistPprev m n = n := (hm.holds _ (List.mem_cons_self ..)).2
  rw [hlistUnhashed, hprev, beq_eq_false_iff_ne]
  exact ne_of_mem_of_not_mem (List.mem_append_right _ (hm.nodes n (by simp))) hs.nonnull

/-- The new pointers where a node goes in. -/
theorem Stored.inserted (hm : Stored heads nodes m (.loose n :: .list h (a ++ b) :: l))
    (hw : Written heads nodes m
      ((setBack ((links m).setNext n (b.headD 0)) b n).link (a.getLastD h) n) m') :
    Becomes heads nodes m m' (.list h (a ++ n :: b) :: l) := by
  have hnodup : (n :: h :: (a ++ b)).Nodup := by
    refine (List.Perm.nodup_iff (.swap ..)).mp (hm.nodup.sublist ?_)
    rw [headsOf_cons, headsOf_cons, nodesOf_cons, nodesOf_cons]
    simp only [Place.heads, Place.nodes, List.nil_append, List.cons_append]
    refine List.Sublist.cons_cons h (.trans ?_ (List.sublist_append_right _ _))
    exact (List.sublist_append_left (a ++ b) _).cons_cons n
  have hchain : Chain 0 (links m) h (a ++ b) := hm.holds (.list h (a ++ b)) (by simp)
  refine Stored.edit [.loose n, .list h (a ++ b)] [.list h (a ++ n :: b)] hm hw (.refl _)
    (by simpa using List.perm_middle.symm) ?_ ?_ ?_
  · simp only [List.forall_mem_singleton]
    exact hchain.insert hnodup
  · intro x hx hx'
    have hp : x ≠ a.getLastD h :=
      ne_cell (fun heq => hx (by simp [heq])) fun hmem => hx' (by simp [hmem])
    have hn : x ≠ n := fun heq => hx' (by simp [heq])
    refine (Function.update_of_ne hp _ _).trans ?_
    rw [setBack_next]
    exact Function.update_of_ne hn _ _
  · intro x hx
    have hn : x ≠ n := fun heq => hx (by simp [heq])
    have hb : x ∉ b := fun hmem => hx (by simp [hmem])
    exact (Function.update_of_ne hn _ _).trans (setBack_prev hb _ _)

theorem Stored.addedHead (hm : Stored heads nodes m (.loose n :: .list h ns :: l))
    (hs : Separate heads nodes) :
    Becomes heads nodes m (hlistAddHead m n h) (.list h (n :: ns) :: l) := by
  have hn : n ∈ nodes := hm.nodes n (by simp)
  have hns : ∀ x ∈ ns, x ∈ nodes := fun x hx => hm.nodes x (by simp [hx])
  have hh : h ∈ heads ++ nodes := List.mem_append_left _ (hm.heads h (by simp))
  have hfirst : hlistFirst m h = ns.headD 0 := (hm.perm (.swap ..)).chain.next_start
  have hw := (((((Written.refl heads nodes m).setNext hs (List.mem_append_right _ hn)
    (ns.headD 0)).setBack hs hns n).setNext hs hh n).setPrev hs hn h)
  rw [hlistAddHead, hfirst]
  exact Stored.inserted (a := []) hm hw

theorem Stored.addedBefore (hm : Stored heads nodes m (.loose n :: .list h (a ++ x :: b) :: l))
    (hs : Separate heads nodes) :
    Becomes heads nodes m (hlistAddBefore m n x) (.list h (a ++ n :: x :: b) :: l) := by
  have hn : n ∈ nodes := hm.nodes n (by simp)
  have hx : x ∈ nodes := hm.nodes x (by simp)
  have hlist := hm.perm (.swap ..)
  have hprev : hlistPprev m x = a.getLastD h := hlist.chain.around.1
  have hne : x ≠ n := by
    rintro rfl
    have hnodup := (List.nodup_append.mp hm.nodup).2.1
    simp at hnodup
  have hw := (((Written.refl heads nodes m).setPrev hs hn (a.getLastD h)).setNext hs
    (List.mem_append_right _ hn) x).setPrev hs hx n
  have hback := hw.prev n hn
  have hown : hlistPprev (((m.storeWord (n + 4) (a.getLastD h)).storeWord n x).storeWord (x + 4) n)
      n = a.getLastD h := by
    rw [hback]
    exact (Function.update_of_ne hne.symm _ _).trans (Function.update_self ..)
  have hw' := hw.setNext hs hlist.cell n
  rw [hlistAddBefore, hprev]
  simp only [hown]
  refine hm.inserted ?_
  -- the pointer to `n` has been stored first
  have hsame : ((((links m).setPrev n (a.getLastD h)).setNext n x).setPrev x n).setNext
      (a.getLastD h) n =
      (setBack ((links m).setNext n ((x :: b).headD 0)) (x :: b) n).link (a.getLastD h) n := by
    simp only [setBack, Links.link, Links.setPrev, Links.setNext, List.headD_cons,
      Function.update_comm hne]
  rw [← hsame]
  exact hw'

theorem Stored.addedBehind (hm : Stored heads nodes m (.loose n :: .list h (a ++ x :: b) :: l))
    (hs : Separate heads nodes) :
    Becomes heads nodes m (hlistAddBehind m n x) (.list h (a ++ x :: n :: b) :: l) := by
  have hn : n ∈ nodes := hm.nodes n (by simp)
  have hx : x ∈ nodes := hm.nodes x (by simp)
  have hb : ∀ y ∈ b, y ∈ nodes := fun y hy => hm.nodes y (by simp [hy])
  have hnext : hlistNext m x = b.headD 0 := (hm.perm (.swap ..)).chain.around.2
  have hout : n ∉ a ++ x :: b := by
    have hnodup : (n :: (a ++ x :: b ++ nodesOf l)).Nodup := (List.nodup_append.mp hm.nodup).2.1
    exact fun hmem => (List.nodup_cons.mp hnodup).1 (List.mem_append_left _ hmem)
  have hne : n ≠ x := fun heq => hout (by simp [heq])
  have hnb : n ∉ b := fun hmem => hout (by simp [hmem])
  have hw := ((((Written.refl heads nodes m).setNext hs (List.mem_append_right _ hn)
    (b.headD 0)).setNext hs (List.mem_append_right _ hx) n).setPrev hs hn x)
  have hown : hlistNext (((m.storeWord n (b.headD 0)).storeWord x n).storeWord (n + 4) x) n =
      b.headD 0 := by
    rw [hw.next n (List.mem_append_right _ hn)]
    exact (Function.update_of_ne hne _ _).trans (Function.update_self ..)
  have hw' := hw.setBack hs hb n
  rw [setBack_setPrev _ hnb, setBack_setNext] at hw'
  rw [hlistAddBehind, hnext]
  simp only [hown]
  have hsplit : a ++ x :: b = a ++ [x] ++ b := by simp
  rw [hsplit] at hm
  have hlast : (a ++ [x]).getLastD h = x := List.getLastD_concat ..
  rw [← hlast] at hw'
  simpa using hm.inserted hw'

theorem Stored.madeFake (hm : Stored heads nodes m (.unhashed n :: l)) (hs : Separate heads nodes) :
    Becomes heads nodes m (hlistAddFake m n) (.fake n :: l) := by
  have hn : n ∈ nodes := hm.nodes n (by simp)
  have hw := (Written.refl heads nodes m).setPrev hs hn n
  refine Stored.edit [.unhashed n] [.fake n] hm hw (.refl _) (.refl _) ?_ (fun _ _ _ => rfl) ?_
  · simp only [List.forall_mem_singleton]
    exact ⟨(hm.holds _ (List.mem_cons_self ..)).1, Function.update_self ..⟩
  · intro x hx
    exact Function.update_of_ne (by simpa using hx) _ _

theorem Stored.moved (hm : Stored heads nodes m (.list old ns :: .raw new :: l))
    (hs : Separate heads nodes) :
    Becomes heads nodes m (hlistMoveList m old new) (.list old [] :: .list new ns :: l) := by
  have hold : old ∈ heads ++ nodes := List.mem_append_left _ (hm.heads old (by simp))
  have hnew : new ∈ heads ++ nodes := List.mem_append_left _ (hm.heads new (by simp))
  have hns : ∀ x ∈ ns, x ∈ nodes := fun x hx => hm.nodes x (by simp [hx])
  have hfirst : hlistFirst m old = ns.headD 0 := hm.chain.next_start
  have hown : hlistFirst (m.storeWord new (ns.headD 0)) new = ns.headD 0 :=
    m.loadWord_storeWord new _
  have hw := (((Written.refl heads nodes m).setNext hs hnew (ns.headD 0)).setBack hs hns
    new).setNext hs hold 0
  have hnodup := hm.nodup
  simp only [headsOf_cons, nodesOf_cons, Place.heads, Place.nodes, List.nil_append,
    List.cons_append, List.nodup_cons, List.mem_cons, List.mem_append, not_or] at hnodup
  obtain ⟨⟨hne, -, hout, -⟩, ⟨-, hout', -⟩, hrest⟩ := hnodup
  have hrest : ns.Nodup := (List.nodup_append.mp (List.nodup_append.mp hrest).2.1).1
  rw [hlistMoveList, hfirst]
  simp only [hown]
  refine Stored.edit [.list old ns, .raw new] [.list old [], .list new ns] hm hw (.refl _)
    (by simp) ?_ ?_ ?_
  · simp only [List.forall_mem_cons, List.not_mem_nil, false_imp_iff, implies_true, and_true]
    refine ⟨Function.update_self .., ?_⟩
    refine (hm.chain.hang (List.nodup_cons.mpr ⟨hout', hrest⟩)).congr (fun x hx => ?_)
      fun _ _ => rfl
    refine Function.update_of_ne ?_ _ _
    rintro rfl
    obtain heq | hmem := List.mem_cons.mp hx
    · exact hne heq
    · exact hout hmem
  · intro x hx _
    simp only [headsOf_cons, headsOf_nil, Place.heads, List.append_nil, List.singleton_append,
      List.mem_cons, List.not_mem_nil, or_false, not_or] at hx
    refine (Function.update_of_ne hx.1 _ _).trans ?_
    rw [setBack_next]
    exact Function.update_of_ne hx.2 _ _
  · intro x hx
    exact setBack_prev (fun hmem => hx (by simp [hmem])) _ _

end Operations

/-- What the header's loop and tests say about a list. -/
structure Reads (m : Memory Addr) (head : Addr) (entries : List Addr) : Prop where
  forEach : ∀ fuel, entries.length < fuel →
    hlistForEach m fuel (hlistFirst m head) = some entries
  empty : hlistEmpty m head = entries.isEmpty
  hashed : ∀ x ∈ entries, hlistUnhashed m x = false ∧ hlistFake m x = false
  singular : ∀ x ∈ entries, hlistIsSingularNode m x head = (entries.length == 1)

section Reading
variable {heads nodes : List Addr} {m : Memory Addr} {l : List Place} {c h : Addr}
  {ns : List Addr} {fuel : ℕ}

theorem hlistForEach_chain (hc : Chain 0 (links m) c ns) (hnull : 0 ∉ ns)
    (hfuel : ns.length < fuel) : hlistForEach m fuel (hlistNext m c) = some ns := by
  obtain ⟨fuel, rfl⟩ := Nat.exists_eq_succ_of_ne_zero (Nat.ne_zero_of_lt hfuel)
  induction ns generalizing c fuel with
  | nil =>
      have hend : hlistNext m c = 0 := hc
      rw [hend, hlistForEach, if_pos rfl]
  | cons n ns ih =>
      obtain ⟨⟨hnext, -⟩, hrest⟩ := hc
      obtain ⟨hn, hnull⟩ := List.ne_and_not_mem_of_not_mem_cons hnull
      have hnext : hlistNext m c = n := hnext
      rw [List.length_cons] at hfuel
      have hmore := Nat.lt_of_succ_lt_succ hfuel
      obtain ⟨fuel, rfl⟩ := Nat.exists_eq_succ_of_ne_zero (Nat.ne_zero_of_lt hmore)
      rw [hnext, hlistForEach, if_neg hn.symm, ih hrest hnull fuel (by omega), Option.map_some]

theorem Stored.reads (hm : Stored heads nodes m (.list h ns :: l)) (hs : Separate heads nodes) :
    Reads m h ns := by
  have hin : ∀ x ∈ ns, x ∈ nodes := fun x hx => hm.nodes x (by simp [hx])
  have hnull : 0 ∉ ns := fun hmem => hs.nonnull (List.mem_append_right _ (hin 0 hmem))
  have hfirst : hlistFirst m h = ns.headD 0 := hm.chain.next_start
  refine ⟨fun fuel hfuel => hlistForEach_chain hm.chain hnull hfuel, ?_, fun x hx =>
    ⟨hm.hashed hs hx, ?_⟩, fun x hx => ?_⟩
  · rw [hlistEmpty, hfirst, Bool.eq_iff_iff, beq_iff_eq, hs.first_eq hin, List.isEmpty_iff]
  · obtain ⟨a, b, rfl⟩ := List.append_of_mem hx
    have hprev : hlistPprev m x = a.getLastD h := hm.chain.around.1
    have hnodup := hm.nodup_list
    rw [← List.cons_append] at hnodup
    have hne : a.getLastD h ≠ x := fun heq => (List.nodup_append.mp hnodup).2.2 _
      (ListSurgery.getLastD_mem h a) x (List.mem_cons_self ..) heq
    rw [hlistFake, hprev, beq_eq_false_iff_ne]
    exact hne
  · obtain ⟨a, b, rfl⟩ := List.append_of_mem hx
    obtain ⟨hprev, hnext⟩ : hlistPprev m x = a.getLastD h ∧ hlistNext m x = b.headD 0 :=
      hm.chain.around
    have hb : b.headD 0 = 0 ↔ b = [] := hs.first_eq fun y hy => hin y (by simp [hy])
    have ha : a.getLastD h = h ↔ a = [] := by
      have hout : h ∉ a := fun hmem =>
        (List.nodup_cons.mp hm.nodup_list).1 (List.mem_append_left _ hmem)
      refine ⟨fun heq => ?_, fun hnil => by rw [hnil]; rfl⟩
      cases a with
      | nil => rfl
      | cons y a =>
          rw [List.getLastD_cons] at heq
          exact absurd (heq ▸ ListSurgery.getLastD_mem y a) hout
    rw [hlistIsSingularNode, hprev, hnext, Bool.eq_iff_iff, Bool.and_eq_true, beq_iff_eq,
      beq_iff_eq, beq_iff_eq, hb, ha, List.length_append, List.length_cons]
    rw [← List.length_eq_zero_iff, ← List.length_eq_zero_iff (l := a)]
    omega

end Reading

section Runs
variable {heads nodes : List Addr} {m : Memory Addr} {l l' : List Place} {p p' : Place}
  {op : Operation} {ops : List Operation}

theorem Stored.forget (hf : Forgets p p') (hm : Stored heads nodes m (p :: l)) :
    Stored heads nodes m (p' :: l) := by
  cases hf
  all_goals
    refine ⟨fun q hq => ?_, hm.nodup, hm.heads, hm.nodes⟩
    obtain rfl | hq := List.mem_cons.mp hq
    · trivial
    · exact hm.holds q (List.mem_cons_of_mem _ hq)

theorem step_becomes (h : Step l op l') (hs : Separate heads nodes)
    (hm : Stored heads nodes m l) : Becomes heads nodes m (op.run m) l' := by
  induction h with
  | initHlistHead => exact hm.initHead hs
  | initHlistNode => exact hm.initNode hs
  | hlistDel => exact hm.deleted hs
  | hlistDelFake => exact hm.deletedFake hs
  | hlistDelInit =>
      rw [Operation.run, hlistDelInit_hashed (hm.hashed hs (by simp))]
      exact hm.deleted hs
  | hlistDelInitFake =>
      rw [Operation.run, hlistDelInit_hashed (hm.fake_hashed hs)]
      exact hm.deletedFake hs
  | @hlistDelInitUnhashed n l =>
      have hprev : hlistPprev m n = 0 := (hm.holds _ (List.mem_cons_self ..)).2
      have hrun : hlistDelInit m n = m := by
        rw [hlistDelInit, hlistUnhashed, hprev]
        rfl
      rw [Operation.run, hrun]
      exact ⟨hm, Memory.Frame.refl m _⟩
  | hlistAddHead => exact hm.addedHead hs
  | hlistAddBefore => exact hm.addedBefore hs
  | hlistAddBehind => exact hm.addedBehind hs
  | hlistAddFake => exact hm.madeFake hs
  | hlistMoveList => exact hm.moved hs
  | forget hf _ ih => exact ih (hm.forget hf)
  | perm hl _ hl' ih =>
      obtain ⟨hstored, hframe⟩ := ih (hm.perm hl)
      exact ⟨hstored.perm hl', hframe⟩

theorem steps_become (h : Steps l ops l') (hs : Separate heads nodes)
    (hm : Stored heads nodes m l) :
    Becomes heads nodes m (ops.foldl Operation.run m) l' := by
  induction h generalizing m with
  | nil => exact ⟨hm, Memory.Frame.refl m _⟩
  | cons hstep _ ih =>
      have hfirst := step_becomes hstep hs hm
      exact hfirst.trans (ih hfirst.1)

/-- No operation takes a head or a node away. -/
theorem step_places (h : Step l op l') :
    (headsOf l).Perm (headsOf l') ∧ (nodesOf l).Perm (nodesOf l') := by
  induction h with
  | initHlistHead | initHlistNode | hlistDelFake | hlistDelInitFake | hlistDelInitUnhashed
  | hlistAddFake => exact ⟨.refl _, .refl _⟩
  | hlistDel | hlistDelInit => simp
  | hlistAddHead => simp
  | hlistAddBefore => simp [List.perm_middle.symm]
  | @hlistAddBehind n h x a b l =>
      have hperm : (a ++ [x] ++ n :: (b ++ nodesOf l)).Perm (n :: (a ++ [x] ++ (b ++ nodesOf l))) :=
        List.perm_middle
      exact ⟨.refl _, by simpa using hperm.symm⟩
  | hlistMoveList => simp
  | forget hf _ ih => cases hf <;> exact ih
  | perm hl _ hl' ih =>
      exact ⟨((hl.flatMap_right _).trans ih.1).trans (hl'.flatMap_right _),
        ((hl.flatMap_right _).trans ih.2).trans (hl'.flatMap_right _)⟩

theorem steps_places (h : Steps l ops l') :
    (headsOf l).Perm (headsOf l') ∧ (nodesOf l).Perm (nodesOf l') := by
  induction h with
  | nil => exact ⟨.refl _, .refl _⟩
  | cons hstep _ ih =>
      obtain ⟨hheads, hnodes⟩ := step_places hstep
      exact ⟨hheads.trans ih.1, hnodes.trans ih.2⟩

/-- Any heads and nodes, used as neither yet. -/
def untouched (heads nodes : List Addr) : List Place := heads.map .raw ++ nodes.map .loose

theorem untouched_places (heads nodes : List Addr) :
    headsOf (untouched heads nodes) = heads ∧ nodesOf (untouched heads nodes) = nodes := by
  rw [headsOf, nodesOf, untouched, List.flatMap_append, List.flatMap_append]
  simp only [List.flatMap_map, Place.heads, Place.nodes, List.flatMap_singleton']
  simp

theorem stored_untouched (m : Memory Addr) (hnodup : (heads ++ nodes).Nodup) :
    Stored heads nodes m (untouched heads nodes) := by
  obtain ⟨hheads, hnodes⟩ := untouched_places heads nodes
  refine ⟨fun p hp => ?_, by rw [hheads, hnodes]; exact hnodup, fun x hx => hheads ▸ hx,
    fun x hx => hnodes ▸ hx⟩
  obtain hp | hp := List.mem_append.mp hp
  · obtain ⟨h, -, rfl⟩ := List.mem_map.mp hp
    trivial
  · obtain ⟨n, -, rfl⟩ := List.mem_map.mp hp
    trivial

end Runs

/-- Whatever the memory holds at first, every legal run leaves the lists it is meant
to: no node is lost or in two lists, the loop visits the entries in order, the tests
answer by where a node is, and nothing but the pointers is stored to. -/
theorem hlists_follow_shapes (heads nodes : List Addr) (m : Memory Addr)
    (hnodup : (heads ++ nodes).Nodup) (hs : Separate heads nodes) (ops : List Operation)
    (l : List Place) (hsteps : Steps (untouched heads nodes) ops l) :
    let m' := ops.foldl Operation.run m
    heads.Perm (headsOf l) ∧ nodes.Perm (nodesOf l) ∧
      (∀ head entries, .list head entries ∈ l → Reads m' head entries) ∧
      (∀ n, .unhashed n ∈ l → hlistUnhashed m' n = true) ∧
      (∀ n, .fake n ∈ l → hlistUnhashed m' n = false ∧ hlistFake m' n = true) ∧
      m.Frame m' (HlistBytes heads nodes) := by
  intro m'
  obtain ⟨hheads, hnodes⟩ := steps_places hsteps
  obtain ⟨hstored, hframe⟩ := steps_become hsteps hs (stored_untouched m hnodup)
  obtain ⟨hheads', hnodes'⟩ := untouched_places heads nodes
  rw [hheads'] at hheads
  rw [hnodes'] at hnodes
  -- any place can stand first
  have hfront : ∀ p ∈ l, ∃ rest, Stored heads nodes m' (p :: rest) := fun p hp => by
    obtain ⟨before, after, rfl⟩ := List.append_of_mem hp
    exact ⟨_, hstored.perm List.perm_middle⟩
  refine ⟨hheads, hnodes, fun head entries hp => ?_, fun n hp => ?_, fun n hp => ?_, hframe⟩
  · obtain ⟨rest, hp⟩ := hfront _ hp
    exact hp.reads hs
  · exact beq_iff_eq.mpr (hstored.holds _ hp).2
  · obtain ⟨rest, hp'⟩ := hfront _ hp
    exact ⟨hp'.fake_hashed hs, beq_iff_eq.mpr (hstored.holds _ hp).2⟩

/-- Three nodes, of which one is taken out, and what is left moves to the head that
lies next to the first. -/
theorem hlists_follow_shapes_table :
    let m' := [.initHlistHead 0x1000, .hlistAddHead 0x1010 0x1000, .hlistAddBehind 0x1020 0x1010,
      .hlistAddBefore 0x1030 0x1010, .hlistDelInit 0x1010, .hlistMoveList 0x1000 0x1004].foldl
        Operation.run ⟨fun _ => 0xFF, []⟩
    Reads m' 0x1004 [0x1030, 0x1020] ∧ Reads m' 0x1000 [] ∧ hlistUnhashed m' 0x1010 = true := by
  have hsteps : Steps (untouched [0x1000, 0x1004] [0x1010, 0x1020, 0x1030])
      [.initHlistHead 0x1000, .hlistAddHead 0x1010 0x1000, .hlistAddBehind 0x1020 0x1010,
        .hlistAddBefore 0x1030 0x1010, .hlistDelInit 0x1010, .hlistMoveList 0x1000 0x1004]
      [.list 0x1000 [], .list 0x1004 [0x1030, 0x1020], .unhashed 0x1010] := by
    refine .cons .initHlistHead ?_
    have hhead := @Step.hlistAddHead 0x1010 0x1000 []
      [.raw 0x1004, .loose 0x1020, .loose 0x1030]
    refine .cons (.perm (.trans (.cons _ (.swap ..)) (.swap ..)) hhead (.refl _)) ?_
    have hbehind := @Step.hlistAddBehind 0x1020 0x1000 0x1010 [] [] [.raw 0x1004, .loose 0x1030]
    refine .cons (.perm (.trans (.cons _ (.swap ..)) (.swap ..)) hbehind (.refl _)) ?_
    have hbefore := @Step.hlistAddBefore 0x1030 0x1000 0x1010 [] [0x1020] [.raw 0x1004]
    refine .cons (.perm (.trans (.cons _ (.swap ..)) (.swap ..)) hbefore (.refl _)) ?_
    have hdel := @Step.hlistDelInit 0x1010 0x1000 [0x1030] [0x1020] [.raw 0x1004]
    refine .cons (.perm (.refl _) hdel (.trans (.swap ..) (.cons _ (.swap ..)))) ?_
    exact .cons .hlistMoveList .nil
  obtain ⟨-, -, hreads, hunhashed, -⟩ := hlists_follow_shapes [0x1000, 0x1004]
    [0x1010, 0x1020, 0x1030] ⟨fun _ => 0xFF, []⟩ (by decide)
    ⟨by simp [Aligned4], by simp, by simp⟩ _ _ hsteps
  exact ⟨hreads _ _ (by simp), hreads _ _ (by simp), hunhashed _ (by simp)⟩

end Yack.HashLists
