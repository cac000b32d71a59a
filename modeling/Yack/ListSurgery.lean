import Mathlib.Data.List.Chain
import Mathlib.Data.List.Nodup
import Mathlib.Logic.Function.Basic
import Mathlib.Tactic.Common

/-!
# Surgery on circular lists

Every node has a link forward and a link back. A shape says which nodes form
circular lists, from their heads on, and which rows of nodes are in none. Every
edit is made of two: a run of nodes comes out of a list by one link, and a row
goes in by two.
-/
namespace Yack.ListSurgery

variable {α : Type*}

structure Links (α : Type*) where
  next : α → α
  prev : α → α

def Linked (f : Links α) (x y : α) : Prop := f.next x = y ∧ f.prev y = x

/-- A circular list from its head, or nodes in a row that are in no list. -/
inductive Piece (α : Type*) where
  | ring (head : α) (entries : List α)
  | row (nodes : List α)
  deriving DecidableEq, Repr

def Piece.nodes : Piece α → List α
  | .ring head entries => head :: entries
  | .row nodes => nodes

/-- What is met on the way along the links. -/
def Piece.walk : Piece α → List α
  | .ring head entries => head :: (entries ++ [head])
  | .row nodes => nodes

abbrev Shape (α : Type*) := List (Piece α)

def Shape.nodes (l : Shape α) : List α := l.flatMap Piece.nodes

/-- The links are those of the shape, and no node is in it twice. -/
structure Shows (f : Links α) (l : Shape α) : Prop where
  walk : ∀ p ∈ l, p.walk.IsChain (Linked f)
  nodup : l.nodes.Nodup

section Ends
variable {h x : α} {a b : List α}

theorem dropLast_getLastD (h : α) (a : List α) :
    (h :: a).dropLast ++ [a.getLastD h] = h :: a := by
  have hlast := List.dropLast_append_getLast (List.cons_ne_nil h a)
  rwa [List.getLast_eq_getLastD] at hlast

theorem headD_tail (b : List α) (h : α) : b.headD h :: (b ++ [h]).tail = b ++ [h] := by
  cases b <;> rfl

theorem getLastD_append_cons (h x : α) (a b : List α) :
    (a ++ x :: b).getLastD h = b.getLastD x := by
  induction a generalizing h with
  | nil => rw [List.nil_append, List.getLastD_cons]
  | cons y a ih => rw [List.cons_append, List.getLastD_cons, ih]

theorem getLastD_mem (h : α) (a : List α) : a.getLastD h ∈ h :: a := by
  rw [← dropLast_getLastD h a]
  simp

theorem headD_mem (b : List α) (h : α) : b.headD h ∈ b ++ [h] := by
  rw [← headD_tail b h]
  simp

theorem getLastD_not_mem (hnodup : (h :: a).Nodup) : a.getLastD h ∉ (h :: a).dropLast := by
  rw [← dropLast_getLastD h a] at hnodup
  exact fun hmem => (List.nodup_append.mp hnodup).2.2 _ hmem _ (List.mem_singleton_self _) rfl

theorem headD_not_mem (hnodup : (b ++ [h]).Nodup) : b.headD h ∉ (b ++ [h]).tail := by
  rw [← headD_tail] at hnodup
  exact (List.nodup_cons.mp hnodup).1

/-- What a place in a list, a row and the rest of a shape have in common: nothing,
but that the list may end at its own head there. -/
structure Parts (h : α) (a b s r : List α) : Prop where
  before : (h :: a).Nodup
  after : (b ++ [h]).Nodup
  row : s.Nodup
  last : a.getLastD h ∉ b
  first : b.headD h ∉ a
  rowBefore : ∀ x ∈ s, x ∉ h :: a
  rowAfter : ∀ x ∈ s, x ∉ b ++ [h]
  rest : ∀ x ∈ h :: (a ++ b ++ s), x ∉ r

theorem parts_of_nodup {s r : List α} (hnodup : (h :: a ++ (b ++ (s ++ r))).Nodup) :
    Parts h a b s r := by
  obtain ⟨hbefore, hnodup, hba⟩ := List.nodup_append.mp hnodup
  obtain ⟨hb, hnodup, hsb⟩ := List.nodup_append.mp hnodup
  obtain ⟨hs, -, hrs⟩ := List.nodup_append.mp hnodup
  have hbefore_b : ∀ x ∈ h :: a, x ∉ b := fun x hx hxb =>
    hba x hx x (List.mem_append_left _ hxb) rfl
  have hbefore_s : ∀ x ∈ h :: a, x ∉ s := fun x hx hxs =>
    hba x hx x (List.mem_append_right _ (List.mem_append_left _ hxs)) rfl
  refine ⟨hbefore, ?_, hs, hbefore_b _ (getLastD_mem h a), ?_, ?_, ?_, ?_⟩
  · refine List.nodup_append.mpr ⟨hb, List.nodup_singleton h, fun x hx y hy => ?_⟩
    rintro rfl
    exact hbefore_b x (List.mem_singleton.mp hy ▸ List.mem_cons_self ..) hx
  · intro hmem
    obtain hq | hq := List.mem_append.mp (headD_mem b h)
    · exact hbefore_b _ (List.mem_cons_of_mem _ hmem) hq
    · rw [List.mem_singleton.mp hq] at hmem
      exact (List.nodup_cons.mp hbefore).1 hmem
  · exact fun x hx hmem => hbefore_s x hmem hx
  · intro x hx hmem
    obtain hmem | hmem := List.mem_append.mp hmem
    · exact hsb x hmem x (List.mem_append_left _ hx) rfl
    · exact hbefore_s x (List.mem_singleton.mp hmem ▸ List.mem_cons_self ..) hx
  · intro x hx hr
    rw [List.append_assoc, ← List.cons_append] at hx
    obtain hx | hx := List.mem_append.mp hx
    · exact hba x hx x (List.mem_append_right _ (List.mem_append_right _ hr)) rfl
    obtain hx | hx := List.mem_append.mp hx
    · exact hsb x hx x (List.mem_append_right _ hr) rfl
    · exact hrs x hx x hr rfl

theorem Parts.last_rest {s r : List α} (h' : Parts h a b s r) : a.getLastD h ∉ r := by
  refine h'.rest _ ?_
  rw [List.append_assoc, ← List.cons_append]
  exact List.mem_append_left _ (getLastD_mem h a)

theorem Parts.first_rest {s r : List α} (h' : Parts h a b s r) : b.headD h ∉ r := by
  refine h'.rest _ ?_
  have hq := headD_mem b h
  simp only [List.mem_append, List.mem_singleton] at hq
  simp only [List.mem_cons, List.mem_append]
  tauto

theorem Parts.row_rest {s r : List α} (h' : Parts h a b s r) {x : α} (hx : x ∈ s) : x ∉ r :=
  h'.rest x (by simp [hx])

/-- A row with an end on each side, cut anywhere. -/
theorem isChain_cut {r : α → α → Prop} {k : α} : (h :: (a ++ b ++ [k])).IsChain r ↔
    (h :: a).IsChain r ∧ r (a.getLastD h) (b.headD k) ∧ (b ++ [k]).IsChain r := by
  have hsplit : h :: (a ++ b ++ [k]) =
      (h :: a).dropLast ++ a.getLastD h :: b.headD k :: (b ++ [k]).tail := by
    rw [headD_tail, List.append_cons _ (a.getLastD h), dropLast_getLastD]
    simp
  rw [hsplit, List.isChain_append_cons_cons, dropLast_getLastD, headD_tail]

end Ends

section Link
variable [DecidableEq α] {f : Links α} {l : Shape α} {ns : List α} {x y : α}

def Links.setNext (f : Links α) (x v : α) : Links α := { f with next := Function.update f.next x v }

def Links.setPrev (f : Links α) (x v : α) : Links α := { f with prev := Function.update f.prev x v }

/-- From `x` to `y`, and back. -/
def Links.link (f : Links α) (x y : α) : Links α := (f.setNext x y).setPrev y x

theorem linked_link (f : Links α) (x y : α) : Linked (f.link x y) x y := by
  constructor <;> simp [Links.link, Links.setNext, Links.setPrev]

theorem Linked.setNext {a b : α} (h : Linked f a b) (hx : a ≠ x) (v : α) :
    Linked (f.setNext x v) a b := by
  refine ⟨?_, h.2⟩
  exact (Function.update_of_ne hx v f.next).trans h.1

theorem Linked.setPrev {a b : α} (h : Linked f a b) (hy : b ≠ y) (v : α) :
    Linked (f.setPrev y v) a b := by
  refine ⟨h.1, ?_⟩
  exact (Function.update_of_ne hy v f.prev).trans h.2

/-- A walk does not use the link forward of its last node. -/
theorem isChain_setNext (h : ns.IsChain (Linked f)) (hx : x ∉ ns.dropLast) (v : α) :
    ns.IsChain (Linked (f.setNext x v)) := by
  induction ns with
  | nil => exact .nil
  | cons a ns ih =>
      cases ns with
      | nil => exact .singleton a
      | cons b ns =>
          rw [List.dropLast_cons_cons, List.mem_cons, not_or] at hx
          rw [List.isChain_cons_cons] at h ⊢
          exact ⟨h.1.setNext (Ne.symm hx.1) v, ih h.2 hx.2⟩

/-- It does not use the link back of its first node either. -/
theorem isChain_setPrev (h : ns.IsChain (Linked f)) (hy : y ∉ ns.tail) (v : α) :
    ns.IsChain (Linked (f.setPrev y v)) := by
  induction ns with
  | nil => exact .nil
  | cons a ns ih =>
      cases ns with
      | nil => exact .singleton a
      | cons b ns =>
          rw [List.tail_cons, List.mem_cons, not_or] at hy
          rw [List.isChain_cons_cons] at h ⊢
          exact ⟨h.1.setPrev (Ne.symm hy.1) v, ih h.2 hy.2⟩

theorem isChain_link (h : ns.IsChain (Linked f)) (hx : x ∉ ns.dropLast) (hy : y ∉ ns.tail) :
    ns.IsChain (Linked (f.link x y)) :=
  isChain_setPrev (isChain_setNext h hx y) hy x

theorem isChain_link_of_notMem (h : ns.IsChain (Linked f)) (hx : x ∉ ns) (hy : y ∉ ns) :
    ns.IsChain (Linked (f.link x y)) :=
  isChain_link h (fun hmem => hx (List.dropLast_subset _ hmem))
    (fun hmem => hy (List.mem_of_mem_tail hmem))

/-- Only the last of two links that start or end at the same nodes counts. -/
theorem link_link (f : Links α) (p q n k : α) :
    ((f.link p q).link k q).link p n = (f.link k q).link p n := by
  have hnext : Function.update (Function.update (Function.update f.next p q) k q) p n =
      Function.update (Function.update f.next k q) p n := by
    funext x
    by_cases hp : x = p
    · subst x; simp
    · by_cases hk : x = k
      · subst x; simp [hp]
      · simp [hp, hk]
  have hprev : Function.update (Function.update f.prev q p) q k = Function.update f.prev q k :=
    Function.update_idem _ _ _
  simp only [Links.link, Links.setNext, Links.setPrev, hnext, hprev]

theorem link_comm (f : Links α) {p q n k : α} (hp : p ≠ n) (hq : q ≠ k) :
    (f.link p q).link n k = (f.link n k).link p q := by
  simp only [Links.link, Links.setNext, Links.setPrev, Function.update_comm hp,
    Function.update_comm hq]

end Link

section Shape
variable {f f' : Links α} {l l' : Shape α} {h x y : α} {a b ns ms : List α}

theorem nodes_cons (p : Piece α) (l : Shape α) : Shape.nodes (p :: l) = p.nodes ++ l.nodes := rfl

theorem mem_nodes_of_walk {p : Piece α} (hx : x ∈ p.walk) : x ∈ p.nodes := by
  cases p with
  | ring head entries => simpa [Piece.walk, Piece.nodes, or_comm] using hx
  | row nodes => exact hx

theorem Shows.perm (hf : Shows f l) (hl : l.Perm l') : Shows f l' :=
  ⟨fun p hp => hf.walk p (hl.mem_iff.mpr hp), (hl.flatMap_right _).nodup_iff.mp hf.nodup⟩

/-- Only the links of the nodes of a shape matter. -/
theorem Shows.congr (hf : Shows f l)
    (hlinks : ∀ x ∈ l.nodes, f'.next x = f.next x ∧ f'.prev x = f.prev x) : Shows f' l := by
  refine ⟨fun p hp => ?_, hf.nodup⟩
  have hmem : ∀ x ∈ p.walk, x ∈ l.nodes := fun x hx =>
    List.mem_flatMap.mpr ⟨p, hp, mem_nodes_of_walk hx⟩
  refine (hf.walk p hp).imp_of_mem_imp fun x y hx hy hlinked => ?_
  exact ⟨(hlinks x (hmem x hx)).1.trans hlinked.1, (hlinks y (hmem y hy)).2.trans hlinked.2⟩

theorem Shows.linked (hf : Shows f (.ring h (a ++ b) :: l)) :
    Linked f (a.getLastD h) (b.headD h) :=
  (isChain_cut.mp (hf.walk _ (List.mem_cons_self ..))).2.1

/-- A circular list can be entered at any of its nodes. -/
theorem Shows.rotate (hf : Shows f (.ring h (a ++ x :: b) :: l)) :
    Shows f (.ring x (b ++ h :: a) :: l) := by
  have hwalk := hf.walk _ (List.mem_cons_self ..)
  have hperm : (h :: (a ++ x :: b)).Perm (x :: (b ++ h :: a)) := by
    have hswap := @List.perm_append_comm _ (h :: a) (x :: b)
    exact hswap
  refine ⟨?_, ?_⟩
  · intro p hp
    obtain rfl | hp := List.mem_cons.mp hp
    · rw [Piece.walk, List.append_assoc, List.cons_append, List.isChain_cons_split] at hwalk ⊢
      exact ⟨hwalk.2, hwalk.1⟩
    · exact hf.walk p (List.mem_cons_of_mem _ hp)
  · have hnodup := hf.nodup
    rw [nodes_cons] at hnodup ⊢
    exact (hperm.append_right _).nodup_iff.mp hnodup

/-- An entry is met once. -/
theorem Shows.entry_once (hf : Shows f (.ring h (a ++ x :: b) :: l)) : x ∉ h :: a ∧ x ∉ b := by
  have hnodup : (h :: a ++ x :: b).Nodup := (List.nodup_append.mp hf.nodup).1
  obtain ⟨-, hxb, hdisj⟩ := List.nodup_append.mp hnodup
  exact ⟨fun hx => hdisj x hx x (List.mem_cons_self ..) rfl, (List.nodup_cons.mp hxb).1⟩

/-- It is not its own neighbour. -/
theorem Shows.entry_ne (hf : Shows f (.ring h (a ++ x :: b) :: l)) :
    x ≠ a.getLastD h ∧ x ≠ b.headD h := by
  obtain ⟨hbefore, hafter⟩ := hf.entry_once
  refine ⟨fun heq => hbefore (heq ▸ getLastD_mem h a), fun heq => ?_⟩
  have hq := headD_mem b h
  rw [← heq, List.mem_append, List.mem_singleton] at hq
  obtain hq | hq := hq
  · exact hafter hq
  · exact hbefore (hq ▸ List.mem_cons_self ..)

/-- No node is in two pieces. -/
theorem Shows.ne (hf : Shows f (.ring h ns :: .row ms :: l)) (hx : x ∈ h :: ns) (hy : y ∈ ms) :
    x ≠ y :=
  (List.nodup_append.mp hf.nodup).2.2 x hx y (List.mem_append_left _ hy)

/-- A list that is not used as one any more: its head and its entries come apart. -/
theorem Shows.unhead (hf : Shows f (.ring h ns :: l)) : Shows f (.row [h] :: .row ns :: l) := by
  have hwalk := (isChain_cut (a := []) (b := ns)).mp (hf.walk _ (List.mem_cons_self ..))
  refine ⟨?_, hf.nodup⟩
  intro p hp
  obtain rfl | hp := List.mem_cons.mp hp
  · exact .singleton h
  obtain rfl | hp := List.mem_cons.mp hp
  · exact hwalk.2.2.left_of_append
  · exact hf.walk p (List.mem_cons_of_mem _ hp)

/-- An empty row is nothing. -/
theorem shows_row_nil : Shows f (.row [] :: l) ↔ Shows f l := by
  constructor
  · exact fun hf => ⟨fun p hp => hf.walk p (List.mem_cons_of_mem _ hp), hf.nodup⟩
  · refine fun hf => ⟨fun p hp => ?_, hf.nodup⟩
    obtain rfl | hp := List.mem_cons.mp hp
    · exact .nil
    · exact hf.walk p hp

/-- Nothing is said about the links of a node that is in no list. -/
theorem shows_row_singleton : Shows f (.row [x] :: l) ↔ Shows f l ∧ x ∉ l.nodes := by
  constructor
  · intro hf
    obtain ⟨hx, hnodup⟩ := List.nodup_cons.mp hf.nodup
    exact ⟨⟨fun p hp => hf.walk p (List.mem_cons_of_mem _ hp), hnodup⟩, hx⟩
  · intro ⟨hf, hx⟩
    refine ⟨fun p hp => ?_, List.nodup_cons.mpr ⟨hx, hf.nodup⟩⟩
    obtain rfl | hp := List.mem_cons.mp hp
    · exact .singleton x
    · exact hf.walk p hp

theorem Shows.clear (hf : Shows f (.row [x] :: l))
    (hlinks : ∀ y, y ≠ x → f'.next y = f.next y ∧ f'.prev y = f.prev y) :
    Shows f' (.row [x] :: l) := by
  obtain ⟨hshows, hout⟩ := shows_row_singleton.mp hf
  refine shows_row_singleton.mpr ⟨hshows.congr fun y hy => hlinks y fun heq => ?_, hout⟩
  exact hout (heq ▸ hy)

end Shape

section Edits
variable [DecidableEq α] {f : Links α} {l : Shape α} {h n x y : α} {a b s ns : List α}

/-- The pieces that a link does not touch. -/
theorem isChain_apart (hl : ∀ c ∈ l, c.walk.IsChain (Linked f)) (hx : x ∉ l.nodes)
    (hy : y ∉ l.nodes) : ∀ c ∈ l, c.walk.IsChain (Linked (f.link x y)) := by
  intro c hc
  have hout : ∀ z ∉ l.nodes, z ∉ c.walk := fun z hz hmem =>
    hz (List.mem_flatMap.mpr ⟨c, hc, mem_nodes_of_walk hmem⟩)
  exact isChain_link_of_notMem (hl c hc) (hout x hx) (hout y hy)

/-- A node becomes the head of an empty list. -/
theorem Shows.init (hf : Shows f (.row [x] :: l)) : Shows (f.link x x) (.ring x [] :: l) := by
  have hx : x ∉ l.nodes := (List.nodup_cons.mp hf.nodup).1
  refine ⟨fun c hc => ?_, hf.nodup⟩
  obtain rfl | hc := List.mem_cons.mp hc
  · exact List.isChain_pair.mpr (linked_link f x x)
  · exact isChain_apart (fun c hc => hf.walk c (List.mem_cons_of_mem _ hc)) hx hx c hc

/-- The run `s` comes out of a list. -/
theorem Shows.cut (hf : Shows f (.ring h (a ++ s ++ b) :: l)) :
    Shows (f.link (a.getLastD h) (b.headD h)) (.ring h (a ++ b) :: .row s :: l) := by
  have hperm : (h :: (a ++ s ++ b) ++ l.nodes).Perm (h :: (a ++ b) ++ (s ++ l.nodes)) := by
    rw [List.perm_iff_count]
    intro z
    simp only [List.count_append, List.count_cons]
    omega
  have hnodup : (h :: (a ++ b) ++ (s ++ l.nodes)).Nodup := hperm.nodup_iff.mp hf.nodup
  have hparts : Parts h a b s l.nodes := by
    apply parts_of_nodup
    simpa using hnodup
  have hwalk := hf.walk _ (List.mem_cons_self ..)
  rw [Piece.walk, List.append_assoc a, isChain_cut] at hwalk
  obtain ⟨hbefore, -, hafter⟩ := hwalk
  rw [List.append_assoc] at hafter
  refine ⟨fun c hc => ?_, hnodup⟩
  obtain rfl | hc := List.mem_cons.mp hc
  · refine isChain_cut.mpr ⟨?_, linked_link f _ _, ?_⟩
    · exact isChain_link hbefore (getLastD_not_mem hparts.before) hparts.first
    · refine isChain_link hafter.right_of_append ?_ (headD_not_mem hparts.after)
      rw [List.dropLast_concat]
      exact hparts.last
  obtain rfl | hc := List.mem_cons.mp hc
  · exact isChain_link_of_notMem hafter.left_of_append
      (fun hmem => hparts.rowBefore _ hmem (getLastD_mem h a))
      (fun hmem => hparts.rowAfter _ hmem (headD_mem b h))
  · exact isChain_apart (fun c hc => hf.walk c (List.mem_cons_of_mem _ hc)) hparts.last_rest
      hparts.first_rest c hc

/-- A row goes in. -/
theorem Shows.paste (hf : Shows f (.ring h (a ++ b) :: .row (n :: s) :: l)) :
    Shows ((f.link (s.getLastD n) (b.headD h)).link (a.getLastD h) n)
      (.ring h (a ++ n :: s ++ b) :: l) := by
  have hparts : Parts h a b (n :: s) l.nodes := by
    have hnodup : (h :: (a ++ b) ++ (n :: s ++ l.nodes)).Nodup := hf.nodup
    apply parts_of_nodup
    simpa using hnodup
  have hperm : (h :: (a ++ b) ++ (n :: s ++ l.nodes)).Perm
      (h :: (a ++ n :: s ++ b) ++ l.nodes) := by
    rw [List.perm_iff_count]
    intro z
    simp only [List.count_append, List.count_cons]
    omega
  have hwalk := hf.walk _ (List.mem_cons_self ..)
  have hrow : (n :: s).IsChain (Linked f) := hf.walk (.row (n :: s)) (by simp)
  rw [Piece.walk, isChain_cut] at hwalk
  obtain ⟨hbefore, -, hafter⟩ := hwalk
  have hn := List.mem_cons_self (a := n) (l := s)
  have hk := getLastD_mem n s
  have hrowLast : a.getLastD h ∉ n :: s := fun hmem => hparts.rowBefore _ hmem (getLastD_mem h a)
  have hrowFirst : b.headD h ∉ n :: s := fun hmem => hparts.rowAfter _ hmem (headD_mem b h)
  refine ⟨fun c hc => ?_, hperm.nodup_iff.mp hf.nodup⟩
  obtain rfl | hc := List.mem_cons.mp hc
  · rw [Piece.walk, List.append_assoc a, isChain_cut, List.cons_append, List.cons_append,
      isChain_cut]
    refine ⟨?_, linked_link _ _ _, ?_, ?_, ?_⟩
    · have hfirst := isChain_link hbefore
        (fun hmem => hparts.rowBefore _ hk (List.dropLast_subset _ hmem)) hparts.first
      exact isChain_link hfirst (getLastD_not_mem hparts.before)
        fun hmem => hparts.rowBefore _ hn (List.mem_of_mem_tail hmem)
    · have hfirst := isChain_link hrow (getLastD_not_mem hparts.row)
        fun hmem => hrowFirst (List.mem_of_mem_tail hmem)
      exact isChain_link hfirst (fun hmem => hrowLast (List.dropLast_subset _ hmem))
        (List.nodup_cons.mp hparts.row).1
    · have hne : s.getLastD n ≠ a.getLastD h := fun e => hrowLast (e ▸ hk)
      have hne' : b.headD h ≠ n := fun e => hrowFirst (e ▸ hn)
      exact ((linked_link f _ _).setNext hne _).setPrev hne' _
    · have hfirst := isChain_link hafter
        (fun hmem => hparts.rowAfter _ hk (List.dropLast_subset _ hmem))
        (headD_not_mem hparts.after)
      refine isChain_link hfirst ?_ fun hmem => hparts.rowAfter _ hn (List.mem_of_mem_tail hmem)
      rw [List.dropLast_concat]
      exact hparts.last
  · have hrest := isChain_apart (fun c hc => hf.walk c (by simp [hc])) (hparts.row_rest hk)
      hparts.first_rest
    exact isChain_apart hrest hparts.last_rest (hparts.row_rest hn) c hc

/-- A row becomes the list of a node that is in no list. -/
theorem Shows.close (hf : Shows f (.row [x] :: .row (n :: s) :: l)) :
    Shows ((f.link (s.getLastD n) x).link x n) (.ring x (n :: s) :: l) := by
  have hpaste := (hf.init.paste (a := []) (b := []))
  rw [List.getLastD_nil, List.headD_nil, link_link] at hpaste
  simpa using hpaste

/-- One row takes the place of another. -/
theorem Shows.replace {r : List α}
    (hf : Shows f (.ring h (a ++ r ++ b) :: .row (n :: s) :: l)) :
    Shows ((f.link (s.getLastD n) (b.headD h)).link (a.getLastD h) n)
      (.ring h (a ++ n :: s ++ b) :: .row r :: l) := by
  have hcut := hf.cut.perm (.cons _ (.swap ..))
  have hpaste := hcut.paste
  rwa [link_link] at hpaste

end Edits

end Yack.ListSurgery
