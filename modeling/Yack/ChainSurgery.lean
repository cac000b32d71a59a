import Yack.ListSurgery

/-!
# Surgery on chains

A chain starts at a cell that only points forward, and ends at nothing. Each node
knows the cell that points at it, the start or the node before it. So a node comes
out, or another goes in before it, without the start being known.
-/
namespace Yack.ChainSurgery
open ListSurgery

variable {α : Type*}

/-- From `c` on the nodes `ns`, and then `nil`. -/
def Chain (nil : α) (f : Links α) : α → List α → Prop
  | c, [] => f.next c = nil
  | c, n :: ns => Linked f c n ∧ Chain nil f n ns

section Chain
variable {f f' : Links α} {nil c n : α} {a b ns : List α}

theorem Chain.next_start (h : Chain nil f c ns) : f.next c = ns.headD nil := by
  cases ns with
  | nil => exact h
  | cons n ns => exact h.1.1

/-- What points at the start does not matter. -/
theorem Chain.congr (h : Chain nil f c ns) (hnext : ∀ x ∈ c :: ns, f'.next x = f.next x)
    (hprev : ∀ x ∈ ns, f'.prev x = f.prev x) : Chain nil f' c ns := by
  induction ns generalizing c with
  | nil => exact (hnext c (List.mem_cons_self ..)).trans h
  | cons n ns ih =>
      obtain ⟨⟨hn, hp⟩, hrest⟩ := h
      refine ⟨⟨(hnext c (List.mem_cons_self ..)).trans hn,
        (hprev n (List.mem_cons_self ..)).trans hp⟩, ?_⟩
      exact ih hrest (fun x hx => hnext x (List.mem_cons_of_mem _ hx))
        fun x hx => hprev x (List.mem_cons_of_mem _ hx)

theorem chain_append : Chain nil f c (a ++ b) ↔
    (c :: a).IsChain (Linked f) ∧ Chain nil f (a.getLastD c) b := by
  induction a generalizing c with
  | nil => simp
  | cons n a ih =>
      rw [List.cons_append, Chain, ih, List.isChain_cons_cons, List.getLastD_cons]
      exact and_assoc.symm

theorem Chain.around (h : Chain nil f c (a ++ n :: b)) :
    f.prev n = a.getLastD c ∧ f.next n = b.headD nil := by
  obtain ⟨-, hlinked, hrest⟩ := chain_append.mp h
  exact ⟨hlinked.2, hrest.next_start⟩

end Chain

section Back
variable [DecidableEq α] {f : Links α} {n v w x : α} {b ns : List α}

/-- The first of `ns`, if there is one, is pointed at by `v`. -/
def setBack (f : Links α) (ns : List α) (v : α) : Links α :=
  match ns with
  | [] => f
  | n :: _ => f.setPrev n v

theorem setBack_next (f : Links α) (ns : List α) (v : α) : (setBack f ns v).next = f.next := by
  cases ns <;> rfl

theorem setBack_prev (hx : x ∉ ns) (f : Links α) (v : α) : (setBack f ns v).prev x = f.prev x := by
  cases ns with
  | nil => rfl
  | cons n ns => exact Function.update_of_ne (List.ne_of_not_mem_cons hx) v f.prev

theorem isChain_setBack (h : ns.IsChain (Linked f)) (hb : ∀ x ∈ b, x ∉ ns.tail) (v : α) :
    ns.IsChain (Linked (setBack f b v)) := by
  cases b with
  | nil => exact h
  | cons n b => exact isChain_setPrev h (hb n (List.mem_cons_self ..)) v

/-- A node that is not the first of `ns` may be given its own link first. -/
theorem setBack_setPrev (f : Links α) (hn : n ∉ ns) (v w : α) :
    setBack (f.setPrev n v) ns w = (setBack f ns w).setPrev n v := by
  cases ns with
  | nil => rfl
  | cons k ns =>
      have hne : k ≠ n := fun heq => hn (heq ▸ List.mem_cons_self ..)
      simp only [setBack, Links.setPrev, Function.update_comm hne]

theorem setBack_setNext (f : Links α) (ns : List α) (x v w : α) :
    setBack (f.setNext x v) ns w = (setBack f ns w).setNext x v := by
  cases ns <;> rfl

end Back

section Edits
variable [DecidableEq α] {f : Links α} {nil c d n : α} {a b ns : List α}

/-- The nodes of a chain hang on another cell. -/
theorem Chain.hang (h : Chain nil f c ns) (hnodup : (d :: ns).Nodup) :
    Chain nil (setBack (f.setNext d (ns.headD nil)) ns d) d ns := by
  obtain ⟨hd, hns⟩ := List.nodup_cons.mp hnodup
  cases ns with
  | nil => exact Function.update_self ..
  | cons n ns =>
      refine ⟨⟨Function.update_self .., Function.update_self ..⟩, ?_⟩
      refine h.2.congr (fun x hx => ?_) fun x hx => ?_
      · exact Function.update_of_ne (ne_of_mem_of_not_mem hx hd) _ _
      · exact Function.update_of_ne (ne_of_mem_of_not_mem hx (List.nodup_cons.mp hns).1) _ _

/-- A node comes out. -/
theorem Chain.unlink (h : Chain nil f c (a ++ n :: b)) (hnodup : (c :: (a ++ n :: b)).Nodup) :
    Chain nil (setBack (f.setNext (a.getLastD c) (b.headD nil)) b (a.getLastD c)) c (a ++ b) := by
  obtain ⟨hbefore, -, hafter⟩ := chain_append.mp h
  rw [← List.cons_append] at hnodup
  obtain ⟨ha, hnb, hdisj⟩ := List.nodup_append.mp hnodup
  have hb := (List.nodup_cons.mp hnb).2
  have hlast : a.getLastD c ∉ b := fun hmem =>
    hdisj _ (getLastD_mem c a) _ (List.mem_cons_of_mem _ hmem) rfl
  refine chain_append.mpr ⟨?_, hafter.hang (List.nodup_cons.mpr ⟨hlast, hb⟩)⟩
  refine isChain_setBack (isChain_setNext hbefore (getLastD_not_mem ha) _) (fun x hx hmem => ?_) _
  exact hdisj x (List.mem_of_mem_tail hmem) x (List.mem_cons_of_mem _ hx) rfl

/-- A node goes in. -/
theorem Chain.insert (h : Chain nil f c (a ++ b)) (hnodup : (n :: c :: (a ++ b)).Nodup) :
    Chain nil ((setBack (f.setNext n (b.headD nil)) b n).link (a.getLastD c) n) c
      (a ++ n :: b) := by
  obtain ⟨hbefore, hafter⟩ := chain_append.mp h
  obtain ⟨hn, hrest⟩ := List.nodup_cons.mp hnodup
  rw [← List.cons_append] at hn hrest
  obtain ⟨ha, hb, hdisj⟩ := List.nodup_append.mp hrest
  have hna : n ∉ c :: a := fun hmem => hn (List.mem_append_left _ hmem)
  have hnb : n ∉ b := fun hmem => hn (List.mem_append_right _ hmem)
  have hlast : a.getLastD c ∉ n :: b := by
    intro hmem
    obtain heq | hmem := List.mem_cons.mp hmem
    · exact hna (heq ▸ getLastD_mem c a)
    · exact hdisj _ (getLastD_mem c a) _ hmem rfl
  refine chain_append.mpr ⟨?_, linked_link _ _ _, ?_⟩
  · refine isChain_link ?_ (getLastD_not_mem ha) fun hmem => hna (List.mem_of_mem_tail hmem)
    refine isChain_setBack (isChain_setNext hbefore ?_ _) (fun x hx hmem => ?_) _
    · exact fun hmem => hna (List.dropLast_subset _ hmem)
    · exact hdisj x (List.mem_of_mem_tail hmem) x hx rfl
  · refine (hafter.hang (List.nodup_cons.mpr ⟨hnb, hb⟩)).congr (fun x hx => ?_) fun x hx => ?_
    · exact Function.update_of_ne (ne_of_mem_of_not_mem hx hlast) _ _
    · exact Function.update_of_ne (ne_of_mem_of_not_mem hx hnb) _ _

end Edits

end Yack.ChainSurgery
