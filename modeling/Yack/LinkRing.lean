import Mathlib.Data.List.Basic
import Mathlib.Tactic.Common

/-!
# Circular doubly linked rings

A ring over any type of nodes: a head and two link fields, read as functions.
`Path next prev a ns b` walks from `a` through `ns` to `b` with every forward
link answered by a backward one, and a ring is a path from the head back to
itself whose nodes are distinct.

Both edits are stated about the fields after the edit: what the few rewritten
links hold now, and that every other link of the ring is as before. How the
fields are stored, and in which order they are written, stays with the caller.
-/

namespace Yack.LinkRing

variable {α : Type*}

def Path (next prev : α → α) : α → List α → α → Prop
  | a, [], b => next a = b ∧ prev b = a
  | a, n :: ns, b => next a = n ∧ prev n = a ∧ Path next prev n ns b

/-- Links read: forward ones from the start and the inner nodes, backward ones
from the inner nodes and the end. -/
theorem Path.congr {next prev next' prev' : α → α} {a b : α} {ns : List α}
    (h : Path next prev a ns b) (hn : ∀ x ∈ a :: ns, next' x = next x)
    (hp : ∀ x ∈ ns ++ [b], prev' x = prev x) : Path next' prev' a ns b := by
  induction ns generalizing a with
  | nil =>
      refine ⟨(hn a (by simp)).trans h.1, (hp b (by simp)).trans h.2⟩
  | cons n ns ih =>
      refine ⟨(hn a (by simp)).trans h.1, (hp n (by simp)).trans h.2.1, ih h.2.2 ?_ ?_⟩
      · intro x hx
        exact hn x (by simp [List.mem_cons.mp hx])
      · intro x hx
        exact hp x (by simp only [List.cons_append, List.mem_cons]; exact .inr hx)

theorem path_append {next prev : α → α} {a b n : α} {ns ms : List α} :
    Path next prev a (ns ++ n :: ms) b ↔ Path next prev a ns n ∧ Path next prev n ms b := by
  induction ns generalizing a with
  | nil => simp only [List.nil_append, Path, and_assoc]
  | cons m ns ih => simp only [List.cons_append, Path, ih, and_assoc]

theorem Path.prev_end_mem {next prev : α → α} {a b : α} {ns : List α}
    (h : Path next prev a ns b) : prev b ∈ a :: ns := by
  induction ns generalizing a with
  | nil => simpa using h.2
  | cons n ns ih => exact List.mem_cons_of_mem _ (ih h.2.2)

theorem Path.next_start_mem {next prev : α → α} {a b : α} {ns : List α}
    (h : Path next prev a ns b) : next a ∈ ns ++ [b] := by
  cases ns with
  | nil => simpa using h.1
  | cons n ns => simp [h.1]

/-- The forward links alone decide which nodes lie between two ends. -/
theorem Path.unique {next prev : α → α} {a b : α} {ns ms : List α} (h : Path next prev a ns b)
    (k : Path next prev a ms b) (hn : b ∉ ns) (hm : b ∉ ms) : ns = ms := by
  induction ns generalizing a ms with
  | nil =>
      cases ms with
      | nil => rfl
      | cons m ms =>
          have hend : b = m := h.1.symm.trans k.1
          exact absurd (by simp [hend]) hm
  | cons n ns ih =>
      cases ms with
      | nil =>
          have hend : b = n := k.1.symm.trans h.1
          exact absurd (by simp [hend]) hn
      | cons m ms =>
          obtain rfl : n = m := h.1.symm.trans k.1
          rw [List.mem_cons, not_or] at hn hm
          rw [ih h.2.2 k.2.2 hn.2 hm.2]

/-- The nodes of a ring after its head, oldest first. -/
structure Ring (next prev : α → α) (head : α) (ns : List α) : Prop where
  path : Path next prev head ns head
  nodup : (head :: ns).Nodup

section Edits
variable {next prev next' prev' : α → α} {head n : α} {ns : List α}

theorem ring_nil : Ring next prev head [] ↔ next head = head ∧ prev head = head := by
  refine ⟨fun h => h.path, fun h => ⟨h, by simp⟩⟩

theorem Ring.unique {ms : List α} (h : Ring next prev head ns) (k : Ring next prev head ms) :
    ns = ms :=
  h.path.unique k.path (List.nodup_cons.mp h.nodup).1 (List.nodup_cons.mp k.nodup).1

theorem Ring.congr (h : Ring next prev head ns) (hn : ∀ x ∈ head :: ns, next' x = next x)
    (hp : ∀ x ∈ head :: ns, prev' x = prev x) : Ring next' prev' head ns := by
  refine ⟨h.path.congr hn fun x hx => hp x ?_, h.nodup⟩
  simpa [or_comm] using hx

theorem Ring.prev_head_mem (h : Ring next prev head ns) : prev head ∈ head :: ns :=
  h.path.prev_end_mem

theorem Ring.next_first_mem (h : Ring next prev head (n :: ns)) : next n ∈ head :: ns := by
  simpa [or_comm] using h.path.2.2.next_start_mem

/-- Unlinking the oldest node: the head and the node after it now answer each
other, everything else in the ring is untouched. -/
theorem Ring.unlink_first (h : Ring next prev head (n :: ns)) (hn : next' head = next n)
    (hp : prev' (next n) = head) (hnext : ∀ x ∈ ns, next' x = next x)
    (hprev : ∀ x ∈ head :: ns, x ≠ next n → prev' x = prev x) : Ring next' prev' head ns := by
  have hnodup := h.nodup
  simp only [List.nodup_cons, List.mem_cons, not_or] at hnodup
  refine ⟨?_, by simp only [List.nodup_cons]; exact ⟨hnodup.1.2, hnodup.2.2⟩⟩
  cases ns with
  | nil =>
      have hh : next n = head := h.path.2.2.1
      exact ⟨hn.trans hh, by rwa [hh] at hp⟩
  | cons m ms =>
      obtain ⟨-, -, hm, -, hrest⟩ := h.path
      refine ⟨hn.trans hm, by rwa [hm] at hp, hrest.congr hnext ?_⟩
      intro x hx
      refine hprev x (by simp only [List.mem_append, List.mem_cons] at hx ⊢; tauto) ?_
      rw [hm]
      rintro rfl
      rcases List.mem_append.mp hx with hx | hx
      · exact (List.nodup_cons.mp hnodup.2.2).1 hx
      · exact hnodup.1.2 (by simp_all)

/-- Linking a new node in before the head makes it the youngest. -/
theorem Ring.link_last (h : Ring next prev head ns) (hnew : n ∉ head :: ns)
    (hlast : next' (prev head) = n) (hback : prev' n = prev head) (hn : next' n = head)
    (hp : prev' head = n) (hnext : ∀ x ∈ head :: ns, x ≠ prev head → next' x = next x)
    (hprev : ∀ x ∈ ns, prev' x = prev x) : Ring next' prev' head (ns ++ [n]) := by
  refine ⟨path_append.mpr ⟨?_, hn, hp⟩, ?_⟩
  · rcases List.eq_nil_or_concat ns with rfl | ⟨ms, m, rfl⟩
    · have hend : prev head = head := h.path.2
      exact ⟨by rwa [hend] at hlast, hback.trans hend⟩
    · simp only [List.concat_eq_append] at *
      have hpath := path_append.mp h.path
      have hend : prev head = m := hpath.2.2
      refine path_append.mpr ⟨hpath.1.congr ?_ hprev, by rwa [hend] at hlast, hback.trans hend⟩
      intro x hx
      refine hnext x (by simp only [List.mem_cons, List.mem_append] at hx ⊢; tauto) ?_
      -- the last node is the only one whose forward link changed
      rw [hend]
      rintro rfl
      have hnodup := h.nodup
      rw [← List.cons_append, List.nodup_append] at hnodup
      exact hnodup.2.2 x hx x (by simp) rfl
  · rw [← List.cons_append]
    refine List.nodup_append.mpr ⟨h.nodup, by simp, ?_⟩
    rintro x hx y hy rfl
    exact hnew (List.mem_singleton.mp hy ▸ hx)

end Edits
end Yack.LinkRing
