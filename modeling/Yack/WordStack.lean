import Yack.ByteMemory

/-!
# A stack of words in memory

Pushing a list of words below a stack pointer, and reading them back. The
pointer is an arbitrary 32-bit word: it need not be aligned, and the stack may
wrap around the end of the address space as long as it does not meet itself.
-/
namespace Yack.WordStack
open ByteMemory

/-- The memory after pushing the words, the first one highest. -/
def pushWords (m : Memory Addr) (sp : Addr) : List (BitVec 32) → Memory Addr
  | [] => m
  | w :: ws => pushWords (m.storeWord (sp - 4) w) (sp - 4) ws

/-- The `n` words below `sp`. -/
def Below (sp : Addr) (n : ℕ) (x : Addr) : Prop := Within (sp - BitVec.ofNat 32 (4 * n)) (4 * n) x

/-- `&sp[-k]` for words. -/
def slot (sp : Addr) (k : ℕ) : Addr := sp - BitVec.ofNat 32 (4 * k)

theorem slot_zero (sp : Addr) : slot sp 0 = sp := BitVec.sub_zero sp

theorem slot_next (sp : Addr) (k : ℕ) : slot (sp - 4) k = slot sp (k + 1) := by
  unfold slot
  rw [Nat.mul_add, BitVec.ofNat_add]
  bv_omega

theorem slot_slot (sp : Addr) (k j : ℕ) : slot (slot sp k) j = slot sp (k + j) := by
  unfold slot
  rw [Nat.mul_add, BitVec.ofNat_add]
  bv_omega

theorem slot_add (sp : Addr) {k j : ℕ} (h : j ≤ k) :
    slot sp k + BitVec.ofNat 32 (4 * j) = slot sp (k - j) := by
  have hsplit : 4 * k = 4 * (k - j) + 4 * j := by omega
  unfold slot
  rw [hsplit, BitVec.ofNat_add]
  generalize BitVec.ofNat 32 (4 * j) = b
  generalize BitVec.ofNat 32 (4 * (k - j)) = a
  bv_omega

theorem within_slot {sp x : Addr} {k n : ℕ} (hk : k < n) (hx : Within (slot sp (k + 1)) 4 x) :
    Within (slot sp n) (4 * n) x := by
  have hslot := slot_add sp (Nat.sub_le n (k + 1))
  rw [Nat.sub_sub_self hk] at hslot
  have hle : (BitVec.ofNat 32 (4 * (n - (k + 1)))).toNat ≤ 4 * (n - (k + 1)) := by
    rw [BitVec.toNat_ofNat]
    exact Nat.mod_le _ _
  rw [← hslot] at hx
  unfold Within at hx ⊢
  generalize BitVec.ofNat 32 (4 * (n - (k + 1))) = offset at hx hle
  bv_omega

theorem below_succ {sp x : Addr} {n : ℕ} (hn : 4 * (n + 1) ≤ 2 ^ 32) :
    Below sp (n + 1) x ↔ Within (sp - 4) 4 x ∨ Below (sp - 4) n x := by
  unfold Below Within
  constructor
  · intro h
    by_cases hx : (x - (sp - 4)).toNat < 4
    · exact .inl hx
    · right
      bv_omega
  · intro h
    obtain h | h := h <;> bv_omega

theorem below_disjoint {sp x : Addr} {n : ℕ} (hn : 4 * (n + 1) ≤ 2 ^ 32)
    (h : Within (sp - 4) 4 x) : ¬ Below (sp - 4) n x := by
  unfold Below Within at *
  bv_omega

theorem pushWords_append (m : Memory Addr) (sp : Addr) (ws ws' : List (BitVec 32)) :
    pushWords m sp (ws ++ ws') = pushWords (pushWords m sp ws) (slot sp ws.length) ws' := by
  induction ws generalizing m sp with
  | nil => rw [List.nil_append, List.length_nil, slot_zero, pushWords]
  | cons w ws ih => rw [List.cons_append, pushWords, pushWords, ih, slot_next, List.length_cons]

theorem pushWords_frame (m : Memory Addr) (sp : Addr) (ws : List (BitVec 32))
    (hlen : 4 * ws.length ≤ 2 ^ 32) : m.Frame (pushWords m sp ws) (Below sp ws.length) := by
  induction ws generalizing m sp with
  | nil => exact Memory.Frame.refl m _
  | cons w ws ih =>
      rw [List.length_cons] at hlen ⊢
      have hfirst := (m.frame_storeWord (sp - 4) w).mono fun x hx =>
        (below_succ hlen).mpr (.inl hx)
      have hrest := (ih (m.storeWord (sp - 4) w) (sp - 4) (by omega)).mono fun x hx =>
        (below_succ hlen).mpr (.inr hx)
      exact hfirst.trans hrest

/-- The `k`-th word pushed is `k + 1` words below the pointer. -/
theorem pushWords_load (m : Memory Addr) (sp : Addr) (ws : List (BitVec 32))
    (hlen : 4 * ws.length ≤ 2 ^ 32) {k : ℕ} {w : BitVec 32} (hw : ws[k]? = some w) :
    (pushWords m sp ws).loadWord (slot sp (k + 1)) = w := by
  induction ws generalizing m sp k with
  | nil => cases hw
  | cons v ws ih =>
      rw [List.length_cons] at hlen
      cases k with
      | zero =>
          cases hw
          rw [pushWords, ← slot_next, slot_zero,
            (pushWords_frame _ (sp - 4) ws (by omega)).loadWord fun x hx =>
              below_disjoint hlen hx, Memory.loadWord_storeWord]
      | succ k =>
          rw [pushWords, ← slot_next]
          exact ih _ _ (by omega) hw

end Yack.WordStack
