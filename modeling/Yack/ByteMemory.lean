import Mathlib.Algebra.Group.Nat.Defs
import Mathlib.Logic.Function.Basic
import Mathlib.Tactic.Common

/-!
# Byte-addressed memory with a store log

A memory is a total function from addresses to bytes together with the list of
addresses stored to so far, newest first. The log is what a bound on writes is
stated about: a store that happens to put back the old byte still counts.

The address type is a parameter. Machine addresses are 32-bit words, offsets
into one C object are natural numbers, and offsets that may fall below the
object are integers. Words and half words are little endian and exist only at
machine addresses, where the address of the next byte wraps like the hardware.
-/

namespace Yack

abbrev Byte := BitVec 8
abbrev Addr := BitVec 32

namespace ByteMemory

structure Memory (α : Type) where
  byte : α → Byte
  written : List α

variable {α : Type}

/-- A byte that changed was stored to, so a bound on the log frames the rest. -/
def Memory.Frame (m m' : Memory α) (region : α → Prop) : Prop :=
  (∀ x, ¬ region x → m'.byte x = m.byte x) ∧
    ∀ x ∈ m'.written, x ∈ m.written ∨ region x

theorem Memory.Frame.refl (m : Memory α) (region : α → Prop) : m.Frame m region :=
  ⟨fun _ _ => rfl, fun _ hx => .inl hx⟩

theorem Memory.Frame.trans {m m' m'' : Memory α} {region : α → Prop}
    (h : m.Frame m' region) (k : m'.Frame m'' region) : m.Frame m'' region := by
  refine ⟨fun x hx => (k.1 x hx).trans (h.1 x hx), fun x hx => ?_⟩
  rcases k.2 x hx with hx | hx
  · exact h.2 x hx
  · exact .inr hx

theorem Memory.Frame.mono {m m' : Memory α} {small large : α → Prop}
    (h : m.Frame m' small) (hsub : ∀ x, small x → large x) : m.Frame m' large :=
  ⟨fun x hx => h.1 x fun hs => hx (hsub x hs), fun x hx => (h.2 x hx).imp_right (hsub x)⟩

variable [DecidableEq α]

/-- The only primitive that changes a memory. -/
def Memory.store (m : Memory α) (a : α) (b : Byte) : Memory α :=
  { byte := Function.update m.byte a b, written := a :: m.written }

theorem Memory.store_byte (m : Memory α) (a x : α) (b : Byte) :
    (m.store a b).byte x = if x = a then b else m.byte x := by
  by_cases h : x = a <;> simp [Memory.store, h]

@[simp] theorem Memory.store_byte_same (m : Memory α) (a : α) (b : Byte) :
    (m.store a b).byte a = b := by simp [Memory.store]

theorem Memory.store_byte_of_ne (m : Memory α) {a x : α} (b : Byte) (h : x ≠ a) :
    (m.store a b).byte x = m.byte x := by simp [Memory.store, h]

@[simp] theorem Memory.store_written (m : Memory α) (a : α) (b : Byte) :
    (m.store a b).written = a :: m.written := rfl

theorem Memory.frame_store (m : Memory α) (a : α) (b : Byte) {region : α → Prop}
    (ha : region a) : m.Frame (m.store a b) region := by
  refine ⟨fun x hx => m.store_byte_of_ne b fun h => hx (h ▸ ha), fun x hx => ?_⟩
  rcases List.mem_cons.mp hx with rfl | hx
  · exact .inr ha
  · exact .inl hx

/-- A shifted and masked word, cut to the width of the mask, is a bit field. -/
theorem masked_field {n : ℕ} (x : BitVec n) (i w : ℕ) :
    ((x >>> i) &&& BitVec.ofNat n (2 ^ w - 1)).setWidth w = x.extractLsb' i w := by
  apply BitVec.eq_of_getLsbD_eq
  intro k hk
  rw [BitVec.getLsbD_setWidth, BitVec.getLsbD_and, BitVec.getLsbD_ushiftRight,
    BitVec.getLsbD_ofNat, Nat.testBit_two_pow_sub_one, BitVec.getLsbD_extractLsb']
  by_cases hn : k < n
  · simp [hk, hn]
  · simp [BitVec.getLsbD_of_ge x (i + k) (by omega)]

def Memory.loadHalf (m : Memory Addr) (a : Addr) : BitVec 16 :=
  m.byte (a + 1) ++ m.byte a

def Memory.storeHalf (m : Memory Addr) (a : Addr) (h : BitVec 16) : Memory Addr :=
  (m.store a (h.extractLsb' 0 8)).store (a + 1) (h.extractLsb' 8 8)

def Memory.loadWord (m : Memory Addr) (a : Addr) : BitVec 32 :=
  m.byte (a + 3) ++ m.byte (a + 2) ++ m.byte (a + 1) ++ m.byte a

def Memory.storeWord (m : Memory Addr) (a : Addr) (w : BitVec 32) : Memory Addr :=
  (((m.store a (w.extractLsb' 0 8)).store (a + 1) (w.extractLsb' 8 8)).store (a + 2)
    (w.extractLsb' 16 8)).store (a + 3) (w.extractLsb' 24 8)

/-- `x` is one of the `n` bytes that start at `a`. -/
def Within (a : Addr) (n : ℕ) (x : Addr) : Prop := (x - a).toNat < n

instance (a : Addr) (n : ℕ) (x : Addr) : Decidable (Within a n x) :=
  inferInstanceAs (Decidable (_ < _))

theorem within_half {a x : Addr} : Within a 2 x ↔ x = a ∨ x = a + 1 := by
  unfold Within
  constructor
  · intro h
    rcases (by omega : (x - a).toNat = 0 ∨ (x - a).toNat = 1) with h | h <;> bv_omega
  · rintro (rfl | rfl) <;> bv_omega

theorem within_word {a x : Addr} :
    Within a 4 x ↔ x = a ∨ x = a + 1 ∨ x = a + 2 ∨ x = a + 3 := by
  unfold Within
  constructor
  · intro h
    rcases (by omega : (x - a).toNat = 0 ∨ (x - a).toNat = 1 ∨ (x - a).toNat = 2 ∨
      (x - a).toNat = 3) with h | h | h | h <;> bv_omega
  · rintro (rfl | rfl | rfl | rfl) <;> bv_omega

theorem Memory.frame_storeHalf (m : Memory Addr) (a : Addr) (h : BitVec 16) :
    m.Frame (m.storeHalf a h) (Within a 2) :=
  (m.frame_store a _ (within_half.mpr (.inl rfl))).trans
    (Memory.frame_store _ _ _ (within_half.mpr (.inr rfl)))

theorem Memory.frame_storeWord (m : Memory Addr) (a : Addr) (w : BitVec 32) :
    m.Frame (m.storeWord a w) (Within a 4) :=
  (((m.frame_store a _ (within_word.mpr (.inl rfl))).trans
    (Memory.frame_store _ _ _ (within_word.mpr (.inr (.inl rfl))))).trans
    (Memory.frame_store _ _ _ (within_word.mpr (.inr (.inr (.inl rfl)))))).trans
    (Memory.frame_store _ _ _ (within_word.mpr (.inr (.inr (.inr rfl)))))

theorem Memory.loadWord_storeWord (m : Memory Addr) (a : Addr) (w : BitVec 32) :
    (m.storeWord a w).loadWord a = w := by
  have h₁ : a ≠ a + 1 ∧ a ≠ a + 2 ∧ a ≠ a + 3 := by refine ⟨?_, ?_, ?_⟩ <;> bv_omega
  have h₂ : a + 1 ≠ a + 2 ∧ a + 1 ≠ a + 3 ∧ a + 2 ≠ a + 3 := by
    refine ⟨?_, ?_, ?_⟩ <;> bv_omega
  simp only [Memory.loadWord, Memory.storeWord, Memory.store_byte, h₁, h₂, if_true, if_false]
  ext i hi
  simp only [BitVec.getElem_append, BitVec.getElem_extractLsb']
  split
  · simp [BitVec.getLsbD_eq_getElem, hi]
  · split
    · rw [show 8 + (i - 8) = i by omega, BitVec.getLsbD_eq_getElem hi]
    · split
      · rw [show 16 + (i - 8 - 8) = i by omega, BitVec.getLsbD_eq_getElem hi]
      · rw [show 24 + (i - 8 - 8 - 8) = i by omega, BitVec.getLsbD_eq_getElem hi]

theorem Memory.loadHalf_storeHalf (m : Memory Addr) (a : Addr) (h : BitVec 16) :
    (m.storeHalf a h).loadHalf a = h := by
  have hne : a ≠ a + 1 := by bv_omega
  simp only [Memory.loadHalf, Memory.storeHalf, Memory.store_byte, hne, if_true, if_false]
  ext i hi
  simp only [BitVec.getElem_append, BitVec.getElem_extractLsb']
  split
  · simp [BitVec.getLsbD_eq_getElem, hi]
  · rw [show 8 + (i - 8) = i by omega, BitVec.getLsbD_eq_getElem hi]

theorem Memory.loadHalf_congr {m m' : Memory Addr} {a : Addr}
    (h : ∀ x, Within a 2 x → m'.byte x = m.byte x) : m'.loadHalf a = m.loadHalf a := by
  unfold Memory.loadHalf
  rw [h a (within_half.mpr (.inl rfl)), h (a + 1) (within_half.mpr (.inr rfl))]

/-- A word is read the same from two memories that agree on its four bytes. -/
theorem Memory.loadWord_congr {m m' : Memory Addr} {a : Addr}
    (h : ∀ x, Within a 4 x → m'.byte x = m.byte x) : m'.loadWord a = m.loadWord a := by
  unfold Memory.loadWord
  rw [h a (within_word.mpr (.inl rfl)), h (a + 1) (within_word.mpr (.inr (.inl rfl))),
    h (a + 2) (within_word.mpr (.inr (.inr (.inl rfl)))),
    h (a + 3) (within_word.mpr (.inr (.inr (.inr rfl))))]

theorem Memory.Frame.loadWord {m m' : Memory Addr} {region : Addr → Prop} {a : Addr}
    (h : m.Frame m' region) (ha : ∀ x, Within a 4 x → ¬ region x) :
    m'.loadWord a = m.loadWord a :=
  Memory.loadWord_congr fun x hx => h.1 x (ha x hx)

/-- Two words that do not share a byte. -/
def Apart (a b : Addr) : Prop := 4 ≤ (a - b).toNat ∧ 4 ≤ (b - a).toNat

theorem Apart.disjoint {a b x : Addr} (h : Apart a b) (hx : Within b 4 x) : ¬ Within a 4 x := by
  unfold Apart at h
  unfold Within at hx ⊢
  bv_omega

theorem Memory.loadWord_storeWord_apart (m : Memory Addr) {a b : Addr} (w : BitVec 32)
    (h : Apart a b) : (m.storeWord a w).loadWord b = m.loadWord b :=
  (m.frame_storeWord a w).loadWord fun _ hx => h.disjoint hx

/-- Word-aligned addresses: two of them are equal or share no byte. -/
def Aligned4 (a : Addr) : Prop := a.toNat % 4 = 0

instance (a : Addr) : Decidable (Aligned4 a) := inferInstanceAs (Decidable (_ = _))

theorem Aligned4.apart {a b : Addr} (ha : Aligned4 a) (hb : Aligned4 b) (h : a ≠ b) :
    Apart a b := by
  unfold Aligned4 at ha hb
  unfold Apart
  bv_omega

theorem Aligned4.add_four {a : Addr} (h : Aligned4 a) : Aligned4 (a + 4) := by
  unfold Aligned4 at *
  bv_omega

/-- On aligned addresses the word view is an ordinary map with point update. -/
theorem Memory.loadWord_storeWord_aligned (m : Memory Addr) {a b : Addr} (w : BitVec 32)
    (ha : Aligned4 a) (hb : Aligned4 b) :
    (m.storeWord a w).loadWord b = if b = a then w else m.loadWord b := by
  split
  · subst b; exact m.loadWord_storeWord a w
  · rename_i h
    exact m.loadWord_storeWord_apart w (ha.apart hb (Ne.symm h))

end ByteMemory
end Yack
