import Yack.ByteMemory

/-!
# `memset`, `memcpy` and `memmove`

The three byte loops of `kernel/memop.c`. Every function returns the pointer it
was given along with the memory, as the C functions do. A `size_t` is a natural
number here; the pointers wrap.

`memcpy` copies upwards. It is a correct move of overlapping regions whenever
the destination starts at or below the source, which is exactly when `memmove`
calls it.
-/
namespace Yack.Memop
open ByteMemory

/-- `while (size-- != 0) *ptr++ = val;` -/
def memsetLoop (val : Byte) : ℕ → Addr → Memory Addr → Memory Addr
  | 0, _, m => m
  | size + 1, ptr, m => memsetLoop val size (ptr + 1) (m.store ptr val)

def memset (m : Memory Addr) (ptr_ : Addr) (val : Byte) (size : ℕ) : Addr × Memory Addr :=
  (ptr_, memsetLoop val size ptr_ m)

/-- `while (size-- != 0) *dst++ = *src++;` -/
def memcpyLoop : ℕ → Addr → Addr → Memory Addr → Memory Addr
  | 0, _, _, m => m
  | size + 1, dst, src, m => memcpyLoop size (dst + 1) (src + 1) (m.store dst (m.byte src))

def memcpy (m : Memory Addr) (dst_ src_ : Addr) (size : ℕ) : Addr × Memory Addr :=
  (dst_, memcpyLoop size dst_ src_ m)

/-- `while (size-- != 0) *--dst = *--src;` -/
def memmoveLoop : ℕ → Addr → Addr → Memory Addr → Memory Addr
  | 0, _, _, m => m
  | size + 1, dst, src, m =>
      memmoveLoop size (dst - 1) (src - 1) (m.store (dst - 1) (m.byte (src - 1)))

def memmove (m : Memory Addr) (dst_ src_ : Addr) (size : ℕ) : Addr × Memory Addr :=
  if dst_ < src_ then memcpy m dst_ src_ size
  else (dst_, memmoveLoop size (dst_ + BitVec.ofNat 32 size) (src_ + BitVec.ofNat 32 size) m)

theorem within_succ {a x : Addr} {n : ℕ} (hn : n < 2 ^ 32) :
    Within a (n + 1) x ↔ x = a ∨ Within (a + 1) n x := by
  unfold Within
  constructor
  · intro h
    by_cases hx : x = a
    · exact .inl hx
    · right; bv_omega
  · rintro (rfl | h) <;> bv_omega

theorem not_within_next {a : Addr} {n : ℕ} (hn : n < 2 ^ 32) : ¬ Within (a + 1) n a := by
  unfold Within
  bv_omega

theorem memsetLoop_byte (val : Byte) (size : ℕ) (ptr x : Addr) (m : Memory Addr)
    (hsize : size ≤ 2 ^ 32) :
    (memsetLoop val size ptr m).byte x = if Within ptr size x then val else m.byte x := by
  induction size generalizing ptr m with
  | zero => simp [memsetLoop, Within]
  | succ size ih =>
      have hlt : size < 2 ^ 32 := by omega
      rw [memsetLoop, ih _ _ (by omega), m.store_byte]
      by_cases hx : x = ptr
      · subst x
        simp [(within_succ hlt).mpr (.inl rfl)]
      · simp [hx, within_succ hlt]

theorem memsetLoop_frame (val : Byte) (size : ℕ) (ptr : Addr) (m : Memory Addr)
    (hsize : size ≤ 2 ^ 32) : m.Frame (memsetLoop val size ptr m) (Within ptr size) := by
  induction size generalizing ptr m with
  | zero => exact Memory.Frame.refl m _
  | succ size ih =>
      have hlt : size < 2 ^ 32 := by omega
      have hfirst := m.frame_store ptr val ((within_succ hlt).mpr (.inl rfl))
      have hrest := ih (ptr + 1) (m.store ptr val) (by omega)
      exact hfirst.trans (hrest.mono fun x hx => (within_succ hlt).mpr (.inr hx))

theorem memcpyLoop_frame (size : ℕ) (dst src : Addr) (m : Memory Addr)
    (hsize : size ≤ 2 ^ 32) : m.Frame (memcpyLoop size dst src m) (Within dst size) := by
  induction size generalizing dst src m with
  | zero => exact Memory.Frame.refl m _
  | succ size ih =>
      have hlt : size < 2 ^ 32 := by omega
      have hfirst := m.frame_store dst (m.byte src) ((within_succ hlt).mpr (.inl rfl))
      have hrest := ih (dst + 1) (src + 1) (m.store dst (m.byte src)) (by omega)
      exact hfirst.trans (hrest.mono fun x hx => (within_succ hlt).mpr (.inr hx))

/-- Copying upwards never reads a byte it has already overwritten when the
destination does not start above the source. -/
theorem memcpyLoop_byte (size : ℕ) (dst src : Addr) (m : Memory Addr)
    (hle : dst.toNat ≤ src.toNat) (hsrc : src.toNat + size ≤ 2 ^ 32) (i : ℕ) (hi : i < size) :
    (memcpyLoop size dst src m).byte (dst + BitVec.ofNat 32 i) =
      m.byte (src + BitVec.ofNat 32 i) := by
  induction size generalizing dst src m i with
  | zero => omega
  | succ size ih =>
      rw [memcpyLoop]
      cases i with
      | zero =>
          have hframe := memcpyLoop_frame size (dst + 1) (src + 1)
            (m.store dst (m.byte src)) (by omega)
          simpa using hframe.1 dst (not_within_next (by omega))
      | succ i =>
          have hnext : ∀ a : Addr, a + BitVec.ofNat 32 (i + 1) = a + 1 + BitVec.ofNat 32 i := by
            intro a
            rw [BitVec.ofNat_add]
            bv_omega
          by_cases hs : src.toNat + 1 < 2 ^ 32
          · rw [hnext, hnext, ih (dst + 1) (src + 1) _ (by bv_omega) (by bv_omega) i (by omega)]
            exact m.store_byte_of_ne _ (by bv_omega)
          · omega

/-- One step of the backward loop, from the starts of the two regions. -/
theorem memmoveLoop_succ (size : ℕ) (dst src : Addr) (m : Memory Addr) :
    memmoveLoop (size + 1) (dst + BitVec.ofNat 32 (size + 1)) (src + BitVec.ofNat 32 (size + 1)) m =
      memmoveLoop size (dst + BitVec.ofNat 32 size) (src + BitVec.ofNat 32 size)
        (m.store (dst + BitVec.ofNat 32 size) (m.byte (src + BitVec.ofNat 32 size))) := by
  have hback : ∀ a : Addr, a + BitVec.ofNat 32 (size + 1) - 1 = a + BitVec.ofNat 32 size := by
    intro a
    rw [BitVec.ofNat_add]
    bv_omega
  rw [memmoveLoop, hback, hback]

theorem within_last {a : Addr} {n i : ℕ} (hi : i < n) :
    Within a n (a + BitVec.ofNat 32 i) := by
  unfold Within
  rw [show a + BitVec.ofNat 32 i - a = BitVec.ofNat 32 i by bv_omega, BitVec.toNat_ofNat]
  exact Nat.lt_of_le_of_lt (Nat.mod_le _ _) hi

theorem memmoveLoop_frame (size : ℕ) (dst src : Addr) (m : Memory Addr) (hsize : size ≤ 2 ^ 32) :
    m.Frame (memmoveLoop size (dst + BitVec.ofNat 32 size) (src + BitVec.ofNat 32 size) m)
      (Within dst size) := by
  induction size generalizing m with
  | zero => exact Memory.Frame.refl m _
  | succ size ih =>
      rw [memmoveLoop_succ]
      have hlast : Within dst (size + 1) (dst + BitVec.ofNat 32 size) :=
        within_last (Nat.lt_succ_self size)
      have hfirst := m.frame_store _ (m.byte (src + BitVec.ofNat 32 size)) hlast
      have hrest := ih (m.store (dst + BitVec.ofNat 32 size) (m.byte (src + BitVec.ofNat 32 size)))
        (by omega)
      exact hfirst.trans (hrest.mono fun x hx => Nat.lt_succ_of_lt hx)

/-- Copying downwards never reads a byte it has already overwritten when the
destination does not start below the source. -/
theorem memmoveLoop_byte (size : ℕ) (dst src : Addr) (m : Memory Addr)
    (hle : src.toNat ≤ dst.toNat) (hdst : dst.toNat + size ≤ 2 ^ 32) (i : ℕ) (hi : i < size) :
    (memmoveLoop size (dst + BitVec.ofNat 32 size) (src + BitVec.ofNat 32 size) m).byte
      (dst + BitVec.ofNat 32 i) = m.byte (src + BitVec.ofNat 32 i) := by
  induction size generalizing m with
  | zero => omega
  | succ size ih =>
      rw [memmoveLoop_succ]
      by_cases hlast : i = size
      · subst i
        have hframe := memmoveLoop_frame size dst src
          (m.store (dst + BitVec.ofNat 32 size) (m.byte (src + BitVec.ofNat 32 size))) (by omega)
        have hout : ¬ Within dst size (dst + BitVec.ofNat 32 size) := by
          unfold Within
          bv_omega
        rw [hframe.1 _ hout, Memory.store_byte_same]
      · rw [ih _ (by omega) (by omega)]
        exact m.store_byte_of_ne _ (by bv_omega)

/-- Both paths return the destination and leave there what the source held
before, however the two regions overlap, and touch nothing else. -/
theorem memmove_moves (m : Memory Addr) (dst src : Addr) (size : ℕ)
    (hdst : dst.toNat + size ≤ 2 ^ 32) (hsrc : src.toNat + size ≤ 2 ^ 32) :
    (memmove m dst src size).1 = dst ∧
      (∀ i < size, (memmove m dst src size).2.byte (dst + BitVec.ofNat 32 i) =
        m.byte (src + BitVec.ofNat 32 i)) ∧
      m.Frame (memmove m dst src size).2 (Within dst size) := by
  rw [memmove]
  by_cases hlt : dst < src
  · rw [if_pos hlt]
    refine ⟨rfl, ?_, memcpyLoop_frame size dst src m (by omega)⟩
    intro i hi
    exact memcpyLoop_byte size dst src m (Nat.le_of_lt hlt) hsrc i hi
  · rw [if_neg hlt]
    refine ⟨rfl, ?_, memmoveLoop_frame size dst src m (by omega)⟩
    intro i hi
    exact memmoveLoop_byte size dst src m (BitVec.not_lt.mp hlt) hdst i hi

/-- Two bytes moved up by one, over the second of them. -/
theorem memmove_moves_up :
    (memmove ⟨fun x => x.setWidth 8, []⟩ 0x1001 0x1000 2).1 = 0x1001 ∧
      (memmove ⟨fun x => x.setWidth 8, []⟩ 0x1001 0x1000 2).2.byte 0x1002 = 0x01 ∧
      (memmove ⟨fun x => x.setWidth 8, []⟩ 0x1001 0x1000 2).2.byte 0x1000 = 0x00 := by
  obtain ⟨hret, hbyte, hframe⟩ :=
    memmove_moves ⟨fun x => x.setWidth 8, []⟩ 0x1001 0x1000 2 (by decide) (by decide)
  exact ⟨hret, hbyte 1 (by decide), hframe.1 0x1000 (by decide)⟩

end Yack.Memop
