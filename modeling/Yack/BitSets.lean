import Mathlib.Algebra.Group.Nat.Defs
import Mathlib.Data.Finset.Basic
import Mathlib.Data.Finset.Filter
import Mathlib.Data.Finset.Range

/-!
# Words as sets of bit numbers

A word of any width names the set of the bits that are one. Setting a bit,
clearing it and clearing the lowest one that is set, as device registers do, are
operations on that set; a scan of the bits from zero up finds its least element.
-/
namespace Yack.BitSets

variable {w : ℕ} {x : BitVec w} {k n : ℕ}

def members (x : BitVec w) : Finset ℕ := (Finset.range w).filter fun n => x.getLsbD n = true

@[simp] theorem mem_members : k ∈ members x ↔ x.getLsbD k = true := by
  rw [members, Finset.mem_filter, Finset.mem_range]
  exact ⟨fun h => h.2, fun h => ⟨BitVec.lt_of_getLsbD h, h⟩⟩

theorem members_zero : members (0 : BitVec w) = ∅ := by
  ext k
  simp

theorem getLsbD_set (x : BitVec w) (hn : n < w) :
    (x ||| BitVec.twoPow w n).getLsbD k = (x.getLsbD k || decide (k = n)) := by
  rw [BitVec.getLsbD_or, BitVec.getLsbD_twoPow]
  by_cases hk : k = n
  · simp [hk, hn]
  · simp [hk, Ne.symm hk]

theorem getLsbD_clear (x : BitVec w) :
    (x &&& ~~~BitVec.twoPow w n).getLsbD k = (x.getLsbD k && decide (k ≠ n)) := by
  by_cases hkw : k < w
  · rw [BitVec.getLsbD_and, BitVec.getLsbD_not, BitVec.getLsbD_twoPow]
    by_cases hk : k = n
    · simp [hk, hk ▸ hkw]
    · simp [hk, Ne.symm hk, hkw]
  · simp [BitVec.getLsbD_of_ge _ _ (Nat.not_lt.mp hkw)]

theorem members_set (x : BitVec w) (hn : n < w) :
    members (x ||| BitVec.twoPow w n) = {n} ∪ members x := by
  ext k
  simp only [mem_members, getLsbD_set x hn, Finset.mem_union, Finset.mem_singleton,
    Bool.or_eq_true, decide_eq_true_eq]
  exact or_comm

/-- The number before one whose lowest bit is `n` agrees with it above that bit. -/
theorem testBit_pred {x : ℕ} (h : x % 2 ^ (n + 1) = 2 ^ n) (hk : n ≤ k) :
    (x - 1).testBit k = (x.testBit k && decide (k ≠ n)) := by
  have hpos := Nat.two_pow_pos n
  have hpow : 2 ^ n < 2 ^ (n + 1) := Nat.pow_lt_pow_right (by decide) (Nat.lt_succ_self n)
  have hx : x = 2 ^ (n + 1) * (x / 2 ^ (n + 1)) + 2 ^ n := by
    rw [← h, Nat.div_add_mod]
  have hpred : x - 1 = 2 ^ (n + 1) * (x / 2 ^ (n + 1)) + (2 ^ n - 1) := by omega
  rw [hpred, Nat.testBit_two_pow_mul_add _ (by omega), Nat.testBit_two_pow_sub_one]
  conv_rhs => rw [hx, Nat.testBit_two_pow_mul_add _ hpow, Nat.testBit_two_pow]
  by_cases hkn : k = n
  · subst k
    simp
  · have hlt : ¬ k < n + 1 := by omega
    simp [hlt, hkn]

/-- The bits up to the lowest one, as a remainder. -/
theorem mod_of_lowest (hset : x.getLsbD n = true) (hlow : ∀ i < n, x.getLsbD i = false) :
    x.toNat % 2 ^ (n + 1) = 2 ^ n := by
  apply Nat.eq_of_testBit_eq
  intro i
  rw [Nat.testBit_mod_two_pow, Nat.testBit_two_pow]
  rcases Nat.lt_trichotomy i n with hi | rfl | hi
  · have hbit := hlow i hi
    rw [BitVec.getLsbD] at hbit
    simp [hbit, Nat.ne_of_gt hi]
  · rw [BitVec.getLsbD] at hset
    simp [hset]
  · have hout : ¬ i < n + 1 := by omega
    simp [hout, Nat.ne_of_lt hi]

theorem toNat_pred (hx : x ≠ 0) : (x - 1).toNat = x.toNat - 1 := by
  have hpos : 0 < x.toNat := by
    refine Nat.pos_of_ne_zero fun hzero => hx (BitVec.eq_of_toNat_eq ?_)
    simpa using hzero
  have hw : 1 < 2 ^ w := by
    refine Nat.one_lt_two_pow fun hw => ?_
    have := x.isLt
    subst hw
    omega
  have hone : (1 : BitVec w).toNat = 1 := Nat.mod_eq_of_lt hw
  rw [BitVec.toNat_sub_of_le (by rw [BitVec.le_def, hone]; exact hpos), hone]

/-- `x & (x - 1)` is `x` without its lowest bit. -/
theorem getLsbD_clearLowest (x : BitVec w) (k : ℕ) : (x &&& (x - 1)).getLsbD k = true ↔
    x.getLsbD k = true ∧ ∃ m < k, x.getLsbD m = true := by
  by_cases hx : x = 0
  · subst hx
    simp
  · have hlow : ∀ i < x.ctz.toNat, x.getLsbD i = false := fun i hi =>
      BitVec.getLsbD_false_of_lt_ctz hi
    have hset : x.getLsbD x.ctz.toNat = true := BitVec.getLsbD_true_ctz_of_ne_zero hx
    generalize x.ctz.toNat = n at *
    rw [BitVec.getLsbD_and, Bool.and_eq_true]
    refine and_congr_right fun hk => ?_
    have hnk : n ≤ k := Nat.not_lt.mp fun hlt => by simp [hlow k hlt] at hk
    rw [BitVec.getLsbD, toNat_pred hx, testBit_pred (mod_of_lowest hset hlow) hnk,
      ← BitVec.getLsbD, hk, Bool.true_and, decide_eq_true_eq]
    constructor
    · intro hne
      exact ⟨n, by omega, hset⟩
    · rintro ⟨m, hm, hbit⟩ rfl
      simp [hlow m hm] at hbit

/-- Once a scan's extra condition fails it fails for all later candidates, so it
may be tested at the first candidate or at each of them. -/
theorem find?_filter_of_closed {p q : ℕ → Bool} (len : ℕ)
    (hclosed : ∀ m n, m ≤ n → q n = true → q m = true) :
    ((List.range len).find? p).filter q = (List.range len).find? fun n => p n && q n := by
  induction len with
  | zero => rfl
  | succ len ih =>
      rw [List.range_succ, List.find?_append, List.find?_append, ← ih]
      cases hfirst : (List.range len).find? p with
      | some m =>
          rw [Option.some_or]
          by_cases hm : q m = true
          · simp [Option.filter, hm]
          · have hlast : q len = false := by
              refine Bool.eq_false_iff.mpr fun hq => hm (hclosed m len ?_ hq)
              exact Nat.le_of_lt (List.mem_range.mp (List.mem_of_find?_eq_some hfirst))
            simp [Option.filter, hm, hlast]
      | none =>
          cases hp : p len <;> simp [Option.filter, hp]

end Yack.BitSets
