import Yack.TextFormatter
import Mathlib.Data.Nat.Digits.Lemmas
import Mathlib.Tactic.NormNum

/-!
# The numerals of `utoa`

A numeral is read from its first character on. In each base there is one for
every number, which is how `canonical` writes it. The smallest base whose
numerals always fit below the terminator of the static buffer is 5: a 32-bit
number has at most 14 digits in it.
-/
namespace Yack.Numerals
open ByteMemory TextFormatter

def numeralDigit (c : Byte) : Option ℕ :=
  if ascii '0' ≤ c ∧ c ≤ ascii '9' then some (c - ascii '0').toNat
  else if ascii 'A' ≤ c ∧ c ≤ ascii 'Z' then some ((c - ascii 'A').toNat + 10)
  else none

/-- One more digit behind a value. -/
def readDigit (base n : ℕ) (c : Byte) : Option ℕ := do
  let d ← numeralDigit c
  if d < base then some (base * n + d) else none

/-- The value of a text of digits of the base. -/
def evaluate (base : ℕ) (text : List Byte) : Option ℕ := text.foldlM (readDigit base) 0

/-- The positional numeral of a value: digits that evaluate to it, at least one,
and zero in front only as the numeral of zero. -/
structure Numeral (base value : ℕ) (text : List Byte) : Prop where
  evaluates : evaluate base text = some value
  nonempty : text ≠ []
  leading : text.head? = some (ascii '0') → value = 0 ∧ text = [ascii '0']

section Text
variable {base value : ℕ} {text : List Byte}

theorem numeralDigit_digitByte {d : ℕ} (h : d < 36) : numeralDigit (digitByte d) = some d := by
  revert d
  decide

theorem digitByte_numeralDigit {c : Byte} {d : ℕ} (h : numeralDigit c = some d) :
    digitByte d = c := by
  have hall : ∀ c : Byte, ∀ d ∈ numeralDigit c, digitByte d = c := by decide
  exact hall c d h

theorem digitByte_eq_zero {d : ℕ} (hd : d < 36) : digitByte d = ascii '0' ↔ d = 0 := by
  revert d
  decide

theorem evaluate_append (text : List Byte) (c : Byte) :
    evaluate base (text ++ [c]) = (evaluate base text).bind (readDigit base · c) := by
  rw [evaluate, List.foldlM_append]
  congr 1
  funext n
  exact List.foldlM_cons.trans (bind_pure _)

/-- What evaluates is a list of digits, written from the most significant on. -/
theorem digits_of_evaluate (h : evaluate base text = some value) :
    ∃ ds, text = (ds.map digitByte).reverse ∧ (∀ d ∈ ds, d < base) ∧
      Nat.ofDigits base ds = value := by
  induction text using List.reverseRecOn generalizing value with
  | nil =>
      cases h
      exact ⟨[], rfl, by simp, rfl⟩
  | append_singleton text c ih =>
      rw [evaluate_append, Option.bind_eq_some_iff] at h
      obtain ⟨n, hn, hread⟩ := h
      obtain ⟨d, hd, hread⟩ := Option.bind_eq_some_iff.mp hread
      split_ifs at hread with hlt
      cases hread
      obtain ⟨ds, rfl, hds, hvalue⟩ := ih hn
      refine ⟨d :: ds, ?_, ?_, ?_⟩
      · rw [List.map_cons, List.reverse_cons, digitByte_numeralDigit hd]
      · intro e he
        obtain rfl | he := List.mem_cons.mp he
        · exact hlt
        · exact hds e he
      · rw [Nat.ofDigits_cons, hvalue, Nat.add_comm]

theorem evaluate_digits {ds : List ℕ} (hhigh : base ≤ 36) (hds : ∀ d ∈ ds, d < base) :
    evaluate base (ds.map digitByte).reverse = some (Nat.ofDigits base ds) := by
  induction ds with
  | nil => rfl
  | cons d ds ih =>
      have hd : d < base := hds d (by simp)
      rw [List.map_cons, List.reverse_cons, evaluate_append,
        ih fun e he => hds e (List.mem_cons_of_mem _ he), Option.bind_some, readDigit,
        numeralDigit_digitByte (by omega)]
      simp only [bind, Option.bind_some, hd, if_true, Nat.ofDigits_cons, Nat.add_comm]

/-- The first character shows the most significant digit. -/
theorem head_digits (ds : List ℕ) :
    (ds.map digitByte).reverse.head? = ds.getLast?.map digitByte := by
  rw [List.head?_reverse, List.getLast?_map]

theorem canonical_of_ne_zero (hvalue : value ≠ 0) :
    canonical base value = ((Nat.digits base value).map digitByte).reverse := by
  rw [canonical, if_neg hvalue]

theorem numeral_canonical (hlow : 2 ≤ base) (hhigh : base ≤ 36) (value : ℕ) :
    Numeral base value (canonical base value) := by
  by_cases hvalue : value = 0
  · subst value
    refine ⟨?_, List.cons_ne_nil _ _, fun _ => ⟨rfl, rfl⟩⟩
    exact @evaluate_digits base [0] hhigh (by simp only [List.mem_singleton]; omega)
  · have hne : Nat.digits base value ≠ [] := Nat.digits_ne_nil_iff_ne_zero.mpr hvalue
    rw [canonical_of_ne_zero hvalue]
    refine ⟨?_, by simpa using hne, ?_⟩
    · rw [evaluate_digits hhigh fun d hd => Nat.digits_lt_base (by omega) hd, Nat.ofDigits_digits]
    · intro hhead
      rw [head_digits, List.getLast?_eq_some_getLast hne, Option.map_some,
        Option.some.injEq] at hhead
      have hlt : (Nat.digits base value).getLast hne < base :=
        Nat.digits_lt_base (by omega) (List.getLast_mem hne)
      exact absurd ((digitByte_eq_zero (by omega)).mp hhead)
        (Nat.getLast_digit_ne_zero base hvalue)

theorem Numeral.eq_canonical (h : Numeral base value text) (hlow : 2 ≤ base) (hhigh : base ≤ 36) :
    text = canonical base value := by
  obtain ⟨ds, rfl, hds, rfl⟩ := digits_of_evaluate h.evaluates
  have hne : ds ≠ [] := fun e => h.nonempty (by rw [e]; rfl)
  have hhead := head_digits ds
  rw [List.getLast?_eq_some_getLast hne, Option.map_some] at hhead
  by_cases hlast : ds.getLast hne = 0
  · rw [hlast] at hhead
    obtain ⟨hvalue, htext⟩ := h.leading hhead
    rw [hvalue, htext]
    rfl
  · have hdigits : Nat.digits base (Nat.ofDigits base ds) = ds :=
      Nat.digits_ofDigits base (by omega) ds hds fun _ => hlast
    have hvalue : Nat.ofDigits base ds ≠ 0 := by
      intro hzero
      rw [hzero, Nat.digits_zero] at hdigits
      exact hne hdigits.symm
    rw [canonical_of_ne_zero hvalue, hdigits]

/-- The canonical text is the only numeral of its value. -/
theorem numeral_iff (hlow : 2 ≤ base) (hhigh : base ≤ 36) :
    Numeral base value text ↔ text = canonical base value := by
  refine ⟨fun h => h.eq_canonical hlow hhigh, ?_⟩
  rintro rfl
  exact numeral_canonical hlow hhigh value

theorem canonical_length_pos (base value : ℕ) : 0 < (canonical base value).length := by
  rw [canonical, List.length_reverse, List.length_map]
  split_ifs with hvalue
  · decide
  · exact List.length_pos_iff.mpr (Nat.digits_ne_nil_iff_ne_zero.mpr hvalue)

theorem canonical_length_le {k : ℕ} (hlow : 2 ≤ base) (hk : 0 < k) (h : value < base ^ k) :
    (canonical base value).length ≤ k := by
  rw [canonical, List.length_reverse, List.length_map]
  split_ifs with hvalue
  · exact hk
  · exact (Nat.digits_length_le_iff (by omega) value).mpr h

/-- From base 5 on, 14 digits are enough for 32 bits. -/
theorem canonical_length_word (hbase : 5 ≤ base) (value : BitVec 32) :
    (canonical base value.toNat).length ≤ 14 := by
  apply canonical_length_le (by omega) (by decide)
  calc value.toNat < 2 ^ 32 := value.isLt
    _ ≤ 5 ^ 14 := by norm_num
    _ ≤ base ^ 14 := Nat.pow_le_pow_left hbase 14

end Text

/-- Storing downwards changes the bytes stored to. -/
theorem storeDown_frame (m : Memory ℤ) (ptr : ℤ) (cs : List Byte) :
    m.Frame (storeDown m ptr cs) (fun x => ptr - cs.length < x ∧ x ≤ ptr) := by
  induction cs generalizing m ptr with
  | nil => exact Memory.Frame.refl m _
  | cons c cs ih =>
      have hfirst : m.Frame (m.store ptr c)
          (fun x => ptr - ((c :: cs).length : ℤ) < x ∧ x ≤ ptr) :=
        m.frame_store ptr c ⟨by rw [List.length_cons]; omega, Int.le_refl _⟩
      refine hfirst.trans ((ih (m.store ptr c) (ptr - 1)).mono ?_)
      intro x hx
      rw [List.length_cons]
      omega

/-- The call on a buffer with its terminator: the numeral as a C string, and
nothing written but bytes 0 to 14. -/
theorem utoa_returns_canonical {base : BitVec 32} (hlow : 5 ≤ base.toNat)
    (hhigh : base.toNat ≤ 36) (value : BitVec 32) {m : Memory ℤ} (hnul : m.byte 15 = 0) :
    ∃ ptr m', utoa value base m = some (ptr, m') ∧ 0 ≤ ptr ∧ ptr ≤ 14 ∧
      m.Frame m' (fun x => 0 ≤ x ∧ x ≤ 14) ∧
      cText (staticText m' ptr) = some (canonical base.toNat value.toNat) := by
  have hrun := utoa_eq (by omega) hhigh value m
  have hpos := canonical_length_pos base.toNat value.toNat
  have hlength := canonical_length_word hlow value
  refine ⟨_, _, hrun, by omega, by omega, ?_, ?_⟩
  · refine (storeDown_frame m 14 _).mono fun x hx => ?_
    rw [List.length_reverse] at hx
    omega
  · rw [(utoa_text (by omega) hhigh value m hrun).1, hnul]
    exact cText_terminated (canonical_ne_zero (by omega) hhigh)

/-- For every value and every base from 5 to 36, `utoa` ends, stays inside
bytes 0 to 14 and returns the numeral, which no other value has. -/
theorem utoa_returns_numeral (value base : BitVec 32) (hlow : 5 ≤ base.toNat)
    (hhigh : base.toNat ≤ 36) (m : Memory ℤ) (hnul : m.byte 15 = 0) :
    ∃ ptr m' text, utoa value base m = some (ptr, m') ∧ 0 ≤ ptr ∧ ptr ≤ 14 ∧
      m.Frame m' (fun x => 0 ≤ x ∧ x ≤ 14) ∧ cText (staticText m' ptr) = some text ∧
      Numeral base.toNat value.toNat text ∧
      ∀ other k ptr' k', k.byte 15 = 0 → utoa other base k = some (ptr', k') →
        cText (staticText k' ptr') = some text → other = value := by
  obtain ⟨ptr, m', hrun, hfirst, hlast, hframe, htext⟩ :=
    utoa_returns_canonical hlow hhigh value hnul
  have hnumeral := numeral_canonical (by omega) hhigh value.toNat
  refine ⟨ptr, m', _, hrun, hfirst, hlast, hframe, htext, hnumeral, ?_⟩
  intro other k ptr' k' hk hother hsame
  obtain ⟨p, k'', hrun', -, -, -, htext'⟩ := utoa_returns_canonical hlow hhigh other hk
  rw [hother] at hrun'
  cases hrun'
  rw [hsame, Option.some.injEq] at htext'
  have hvalue := hnumeral.evaluates
  rw [htext', (numeral_canonical (by omega) hhigh other.toNat).evaluates,
    Option.some.injEq] at hvalue
  exact BitVec.eq_of_toNat_eq hvalue

/-- `utoa(0xBEEF, 16)` on a buffer of sevens. -/
theorem utoa_returns_numeral_hex : ∃ ptr m',
    utoa 0xBEEF 16 ⟨fun k => if k = 15 then 0 else 7, []⟩ = some (ptr, m') ∧
      cText (staticText m' ptr) = some [ascii 'B', ascii 'E', ascii 'E', ascii 'F'] := by
  obtain ⟨ptr, m', text, hrun, -, -, -, htext, hnumeral, -⟩ := utoa_returns_numeral 0xBEEF 16
    (by decide) (by decide) ⟨fun k => if k = 15 then 0 else 7, []⟩ rfl
  have hcanonical := hnumeral.eq_canonical (by decide) (by decide)
  exact ⟨ptr, m', hrun, htext.trans (congrArg some (hcanonical.trans (by decide)))⟩

end Yack.Numerals
