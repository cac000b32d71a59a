import Yack.FormatText
import Yack.Numerals

/-!
# Signed numbers: `itoa` and `%d`

`utoa` returns a pointer to its first digit. `itoa` stores the minus sign at
that pointer and moves it down after the store, so the first digit is lost and
the text starts at the byte below, which is whatever an earlier conversion left
there. The static buffer is zero at the start and is never cleared again.
-/
namespace Yack.DecimalText
open ByteMemory TextFormatter FormatText Numerals

/-- A minus sign if there is one to write, and the digits. -/
def decimalText (v : ℤ) : List Byte :=
  if v < 0 then ascii '-' :: canonical 10 v.natAbs else canonical 10 v.natAbs

def digitValue (c : Byte) : Option ℕ :=
  if ascii '0' ≤ c ∧ c ≤ ascii '9' then some (c - ascii '0').toNat else none

/-- Digits read from the most significant one on. -/
def parseDigits (text : List Byte) : Option ℕ :=
  text.foldlM (fun n c => (digitValue c).map (10 * n + ·)) 0

def parseDecimal : List Byte → Option ℤ
  | [] => none
  | c :: text =>
      if c = ascii '-' then (parseDigits text).map fun n : ℕ => -(n : ℤ)
      else (parseDigits (c :: text)).map fun n : ℕ => (n : ℤ)

theorem digitValue_digitByte {d : ℕ} (h : d < 10) : digitValue (digitByte d) = some d := by
  revert d
  decide

theorem digitByte_ne_minus {d : ℕ} (h : d < 10) : digitByte d ≠ ascii '-' := by
  revert d
  decide

theorem parseDigits_reverse {ds : List ℕ} (h : ∀ d ∈ ds, d < 10) :
    parseDigits (ds.map digitByte).reverse = some (Nat.ofDigits 10 ds) := by
  induction ds with
  | nil => rfl
  | cons d ds ih =>
      have hrest := ih fun d hd => h d (List.mem_cons_of_mem _ hd)
      rw [parseDigits] at hrest ⊢
      rw [List.map_cons, List.reverse_cons, List.foldlM_append, hrest, Nat.ofDigits_cons]
      simp [digitValue_digitByte (h d (by simp)), Nat.add_comm]

theorem canonical_digits (value : ℕ) : ∃ ds, canonical 10 value = (ds.map digitByte).reverse ∧
    (∀ d ∈ ds, d < 10) ∧ Nat.ofDigits 10 ds = value :=
  digits_of_evaluate (numeral_canonical (by decide) (by decide) value).evaluates

/-- The first byte of a number is a digit. -/
theorem canonical_cons (value : ℕ) :
    ∃ c text, canonical 10 value = c :: text ∧ c ≠ ascii '-' := by
  obtain ⟨ds, htext, hlt, -⟩ := canonical_digits value
  obtain ⟨c, text, hcons⟩ := List.exists_cons_of_ne_nil
    (@numeral_canonical 10 (by decide) (by decide) value).nonempty
  have hmem : c ∈ (ds.map digitByte).reverse := by
    rw [← htext, hcons]
    exact List.mem_cons_self
  obtain ⟨d, hd, rfl⟩ := List.mem_map.mp (List.mem_reverse.mp hmem)
  exact ⟨_, text, hcons, digitByte_ne_minus (hlt d hd)⟩

theorem parseDecimal_decimalText (v : ℤ) : parseDecimal (decimalText v) = some v := by
  obtain ⟨ds, htext, hlt, hvalue⟩ := canonical_digits v.natAbs
  have hparse : parseDigits (canonical 10 v.natAbs) = some v.natAbs := by
    rw [htext, parseDigits_reverse hlt, hvalue]
  rw [decimalText]
  split_ifs with hneg
  · rw [parseDecimal, if_pos rfl, hparse, Option.map_some]
    exact congrArg some (by omega)
  · obtain ⟨c, text, hcons, hne⟩ := canonical_cons v.natAbs
    rw [hcons] at hparse ⊢
    rw [parseDecimal, if_neg hne, hparse, Option.map_some]
    exact congrArg some (by omega)

/-- A call of `utoa` or `itoa`. -/
inductive Conversion where
  | utoa (value base : BitVec 32)
  | itoa (value base : BitVec 32)
  deriving DecidableEq, Repr

def Conversion.base : Conversion → BitVec 32
  | .utoa _ base | .itoa _ base => base

/-- The buffer a call leaves; a division by zero, like the endless loop of base
1, leaves none. -/
def Conversion.run (m : Memory ℤ) : Conversion → Option (Memory ℤ)
  | .utoa value base => if base = 0 ∧ value ≠ 0 then none else (TextFormatter.utoa value base m).map Prod.snd
  | .itoa value base => if base = 0 ∧ value ≠ 0 then none else (TextFormatter.itoa value base m).map Prod.snd

def runConversions (history : List Conversion) (m : Memory ℤ) : Option (Memory ℤ) :=
  history.foldlM Conversion.run m

/-- `static char buffer[16] = {0}`. -/
def ZeroBuffer (m : Memory ℤ) : Prop := ∀ i, 0 ≤ i → i < 16 → m.byte i = 0

section History
variable {base value : BitVec 32} {m m' : Memory ℤ} {ptr ptr' : ℤ}

/-- Whatever the base, digits are stored downwards. -/
theorem utoaLoop_frame {fuel : ℕ} (h : utoaLoop base fuel value ptr m = some (ptr', m')) :
    ptr' ≤ ptr ∧ ∀ x, ptr < x → m'.byte x = m.byte x := by
  induction fuel generalizing value ptr m with
  | zero => cases h
  | succ fuel ih =>
      rw [utoaLoop] at h
      simp only [] at h
      have hstored : ∀ c, utoaLoop base fuel (value / base) (ptr - 1) (m.store ptr c) =
          some (ptr', m') → ptr' ≤ ptr ∧ ∀ x, ptr < x → m'.byte x = m.byte x := by
        intro c h
        obtain ⟨hle, hframe⟩ := ih h
        refine ⟨by omega, fun x hx => ?_⟩
        rw [hframe x (by omega), m.store_byte_of_ne _ (by omega)]
      split_ifs at h
      · exact hstored _ h
      · exact hstored _ h
      · exact ih h
      · cases h
        exact ⟨by omega, fun _ _ => rfl⟩

theorem utoa_frame (h : utoa value base m = some (ptr, m')) : m'.byte 15 = m.byte 15 := by
  rw [utoa] at h
  split_ifs at h
  · cases h
    exact m.store_byte_of_ne _ (by decide)
  · obtain ⟨⟨p, k⟩, hloop, hret⟩ := Option.bind_eq_some_iff.mp h
    cases hret
    exact (utoaLoop_frame hloop).2 15 (by decide)

theorem itoa_frame (hlow : 2 ≤ base.toNat) (hhigh : base.toNat ≤ 36)
    (h : itoa value base m = some (ptr, m')) : m'.byte 15 = m.byte 15 := by
  rw [itoa] at h
  split_ifs at h
  · obtain ⟨⟨p, k⟩, hutoa, hret⟩ := Option.bind_eq_some_iff.mp h
    cases hret
    have hkept := utoa_frame hutoa
    rw [utoa_eq hlow hhigh] at hutoa
    cases hutoa
    have hpos := canonical_length_pos base.toNat (value * -1).toNat
    rw [Memory.store_byte_of_ne _ _ (by omega), hkept]
  · exact utoa_frame h

/-- In the bases there are digits for, the terminator at byte 15 survives. -/
theorem Conversion.run_frame {c : Conversion} (hbase : 2 ≤ c.base.toNat ∧ c.base.toNat ≤ 36)
    (h : c.run m = some m') : m'.byte 15 = m.byte 15 := by
  cases c with
  | utoa value base =>
      rw [Conversion.run] at h
      split_ifs at h
      obtain ⟨r, hr, rfl⟩ := Option.map_eq_some_iff.mp h
      exact utoa_frame hr
  | itoa value base =>
      rw [Conversion.run] at h
      split_ifs at h
      obtain ⟨r, hr, rfl⟩ := Option.map_eq_some_iff.mp h
      exact itoa_frame hbase.1 hbase.2 hr

theorem runConversions_frame {history : List Conversion}
    (hbase : ∀ c ∈ history, 2 ≤ c.base.toNat ∧ c.base.toNat ≤ 36)
    (h : runConversions history m = some m') : m'.byte 15 = m.byte 15 := by
  induction history generalizing m with
  | nil =>
      cases h
      rfl
  | cons c history ih =>
      rw [runConversions, List.foldlM_cons] at h
      obtain ⟨k, hk, h⟩ := Option.bind_eq_some_iff.mp h
      rw [ih (fun c hc => hbase c (List.mem_cons_of_mem _ hc)) h]
      exact Conversion.run_frame (hbase c (by simp)) hk

end History

/-- From this buffer, `itoa` spells the number, and `%d` met anywhere in a
format appends that text, whatever was converted before. -/
structure SpellsDecimal (digits : Memory ℤ) (v : BitVec 32) : Prop where
  text : ∃ ptr digits', itoa v 10 digits = some (ptr, digits') ∧
    cText (staticText digits' ptr) = some (decimalText v.toInt)
  printed : ∃ digits', ∀ bufsz fmt buf ptr ap,
    kvsnprintfLoop bufsz (ascii 'd' :: fmt) (.again false) ⟨buf, ptr, digits, .int v :: ap⟩ =
      kvsnprintfLoop bufsz fmt .top ⟨storeUp buf ptr (decimalText v.toInt ++ [0]),
        ptr + (decimalText v.toInt).length, digits', ap⟩
  parsed : parseDecimal (decimalText v.toInt) = some v.toInt

theorem cText_eq_some {bytes text : List Byte} (h : cText bytes = some text) :
    ∃ rest, bytes = text ++ 0 :: rest := by
  induction bytes generalizing text with
  | nil => cases h
  | cons c bytes ih =>
      rw [cText] at h
      split_ifs at h with hc
      · cases h
        exact ⟨bytes, by rw [hc, List.nil_append]⟩
      · obtain ⟨tail, htail, rfl⟩ := Option.map_eq_some_iff.mp h
        obtain ⟨rest, rfl⟩ := ih htail
        exact ⟨rest, rfl⟩

section Spelling
variable {digits : Memory ℤ} {v : BitVec 32}

theorem staticText_getElem {m : Memory ℤ} {ptr : ℤ} {k : ℕ} (h : ptr + k < 16) :
    (staticText m ptr)[k]? = some (m.byte (ptr + k)) := by
  rw [staticText, List.getElem?_map, List.getElem?_range (by omega), Option.map_some]

/-- `%d` appends what `itoa` spells. -/
theorem printed_of_text {text : List Byte} {ptr : ℤ} {digits' : Memory ℤ}
    (h : itoa v 10 digits = some (ptr, digits')) (htext : cText (staticText digits' ptr) = some text)
    (bufsz : ℕ) (fmt : List Byte) (buf : Memory ℕ) (p : ℕ) (ap : List Arg) :
    kvsnprintfLoop bufsz (ascii 'd' :: fmt) (.again false) ⟨buf, p, digits, .int v :: ap⟩ =
      kvsnprintfLoop bufsz fmt .top
        ⟨storeUp buf p (text ++ [0]), p + text.length, digits', ap⟩ := by
  have hexpand : expandConversion (ascii 'd') false (.int v :: ap) digits =
      some (text, ap, digits') := by
    rw [expandConversion, if_neg (by decide), if_pos rfl, expandNumber]
    simp only [h, htext, bind, Option.bind_some, padded]
    rfl
  rw [loop_conversion (by decide)]
  change (expandConversion (ascii 'd') false (.int v :: ap) digits).bind _ = _
  rw [hexpand, Option.bind_some]
  rfl

theorem spellsDecimal_nonneg (hv : 0 ≤ v.toInt) (hnul : digits.byte 15 = 0) :
    SpellsDecimal digits v := by
  have hten : (10 : BitVec 32).toNat = 10 := rfl
  have hlt : 2 * v.toNat < 2 ^ 32 := by
    rw [BitVec.toInt_eq_toNat_cond] at hv
    split_ifs at hv
    · assumption
    · omega
  have habs : v.toInt.natAbs = v.toNat := by
    rw [BitVec.toInt_eq_toNat_of_lt hlt, Int.natAbs_natCast]
  have htext : decimalText v.toInt = canonical 10 v.toNat := by
    rw [decimalText, if_neg (by omega), habs]
  obtain ⟨ptr, digits', hutoa⟩ : ∃ ptr digits', utoa v 10 digits = some (ptr, digits') :=
    ⟨_, _, utoa_eq (by decide) (by decide) v digits⟩
  have hitoa : itoa v 10 digits = some (ptr, digits') := by rw [itoa_nonneg hv, hutoa]
  have hspelt : cText (staticText digits' ptr) = some (decimalText v.toInt) := by
    rw [(utoa_text (by decide) (by decide) v digits hutoa).1, hnul, hten, htext]
    exact cText_terminated (canonical_ne_zero (by decide) (by decide))
  exact ⟨⟨ptr, digits', hitoa, hspelt⟩, ⟨digits', printed_of_text hitoa hspelt⟩,
    parseDecimal_decimalText v.toInt⟩

/-- A negative number has its minus sign where its first digit belongs. -/
theorem not_spellsDecimal_neg (hv : v.toInt < 0) : ¬ SpellsDecimal digits v := by
  intro h
  obtain ⟨ptr, digits', hitoa, hspelt⟩ := h.text
  obtain ⟨rest, hbytes⟩ := cText_eq_some hspelt
  rw [itoa, if_pos hv] at hitoa
  obtain ⟨⟨p, k⟩, hutoa, hret⟩ := Option.bind_eq_some_iff.mp hitoa
  cases hret
  have hp : p ≤ 14 := by
    rw [utoa_eq (by decide) (by decide)] at hutoa
    cases hutoa
    have := canonical_length_pos (10 : BitVec 32).toNat (v * -1).toNat
    omega
  obtain ⟨c, text, hcons, hne⟩ := canonical_cons v.toInt.natAbs
  have hsecond : (staticText (k.store p (ascii '-')) (p - 1))[1]? = some (ascii '-') := by
    rw [staticText_getElem (by omega)]
    have hindex : p - 1 + (1 : ℕ) = p := by omega
    rw [hindex, Memory.store_byte_same]
  rw [hbytes, decimalText, if_pos hv, hcons] at hsecond
  exact hne (Option.some.inj hsecond)

/-- Without the terminator at byte 15, digits are not followed by a NUL. -/
theorem nul_of_spellsDecimal (hv : 0 ≤ v.toInt) (h : SpellsDecimal digits v) :
    digits.byte 15 = 0 := by
  obtain ⟨ptr, digits', hitoa, hspelt⟩ := h.text
  obtain ⟨rest, hbytes⟩ := cText_eq_some hspelt
  rw [itoa_nonneg hv] at hitoa
  rw [(utoa_text (by decide) (by decide) v digits hitoa).1] at hbytes
  have hzero : 0 ∈ canonical (10 : BitVec 32).toNat v.toNat ++ [digits.byte 15] := by
    rw [hbytes]
    simp
  obtain hdigit | hlast := List.mem_append.mp hzero
  · exact absurd rfl (canonical_ne_zero (by decide) (by decide) 0 hdigit)
  · exact (List.mem_singleton.mp hlast).symm

end Spelling

/-- After every history of conversions, a number is spelled exactly if it is not
negative and byte 15 is still the terminator, and byte 15 is after every
history in bases 2 to 36. -/
theorem itoa_spells_decimal_iff (m digits : Memory ℤ) (hzero : ZeroBuffer m)
    (history : List Conversion) (hrun : runConversions history m = some digits) (v : BitVec 32) :
    (SpellsDecimal digits v ↔ 0 ≤ v.toInt ∧ digits.byte 15 = 0) ∧
      ((∀ c ∈ history, 2 ≤ c.base.toNat ∧ c.base.toNat ≤ 36) → digits.byte 15 = 0) := by
  refine ⟨⟨fun h => ?_, fun h => spellsDecimal_nonneg h.1 h.2⟩, fun hbase => ?_⟩
  · have hv : 0 ≤ v.toInt := by
      by_contra hneg
      exact not_spellsDecimal_neg (by omega) h
    exact ⟨hv, nul_of_spellsDecimal hv h⟩
  · rw [runConversions_frame hbase hrun]
    exact hzero 15 (by decide) (by decide)

/-- `itoa(42, 10)` after `utoa(0xBEEF, 16)` and `itoa(-7, 10)`. -/
theorem itoa_spells_decimal_after : ∃ digits,
    runConversions [.utoa 0xBEEF 16, .itoa (-7) 10] ⟨fun _ => 0, []⟩ = some digits ∧
      SpellsDecimal digits 42 := by
  have hzero : ZeroBuffer ⟨fun _ => 0, []⟩ := fun _ _ _ => rfl
  refine ⟨_, rfl, ?_⟩
  exact ((itoa_spells_decimal_iff _ _ hzero [.utoa 0xBEEF 16, .itoa (-7) 10] rfl 42).1).mpr
    ⟨by decide, by decide⟩

/-- `itoa(-5, 10)` is empty on the buffer as it starts, and `"2-"` after
`utoa(123, 10)`. -/
theorem itoa_reads_stale_byte :
    (∃ ptr m, itoa (-5) 10 ⟨fun _ => 0, []⟩ = some (ptr, m) ∧
      cText (staticText m ptr) = some []) ∧
    (∃ digits ptr m, runConversions [.utoa 123 10] ⟨fun _ => 0, []⟩ = some digits ∧
      itoa (-5) 10 digits = some (ptr, m) ∧
      cText (staticText m ptr) = some [ascii '2', ascii '-']) ∧
    ¬ SpellsDecimal ⟨fun _ => 0, []⟩ (-5) :=
  ⟨⟨_, _, rfl, by decide⟩, ⟨_, _, _, rfl, rfl, by decide⟩, not_spellsDecimal_neg (by decide)⟩

end Yack.DecimalText
