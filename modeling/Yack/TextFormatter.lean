import Yack.ByteMemory
import Mathlib.Data.Nat.Digits.Defs
import Mathlib.Data.Int.Notation

/-!
# The formatter of `kernel/io/kvsnprintf.c`

Three objects are involved: the output buffer, indexed by its offset from `buf`
with writes past the end recorded like any other, which ends below 2^32, as every
object does, so that `buf + bufsz` does not wrap; the static `buffer[16]` of
`utoa`, indexed by integers since digits are produced downwards from offset 14;
and what is only read. A pointer to a string that is only read is the list of
bytes from it to the end of its object, so a read past the object is a failed
match, and the whole run is `none`.

Arguments are typed: taking an integer where a string was passed has no defined
meaning and is `none` as well.
-/
namespace Yack.TextFormatter
open ByteMemory

def ascii (c : Char) : Byte := BitVec.ofNat 8 c.toNat

/-- An argument of the call: an `int` or `void *`, or a string in memory. -/
inductive Arg where
  | int (value : BitVec 32)
  | str (bytes : List Byte)
  deriving DecidableEq, Repr

def strlen : List Byte → Option ℕ
  | [] => none
  | c :: src => if c = 0 then some 0 else (strlen src).map (· + 1)

/-- The loop of `strcpy`; the source object is not the destination. -/
def strcpy (m : Memory ℕ) (ptr : ℕ) : List Byte → Option (Memory ℕ)
  | [] => none
  | c :: src => if c = 0 then some (m.store ptr 0) else strcpy (m.store ptr c) (ptr + 1) src

/-- `while (value > 0)`, with fuel for one digit more than base 2 needs. -/
def utoaLoop (base : BitVec 32) : ℕ → BitVec 32 → ℤ → Memory ℤ → Option (ℤ × Memory ℤ)
  | 0, _, _, _ => none
  | fuel + 1, value, ptr, m =>
      if 0 < value then
        let rem := (value % base).toInt
        if 0 ≤ rem ∧ rem < 10 then
          utoaLoop base fuel (value / base) (ptr - 1)
            (m.store ptr (ascii '0' + BitVec.ofInt 8 rem))
        else if 10 ≤ rem ∧ rem < base.toInt then
          utoaLoop base fuel (value / base) (ptr - 1)
            (m.store ptr (ascii 'A' + BitVec.ofInt 8 rem - 10))
        else utoaLoop base fuel (value / base) ptr m
      else some (ptr, m)

/-- The returned pointer is an offset into the static buffer. -/
def utoa (value base : BitVec 32) (m : Memory ℤ) : Option (ℤ × Memory ℤ) := do
  let (ptr, m) ← if value = 0 then some (14 - 1, m.store 14 (ascii '0'))
    else utoaLoop base 33 value 14 m
  return (ptr + 1, m)

/-- The minus sign is stored at the pointer and the pointer moved after that,
so it replaces the first digit. -/
def itoa (value base : BitVec 32) (m : Memory ℤ) : Option (ℤ × Memory ℤ) :=
  if value.toInt < 0 then do
    let (ptr, m) ← utoa (value * -1) base m
    return (ptr - 1, m.store ptr (ascii '-'))
  else utoa value base m

/-- The bytes of the static buffer from an offset to its end. -/
def staticText (m : Memory ℤ) (ptr : ℤ) : List Byte :=
  (List.range (16 - ptr).toNat).map fun k : ℕ => m.byte (ptr + k)

structure Formatter where
  buf : Memory ℕ
  ptr : ℕ
  digits : Memory ℤ
  ap : List Arg

/-- `*ptr++ = c`. -/
def Formatter.put (st : Formatter) (c : Byte) : Formatter :=
  { st with buf := st.buf.store st.ptr c, ptr := st.ptr + 1 }

def Formatter.vaInt (st : Formatter) : Option (BitVec 32 × Formatter) :=
  match st.ap with
  | .int value :: ap => some (value, { st with ap })
  | _ => none

def Formatter.vaString (st : Formatter) : Option (List Byte × Formatter) :=
  match st.ap with
  | .str bytes :: ap => some (bytes, { st with ap })
  | _ => none

/-- What the `switch` leaves for the code behind it. -/
structure Selected where
  text : List Byte
  fillLength : ℕ
  fillZeroes : Bool
  st : Formatter

/-- `case 'x'`, which `case 'p'` falls through to. -/
def hexCase (fillZeroes : Bool) (st : Formatter) : Option Selected := do
  let (value, st) ← st.vaInt
  let (ptr, digits) ← utoa value 16 st.digits
  return ⟨staticText digits ptr, 8, fillZeroes, { st with digits }⟩

/-- `switch (*++fmt)` past the `'0'` case. -/
def select (c : Byte) (fillZeroes : Bool) (st : Formatter) : Option Selected :=
  if c = ascii '%' then some ⟨[ascii '%', 0], 0, fillZeroes, st⟩
  else if c = ascii 'd' then do
    let (value, st) ← st.vaInt
    let (ptr, digits) ← itoa value 10 st.digits
    return ⟨staticText digits ptr, 10, fillZeroes, { st with digits }⟩
  else if c = ascii 'p' then hexCase true ((st.put (ascii '0')).put (ascii 'x'))
  else if c = ascii 'x' then hexCase fillZeroes st
  else if c = ascii 's' then do
    let (text, st) ← st.vaString
    return ⟨text, 0, fillZeroes, st⟩
  else if c = ascii 'c' then do
    let (value, st) ← st.vaInt
    return ⟨[0], 0, fillZeroes, st.put (value.setWidth 8)⟩
  else if c = ascii 'u' then do
    let (value, st) ← st.vaInt
    let (ptr, digits) ← utoa value 10 st.digits
    return ⟨staticText digits ptr, 0, fillZeroes, { st with digits }⟩
  else some ⟨[0], 0, fillZeroes, st⟩

/-- `while (len < fill_length--) *ptr++ = '0'`. -/
def fillLoop (len : ℕ) : ℕ → Formatter → Formatter
  | 0, st => st
  | fillLength + 1, st =>
      if len < fillLength + 1 then fillLoop len fillLength (st.put (ascii '0')) else st

/-- From `len = strlen(text)` to the end of the iteration. -/
def Selected.emit (sel : Selected) : Option Formatter := do
  let len ← strlen sel.text
  let st := if sel.fillZeroes then fillLoop len sel.fillLength sel.st else sel.st
  let buf ← strcpy st.buf st.ptr sel.text
  let len ← strlen sel.text
  return { st with buf, ptr := st.ptr + len }

/-- Where the scan of the format stands: at the loop test, or behind a `'%'`
with the value of `fill_zeroes`. -/
inductive Position where
  | top
  | again (fillZeroes : Bool)
  deriving DecidableEq, Repr

def kvsnprintfLoop (bufsz : ℕ) : List Byte → Position → Formatter → Option Formatter
  | [], _, _ => none
  | c :: fmt, .top, st =>
      if c ≠ 0 ∧ st.ptr < bufsz then
        if c ≠ ascii '%' then kvsnprintfLoop bufsz fmt .top (st.put c)
        else kvsnprintfLoop bufsz fmt (.again false) st
      else some st
  | c :: fmt, .again fillZeroes, st =>
      if c = ascii '0' then kvsnprintfLoop bufsz fmt (.again true) st
      else do
        let sel ← select c fillZeroes st
        let st ← sel.emit
        kvsnprintfLoop bufsz fmt .top st

/-- The returned length, and the state the call leaves. -/
def kvsnprintf (buf : Memory ℕ) (bufsz : ℕ) (fmt : List Byte) (ap : List Arg)
    (digits : Memory ℤ) : Option (ℕ × Formatter) := do
  let st ← kvsnprintfLoop bufsz fmt .top ⟨buf, 0, digits, ap⟩
  return (st.ptr, { st with buf := st.buf.store st.ptr 0 })

/-- The bytes of a string before its terminator. -/
def cText : List Byte → Option (List Byte)
  | [] => none
  | c :: src => if c = 0 then some [] else (cText src).map (c :: ·)

def storeUp (m : Memory ℕ) (ptr : ℕ) : List Byte → Memory ℕ
  | [] => m
  | c :: cs => storeUp (m.store ptr c) (ptr + 1) cs

theorem strlen_eq (src : List Byte) : strlen src = (cText src).map List.length := by
  induction src with
  | nil => rfl
  | cons c src ih =>
      rw [strlen, cText]
      split_ifs
      · rfl
      · rw [ih, Option.map_map, Option.map_map]
        rfl

theorem strcpy_eq (m : Memory ℕ) (ptr : ℕ) (src : List Byte) :
    strcpy m ptr src = (cText src).map fun text => storeUp m ptr (text ++ [0]) := by
  induction src generalizing m ptr with
  | nil => rfl
  | cons c src ih =>
      rw [strcpy, cText]
      split_ifs with hc
      · rfl
      · rw [ih, Option.map_map]
        rfl

theorem cText_terminated {text rest : List Byte} (h : ∀ c ∈ text, c ≠ 0) :
    cText (text ++ 0 :: rest) = some text := by
  induction text with
  | nil => simp [cText]
  | cons c text ih =>
      rw [List.cons_append, cText, if_neg (h c (by simp)),
        ih fun c hc => h c (List.mem_cons_of_mem _ hc), Option.map_some]

theorem storeUp_append (m : Memory ℕ) (ptr : ℕ) (cs cs' : List Byte) :
    storeUp m ptr (cs ++ cs') = storeUp (storeUp m ptr cs) (ptr + cs.length) cs' := by
  induction cs generalizing m ptr with
  | nil => rfl
  | cons c cs ih =>
      rw [List.cons_append, storeUp, storeUp, ih, List.length_cons, Nat.add_right_comm,
        Nat.add_assoc]

theorem storeUp_byte (m : Memory ℕ) (ptr : ℕ) (cs : List Byte) (x : ℕ) :
    (storeUp m ptr cs).byte x =
      if ptr ≤ x then (cs[x - ptr]?).getD (m.byte x) else m.byte x := by
  induction cs generalizing m ptr with
  | nil => simp [storeUp]
  | cons c cs ih =>
      rw [storeUp, ih, Memory.store_byte]
      by_cases heq : x = ptr
      · simp [heq]
      · by_cases hle : ptr ≤ x
        · have hstep : x - ptr = (x - (ptr + 1)) + 1 := by omega
          rw [if_pos (show ptr + 1 ≤ x by omega), if_neg heq, if_pos hle, hstep,
            List.getElem?_cons_succ]
        · rw [if_neg (show ¬ ptr + 1 ≤ x by omega), if_neg heq, if_neg hle]

theorem storeUp_frame (m : Memory ℕ) (ptr : ℕ) (cs : List Byte) :
    m.Frame (storeUp m ptr cs) (fun x => ptr ≤ x ∧ x < ptr + cs.length) := by
  induction cs generalizing m ptr with
  | nil => exact Memory.Frame.refl m _
  | cons c cs ih =>
      have hfirst : m.Frame (m.store ptr c) (fun x => ptr ≤ x ∧ x < ptr + (c :: cs).length) :=
        m.frame_store ptr c ⟨Nat.le_refl _, by simp⟩
      refine hfirst.trans ((ih (m.store ptr c) (ptr + 1)).mono ?_)
      intro x hx
      rw [List.length_cons]
      omega

/-- `'0' + d` or `'A' + d - 10`. -/
def digitByte (d : ℕ) : Byte :=
  if d < 10 then ascii '0' + BitVec.ofNat 8 d else ascii 'A' + BitVec.ofNat 8 d - 10

/-- The text of a number, most significant digit first; zero has one digit. -/
def canonical (base value : ℕ) : List Byte :=
  ((if value = 0 then [0] else Nat.digits base value).map digitByte).reverse

def storeDown (m : Memory ℤ) (ptr : ℤ) : List Byte → Memory ℤ
  | [] => m
  | c :: cs => storeDown (m.store ptr c) (ptr - 1) cs

theorem storeDown_byte (m : Memory ℤ) (ptr : ℤ) (cs : List Byte) (x : ℤ) :
    (storeDown m ptr cs).byte x =
      if x ≤ ptr then (cs[(ptr - x).toNat]?).getD (m.byte x) else m.byte x := by
  induction cs generalizing m ptr with
  | nil => simp [storeDown]
  | cons c cs ih =>
      rw [storeDown, ih, Memory.store_byte]
      by_cases heq : x = ptr
      · simp [heq]
      · by_cases hle : x ≤ ptr
        · have hstep : (ptr - x).toNat = (ptr - 1 - x).toNat + 1 := by omega
          rw [if_pos (show x ≤ ptr - 1 by omega), if_neg heq, if_pos hle, hstep,
            List.getElem?_cons_succ]
        · rw [if_neg (show ¬ x ≤ ptr - 1 by omega), if_neg heq, if_neg hle]

/-- Digits stored down from offset 14 read upwards in reverse, to byte 15. -/
theorem staticText_storeDown (m : Memory ℤ) (cs : List Byte) :
    staticText (storeDown m 14 cs) (15 - cs.length) = cs.reverse ++ [m.byte 15] := by
  apply List.ext_getElem
  · simp only [staticText, List.length_map, List.length_range, List.length_append,
      List.length_reverse, List.length_singleton]
    omega
  · intro k hk hk'
    simp only [staticText, List.length_map, List.length_range] at hk
    simp only [staticText, List.getElem_map, List.getElem_range, storeDown_byte]
    by_cases hlast : k < cs.length
    · have hindex : (14 - (15 - (cs.length : ℤ) + k)).toNat = cs.length - 1 - k := by omega
      rw [if_pos (by omega), hindex, List.getElem?_eq_getElem (by omega), Option.getD_some,
        List.getElem_append_left (by simpa using hlast), List.getElem_reverse]
    · have hk15 : 15 - (cs.length : ℤ) + k = 15 := by omega
      rw [if_neg (by omega), hk15, List.getElem_append_right (by simpa using hlast)]
      simp

section Conversion
variable {base : BitVec 32} (hlow : 2 ≤ base.toNat) (hhigh : base.toNat ≤ 36)
include hlow hhigh

/-- One iteration stores one digit: both branches agree with `digitByte`. -/
theorem utoaLoop_step (fuel : ℕ) {value : BitVec 32} (hv : value ≠ 0) (ptr : ℤ) (m : Memory ℤ) :
    utoaLoop base (fuel + 1) value ptr m = utoaLoop base fuel (value / base) (ptr - 1)
      (m.store ptr (digitByte (value.toNat % base.toNat))) := by
  have hpos : 0 < value := (BitVec.pos_iff_ne_zero value).mpr hv
  have hlt : value.toNat % base.toNat < base.toNat := Nat.mod_lt _ (by omega)
  have hrem : (value % base).toInt = ((value.toNat % base.toNat : ℕ) : ℤ) := by
    rw [BitVec.toInt_eq_toNat_of_lt, BitVec.toNat_umod]
    rw [BitVec.toNat_umod]
    omega
  have hbase : base.toInt = (base.toNat : ℤ) := BitVec.toInt_eq_toNat_of_lt (by omega)
  rw [utoaLoop, if_pos hpos, hrem, hbase]
  generalize value.toNat % base.toNat = d at *
  have hbyte : BitVec.ofInt 8 (d : ℤ) = BitVec.ofNat 8 d := BitVec.ofInt_natCast 8 d
  by_cases hten : d < 10
  · simp only [digitByte, hten, hbyte, if_true]
    rw [if_pos (by omega)]
  · simp only [digitByte, hten, hbyte, if_false]
    rw [if_neg (by omega), if_pos (by omega)]

theorem utoaLoop_eq (fuel : ℕ) (value : BitVec 32) (ptr : ℤ) (m : Memory ℤ)
    (hfuel : value.toNat < base.toNat ^ fuel) :
    utoaLoop base (fuel + 1) value ptr m =
      some (ptr - ((Nat.digits base.toNat value.toNat).length : ℤ),
        storeDown m ptr ((Nat.digits base.toNat value.toNat).map digitByte)) := by
  induction fuel generalizing value ptr m with
  | zero =>
      have hzero : value = 0 := BitVec.eq_of_toNat_eq (by simpa using hfuel)
      subst value
      simp [utoaLoop, storeDown]
  | succ fuel ih =>
      by_cases hzero : value = 0
      · subst value
        simp [utoaLoop, storeDown]
      · have hpos : 0 < value.toNat :=
          Nat.pos_of_ne_zero fun h => hzero (BitVec.eq_of_toNat_eq h)
        have hdiv : (value / base).toNat = value.toNat / base.toNat := BitVec.toNat_udiv
        have hquot : (value / base).toNat < base.toNat ^ fuel := by
          rw [hdiv]
          exact Nat.div_lt_of_lt_mul (by rwa [Nat.mul_comm, ← Nat.pow_succ])
        rw [utoaLoop_step hlow hhigh _ hzero, ih _ _ _ hquot,
          Nat.digits_def' (by omega) hpos, hdiv, List.map_cons, storeDown, List.length_cons]
        congr 2
        push_cast
        omega

/-- `utoa` puts the canonical text in front of byte 15. -/
theorem utoa_eq (value : BitVec 32) (m : Memory ℤ) :
    utoa value base m = some (15 - ((canonical base.toNat value.toNat).length : ℤ),
      storeDown m 14 (canonical base.toNat value.toNat).reverse) := by
  by_cases hzero : value = 0
  · subst value
    rfl
  · have hne : value.toNat ≠ 0 := fun h => hzero (BitVec.eq_of_toNat_eq h)
    have hfuel : value.toNat < base.toNat ^ 32 :=
      Nat.lt_of_lt_of_le value.isLt (Nat.pow_le_pow_left hlow 32)
    rw [utoa, if_neg hzero, utoaLoop_eq hlow hhigh 32 value 14 m hfuel]
    simp only [canonical, hne, if_false, List.reverse_reverse, List.length_reverse,
      List.length_map, bind, Option.bind, pure]
    congr 2
    omega

theorem utoa_text (value : BitVec 32) (m : Memory ℤ) {ptr : ℤ} {m' : Memory ℤ}
    (h : utoa value base m = some (ptr, m')) :
    staticText m' ptr = canonical base.toNat value.toNat ++ [m.byte 15] ∧
      m'.byte 15 = m.byte 15 := by
  rw [utoa_eq hlow hhigh, Option.some.injEq, Prod.mk.injEq] at h
  obtain ⟨rfl, rfl⟩ := h
  constructor
  · rw [← List.length_reverse, staticText_storeDown, List.reverse_reverse]
  · rw [storeDown_byte, if_neg (by omega)]

end Conversion

theorem digitByte_ne_zero {d : ℕ} (h : d < 36) : digitByte d ≠ 0 := by
  revert d
  decide

theorem canonical_ne_zero {base value : ℕ} (hlow : 2 ≤ base) (hhigh : base ≤ 36) :
    ∀ c ∈ canonical base value, c ≠ 0 := by
  intro c hc
  rw [canonical, List.mem_reverse, List.mem_map] at hc
  obtain ⟨d, hd, rfl⟩ := hc
  apply digitByte_ne_zero
  split_ifs at hd
  · rw [List.mem_singleton] at hd
    omega
  · exact Nat.lt_of_lt_of_le (Nat.digits_lt_base (by omega) hd) hhigh

end Yack.TextFormatter
