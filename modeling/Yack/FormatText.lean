import Yack.TextFormatter

/-!
# The text of a format

A format is a sequence of literal bytes and conversions. Its complete text is
what the conversions spell when room is no question; it threads the arguments
and the static buffer of `utoa`, because `itoa` of a negative number reads a
stale byte of it. The loop writes exactly this text as long as it fits, and
where it does not fit the loop has already gone too far when it stops.

The reference text says what each conversion is for, without the static buffer.
-/
namespace Yack.FormatText
open ByteMemory TextFormatter

/-- A literal byte, or a conversion with its `0` flag. -/
inductive Item where
  | literal (c : Byte)
  | conversion (fillZeroes : Bool) (c : Byte)
  deriving DecidableEq, Repr

/-- The items of a terminated format; a conversion needs its character. -/
def scan : List Byte → Position → Option (List Item)
  | [], _ => none
  | c :: fmt, .top =>
      if c = 0 then some []
      else if c ≠ ascii '%' then (scan fmt .top).map (.literal c :: ·)
      else scan fmt (.again false)
  | c :: fmt, .again fillZeroes =>
      if c = 0 then none
      else if c = ascii '0' then scan fmt (.again true)
      else (scan fmt .top).map (.conversion fillZeroes c :: ·)

/-- Zeros in front of a text, up to a width. -/
def padded (fillZeroes : Bool) (width : ℕ) (text : List Byte) : List Byte :=
  (if fillZeroes then List.replicate (width - text.length) (ascii '0') else []) ++ text

/-- What a conversion leaves: its text, the other arguments, the static buffer. -/
abbrev Expansion := List Byte × List Arg × Memory ℤ

def expandNumber (convert : BitVec 32 → Memory ℤ → Option (ℤ × Memory ℤ)) (width : ℕ)
    (fillZeroes : Bool) (digits : Memory ℤ) : List Arg → Option Expansion
  | .int value :: ap => do
      let (ptr, digits) ← convert value digits
      let text ← cText (staticText digits ptr)
      return (padded fillZeroes width text, ap, digits)
  | _ => none

def expandString (digits : Memory ℤ) : List Arg → Option Expansion
  | .str bytes :: ap => (cText bytes).map fun text => (text, ap, digits)
  | _ => none

def expandChar (digits : Memory ℤ) : List Arg → Option Expansion
  | .int value :: ap => some ([value.setWidth 8], ap, digits)
  | _ => none

/-- The text of one conversion, from `itoa` and `utoa` as they are. -/
def expandConversion (c : Byte) (fillZeroes : Bool) (ap : List Arg) (digits : Memory ℤ) :
    Option Expansion :=
  if c = ascii '%' then some ([ascii '%'], ap, digits)
  else if c = ascii 'd' then expandNumber (itoa · 10) 10 fillZeroes digits ap
  else if c = ascii 'p' then
    (expandNumber (utoa · 16) 8 true digits ap).map fun (text, rest) =>
      (ascii '0' :: ascii 'x' :: text, rest)
  else if c = ascii 'x' then expandNumber (utoa · 16) 8 fillZeroes digits ap
  else if c = ascii 's' then expandString digits ap
  else if c = ascii 'c' then expandChar digits ap
  else if c = ascii 'u' then expandNumber (utoa · 10) 0 fillZeroes digits ap
  else some ([], ap, digits)

def expand : List Item → List Arg → Memory ℤ → Option (List Byte)
  | [], _, _ => some []
  | .literal c :: items, ap, digits => (expand items ap digits).map (c :: ·)
  | .conversion fillZeroes c :: items, ap, digits => do
      let (text, ap, digits) ← expandConversion c fillZeroes ap digits
      let rest ← expand items ap digits
      return text ++ rest

/-- The text from a position in the format on. -/
def textFrom (fmt : List Byte) (pos : Position) (ap : List Arg) (digits : Memory ℤ) :
    Option (List Byte) :=
  (scan fmt pos).bind fun items => expand items ap digits

/-- The text of the whole format. -/
def completeText (fmt : List Byte) (ap : List Arg) (digits : Memory ℤ) : Option (List Byte) :=
  textFrom fmt .top ap digits

/-- The loop stops at the terminator, and so does the text. -/
theorem loop_end {bufsz : ℕ} {fmt : List Byte} {st : Formatter} :
    kvsnprintfLoop bufsz (0 :: fmt) .top st = some st := by
  rw [kvsnprintfLoop, if_neg fun h => h.1 rfl]

theorem textFrom_end {fmt : List Byte} {ap : List Arg} {digits : Memory ℤ} :
    textFrom (0 :: fmt) .top ap digits = some [] := by
  simp [textFrom, scan, expand]

/-- The state behind a conversion: its text and a terminator are in the buffer. -/
def Formatter.append (st : Formatter) (e : Expansion) : Formatter :=
  ⟨storeUp st.buf st.ptr (e.1 ++ [0]), st.ptr + e.1.length, e.2.2, e.2.1⟩

theorem fillLoop_eq (len fillLength : ℕ) (st : Formatter) : fillLoop len fillLength st =
    { st with
      buf := storeUp st.buf st.ptr (List.replicate (fillLength - len) (ascii '0'))
      ptr := st.ptr + (fillLength - len) } := by
  induction fillLength generalizing st with
  | zero => simp [fillLoop, storeUp]
  | succ n ih =>
      rw [fillLoop]
      split_ifs with hlt
      · have hcount : n + 1 - len = n - len + 1 := by omega
        rw [ih, hcount, List.replicate_succ, storeUp]
        simp only [Formatter.put, Nat.add_assoc, Nat.add_comm 1]
      · have hcount : n + 1 - len = 0 := by omega
        simp [hcount, storeUp]

theorem emit_eq (sel : Selected) : sel.emit = (cText sel.text).map fun text =>
    Formatter.append sel.st
      (padded sel.fillZeroes sel.fillLength text, sel.st.ap, sel.st.digits) := by
  rw [Selected.emit, strlen_eq]
  cases htext : cText sel.text with
  | none => rfl
  | some text =>
      simp only [Option.map_some, bind, Option.bind, strcpy_eq, htext, Formatter.append, padded]
      cases sel.fillZeroes with
      | false => rfl
      | true =>
          simp only [if_true, fillLoop_eq, List.append_assoc, storeUp_append, List.length_append,
            List.length_replicate, pure, Nat.add_assoc]

theorem append_put (st : Formatter) (c : Byte) (e : Expansion) :
    Formatter.append (st.put c) e = Formatter.append st (c :: e.1, e.2) := by
  simp only [Formatter.append, Formatter.put, List.cons_append, storeUp, List.length_cons,
    Nat.add_assoc, Nat.add_comm 1]

theorem padded_zero (fillZeroes : Bool) (text : List Byte) : padded fillZeroes 0 text = text := by
  simp [padded]

section Iteration
variable {st : Formatter}

/-- The number cases: convert into the static buffer, pad, copy. -/
theorem number_emit (convert : BitVec 32 → Memory ℤ → Option (ℤ × Memory ℤ)) (width : ℕ)
    (fillZeroes : Bool) :
    (st.vaInt.bind fun r => (convert r.1 r.2.digits).bind fun r' =>
      some (Selected.mk (staticText r'.2 r'.1) width fillZeroes { r.2 with digits := r'.2 })).bind
        Selected.emit =
      (expandNumber convert width fillZeroes st.digits st.ap).map (Formatter.append st) := by
  obtain ⟨buf, ptr, digits, ap⟩ := st
  cases ap with
  | nil => rfl
  | cons arg ap =>
      cases arg with
      | str bytes => rfl
      | int value =>
          simp only [Formatter.vaInt, expandNumber, Option.bind_some, bind]
          cases convert value digits with
          | none => rfl
          | some r =>
              simp only [Option.bind_some, emit_eq]
              cases cText (staticText r.2 r.1) with
              | none => rfl
              | some text => rfl

theorem hexCase_emit (fillZeroes : Bool) : (hexCase fillZeroes st).bind Selected.emit =
    (expandNumber (utoa · 16) 8 fillZeroes st.digits st.ap).map (Formatter.append st) :=
  number_emit (utoa · 16) 8 fillZeroes

theorem string_emit (fillZeroes : Bool) :
    (st.vaString.bind fun r => some (Selected.mk r.1 0 fillZeroes r.2)).bind Selected.emit =
      (expandString st.digits st.ap).map (Formatter.append st) := by
  obtain ⟨buf, ptr, digits, ap⟩ := st
  cases ap with
  | nil => rfl
  | cons arg ap =>
      cases arg with
      | int value => rfl
      | str bytes =>
          simp only [Formatter.vaString, expandString, Option.bind_some, emit_eq, padded_zero,
            Option.map_map]
          rfl

theorem char_emit (fillZeroes : Bool) :
    (st.vaInt.bind fun r => some (Selected.mk [0] 0 fillZeroes (r.2.put (r.1.setWidth 8)))).bind
        Selected.emit = (expandChar st.digits st.ap).map (Formatter.append st) := by
  obtain ⟨buf, ptr, digits, ap⟩ := st
  have hempty : cText [0] = some [] := rfl
  cases ap with
  | nil => rfl
  | cons arg ap =>
      cases arg with
      | str bytes => rfl
      | int value =>
          simp only [Formatter.vaInt, expandChar, Option.bind_some, emit_eq, padded_zero, hempty,
            Option.map_some]
          exact congrArg some (append_put ⟨buf, ptr, digits, ap⟩ _ ([], ap, digits))

/-- One conversion of the source appends its expansion. -/
theorem select_emit (c : Byte) (fillZeroes : Bool) :
    (select c fillZeroes st).bind Selected.emit =
      (expandConversion c fillZeroes st.ap st.digits).map (Formatter.append st) := by
  have hempty : cText [0] = some [] := rfl
  have hpercent : cText [ascii '%', 0] = some [ascii '%'] := rfl
  rw [select, expandConversion]
  split_ifs with h₁ h₂ h₃ h₄ h₅ h₆ h₇
  · simp only [Option.bind_some, emit_eq, hpercent, Option.map_some, padded_zero]
  · exact number_emit (itoa · 10) 10 fillZeroes
  · rw [hexCase_emit]
    simp only [Formatter.put, Option.map_map]
    congr 1
    funext e
    exact (append_put (st.put (ascii '0')) (ascii 'x') e).trans (append_put st _ _)
  · exact hexCase_emit fillZeroes
  · exact string_emit fillZeroes
  · exact char_emit fillZeroes
  · exact number_emit (utoa · 10) 0 fillZeroes
  · simp only [Option.bind_some, emit_eq, hempty, Option.map_some, padded_zero]

end Iteration

section Steps
variable {bufsz : ℕ} {c : Byte} {fmt : List Byte} {fillZeroes : Bool} {st : Formatter}
  {ap : List Arg} {digits : Memory ℤ}

theorem textFrom_literal (h0 : c ≠ 0) (hc : c ≠ ascii '%') :
    textFrom (c :: fmt) .top ap digits = (textFrom fmt .top ap digits).map (c :: ·) := by
  rw [textFrom, textFrom, scan, if_neg h0, if_pos hc]
  cases scan fmt .top with
  | none => rfl
  | some items => rfl

theorem textFrom_percent :
    textFrom (ascii '%' :: fmt) .top ap digits = textFrom fmt (.again false) ap digits := by
  rw [textFrom, textFrom, scan, if_neg (by decide), if_neg (by decide)]

theorem textFrom_zero :
    textFrom (ascii '0' :: fmt) (.again fillZeroes) ap digits =
      textFrom fmt (.again true) ap digits := by
  rw [textFrom, textFrom, scan, if_neg (by decide), if_pos rfl]

theorem textFrom_conversion (h0 : c ≠ 0) (hc : c ≠ ascii '0') :
    textFrom (c :: fmt) (.again fillZeroes) ap digits =
      (expandConversion c fillZeroes ap digits).bind fun e =>
        (textFrom fmt .top e.2.1 e.2.2).map (e.1 ++ ·) := by
  rw [textFrom, scan, if_neg h0, if_neg hc]
  simp only [textFrom]
  cases scan fmt .top with
  | none => cases expandConversion c fillZeroes ap digits <;> rfl
  | some items =>
      simp only [Option.map_some, Option.bind_some, expand, bind]
      cases expandConversion c fillZeroes ap digits with
      | none => rfl
      | some e =>
          simp only [Option.bind_some]
          cases expand items e.2.1 e.2.2 <;> rfl

theorem loop_literal (h0 : c ≠ 0) (hc : c ≠ ascii '%') (hroom : st.ptr < bufsz) :
    kvsnprintfLoop bufsz (c :: fmt) .top st = kvsnprintfLoop bufsz fmt .top (st.put c) := by
  rw [kvsnprintfLoop, if_pos ⟨h0, hroom⟩, if_pos hc]

theorem loop_percent (hroom : st.ptr < bufsz) :
    kvsnprintfLoop bufsz (ascii '%' :: fmt) .top st =
      kvsnprintfLoop bufsz fmt (.again false) st := by
  rw [kvsnprintfLoop, if_pos ⟨by decide, hroom⟩, if_neg (by decide)]

theorem loop_zero : kvsnprintfLoop bufsz (ascii '0' :: fmt) (.again fillZeroes) st =
    kvsnprintfLoop bufsz fmt (.again true) st := by
  rw [kvsnprintfLoop, if_pos rfl]

theorem loop_conversion (hc : c ≠ ascii '0') :
    kvsnprintfLoop bufsz (c :: fmt) (.again fillZeroes) st =
      (expandConversion c fillZeroes st.ap st.digits).bind fun e =>
        kvsnprintfLoop bufsz fmt .top (Formatter.append st e) := by
  have hemit : (select c fillZeroes st).bind Selected.emit =
      (expandConversion c fillZeroes st.ap st.digits).map (Formatter.append st) := select_emit c _
  rw [kvsnprintfLoop, if_neg hc]
  cases hsel : select c fillZeroes st with
  | none =>
      cases hexp : expandConversion c fillZeroes st.ap st.digits with
      | none => rfl
      | some e => simp [hsel, hexp] at hemit
  | some sel =>
      simp only [hsel, Option.bind_some] at hemit
      simp only [bind, Option.bind_some, hemit]
      cases expandConversion c fillZeroes st.ap st.digits <;> rfl

end Steps

/-- `text` is in the buffer up to the pointer, and nothing was written behind
the byte at the pointer. -/
structure Written (buf : Memory ℕ) (st : Formatter) (text : List Byte) : Prop where
  ptr : st.ptr = text.length
  byte : ∀ i c, text[i]? = some c → st.buf.byte i = c
  frame : buf.Frame st.buf (· ≤ text.length)

section Writing
variable {buf : Memory ℕ} {bufsz : ℕ} {st st' : Formatter} {text : List Byte}

theorem Written.storeUp (h : Written buf st text) {cs : List Byte} (tail : List Byte) (htail : tail.length ≤ 1)
    (hbuf : st'.buf = storeUp st.buf st.ptr (cs ++ tail)) (hptr : st'.ptr = st.ptr + cs.length) :
    Written buf st' (text ++ cs) := by
  refine ⟨by rw [hptr, h.ptr, List.length_append], ?_, ?_⟩
  · intro i c hc
    rw [hbuf, storeUp_byte, h.ptr]
    by_cases hlt : i < text.length
    · rw [List.getElem?_append_left hlt] at hc
      rw [if_neg (by omega), h.byte i c hc]
    · rw [List.getElem?_append_right (by omega)] at hc
      obtain ⟨hin, -⟩ := List.getElem?_eq_some_iff.mp hc
      rw [if_pos (by omega), List.getElem?_append_left hin, hc, Option.getD_some]
  · rw [hbuf]
    apply (h.frame.mono ?_).trans ((storeUp_frame st.buf st.ptr (cs ++ tail)).mono ?_)
    · intro x hx
      rw [List.length_append]
      omega
    · intro x hx
      rw [h.ptr, List.length_append] at hx
      rw [List.length_append]
      omega

theorem Written.put (h : Written buf st text) (c : Byte) :
    Written buf (st.put c) (text ++ [c]) :=
  h.storeUp [] (by simp) rfl rfl

theorem Written.append (h : Written buf st text) (e : Expansion) :
    Written buf (Formatter.append st e) (text ++ e.1) :=
  h.storeUp [0] (by simp) rfl rfl

/-- The run lemma: a text that fits is written in full. -/
theorem loop_complete (fmt : List Byte) {pos : Position} {rest : List Byte}
    (h : Written buf st text) (hrest : textFrom fmt pos st.ap st.digits = some rest)
    (hfit : (text ++ rest).length < bufsz) :
    ∃ st', kvsnprintfLoop bufsz fmt pos st = some st' ∧ Written buf st' (text ++ rest) := by
  induction fmt generalizing pos st text rest with
  | nil => simp [textFrom, scan] at hrest
  | cons c fmt ih =>
      have hroom : st.ptr < bufsz := by
        rw [h.ptr]
        rw [List.length_append] at hfit
        omega
      cases pos with
      | top =>
          by_cases h0 : c = 0
          · subst c
            rw [textFrom_end, Option.some.injEq] at hrest
            subst rest
            exact ⟨st, loop_end, by rwa [List.append_nil]⟩
          · by_cases hc : c = ascii '%'
            · subst c
              rw [textFrom_percent] at hrest
              rw [loop_percent hroom]
              exact ih h hrest hfit
            · rw [textFrom_literal h0 hc, Option.map_eq_some_iff] at hrest
              obtain ⟨tail, htail, rfl⟩ := hrest
              rw [List.append_cons] at hfit ⊢
              rw [loop_literal h0 hc hroom]
              exact ih (h.put c) htail hfit
      | again fillZeroes =>
          by_cases hzero : c = ascii '0'
          · subst c
            rw [textFrom_zero] at hrest
            rw [loop_zero]
            exact ih h hrest hfit
          · by_cases h0 : c = 0
            · subst c
              simp [textFrom, scan] at hrest
            · rw [textFrom_conversion h0 hzero, Option.bind_eq_some_iff] at hrest
              obtain ⟨e, he, hmap⟩ := hrest
              obtain ⟨tail, htail, rfl⟩ := Option.map_eq_some_iff.mp hmap
              rw [← List.append_assoc] at hfit ⊢
              rw [loop_conversion hzero, he, Option.bind_some]
              exact ih (h.append e) htail hfit

/-- When the loop ends, it has written the whole text or has run out of room. -/
theorem loop_sound (fmt : List Byte) {pos : Position} (h0 : 0 ∉ fmt) (h : Written buf st text)
    (hrun : kvsnprintfLoop bufsz (fmt ++ [0]) pos st = some st') :
    (∃ rest, textFrom (fmt ++ [0]) pos st.ap st.digits = some rest ∧
      Written buf st' (text ++ rest)) ∨ bufsz ≤ st'.ptr := by
  induction fmt generalizing pos st text with
  | nil =>
      cases pos with
      | top =>
          rw [List.nil_append, loop_end, Option.some.injEq] at hrun
          subst st'
          exact .inl ⟨[], textFrom_end, by rwa [List.append_nil]⟩
      | again fillZeroes =>
          rw [List.nil_append, loop_conversion (by decide)] at hrun
          obtain ⟨e, -, hnone⟩ := Option.bind_eq_some_iff.mp hrun
          simp [kvsnprintfLoop] at hnone
  | cons c fmt ih =>
      have hc0 : c ≠ 0 := fun e => h0 (by simp [e])
      have h0' : 0 ∉ fmt := fun hmem => h0 (List.mem_cons_of_mem _ hmem)
      rw [List.cons_append] at hrun ⊢
      cases pos with
      | top =>
          by_cases hroom : st.ptr < bufsz
          · by_cases hc : c = ascii '%'
            · subst c
              rw [loop_percent hroom] at hrun
              rw [textFrom_percent]
              exact ih h0' h hrun
            · rw [loop_literal hc0 hc hroom] at hrun
              obtain ⟨tail, htail, hw⟩ | hfull := ih h0' (h.put c) hrun
              · refine .inl ⟨c :: tail, ?_, by rwa [List.append_cons]⟩
                rw [textFrom_literal hc0 hc, show textFrom (fmt ++ [0]) .top st.ap st.digits =
                  some tail from htail, Option.map_some]
              · exact .inr hfull
          · rw [kvsnprintfLoop, if_neg fun hand => hroom hand.2, Option.some.injEq] at hrun
            subst st'
            exact .inr (Nat.not_lt.mp hroom)
      | again fillZeroes =>
          by_cases hzero : c = ascii '0'
          · subst c
            rw [loop_zero] at hrun
            rw [textFrom_zero]
            exact ih h0' h hrun
          · rw [loop_conversion hzero] at hrun
            obtain ⟨e, he, hrun⟩ := Option.bind_eq_some_iff.mp hrun
            obtain ⟨tail, htail, hw⟩ | hfull := ih h0' (h.append e) hrun
            · refine .inl ⟨e.1 ++ tail, ?_, by rwa [← List.append_assoc]⟩
              rw [textFrom_conversion hc0 hzero, he, Option.bind_some,
                show textFrom (fmt ++ [0]) .top e.2.1 e.2.2 = some tail from htail,
                Option.map_some]
            · exact .inr hfull

end Writing

theorem written_start (buf : ℕ → Byte) (digits : Memory ℤ) (ap : List Arg) :
    Written ⟨buf, []⟩ ⟨⟨buf, []⟩, 0, digits, ap⟩ [] :=
  ⟨rfl, by simp, Memory.Frame.refl _ _⟩

/-- The call returns, stays inside the buffer, terminates a text there and
reports a length below the size. -/
def InBounds (bufsz : ℕ) (result : Option (ℕ × Formatter)) : Prop :=
  ∃ n st, result = some (n, st) ∧ (∀ k ∈ st.buf.written, k < bufsz) ∧
    (∃ k < bufsz, st.buf.byte k = 0) ∧ n < bufsz

/-- The call stays in bounds exactly when its complete text leaves room for the
terminator. -/
theorem kvsnprintf_in_bounds_iff (buf : ℕ → Byte) (bufsz : ℕ) (fmt : List Byte) (hfmt : 0 ∉ fmt)
    (ap : List Arg) (digits : Memory ℤ) :
    InBounds bufsz (kvsnprintf ⟨buf, []⟩ bufsz (fmt ++ [0]) ap digits) ↔
      ∃ text, completeText (fmt ++ [0]) ap digits = some text ∧ text.length < bufsz := by
  have hstart := written_start buf digits ap
  constructor
  · intro h
    obtain ⟨n, st, hcall, hwritten, -, -⟩ := h
    rw [kvsnprintf] at hcall
    obtain ⟨st', hrun, hret⟩ := Option.bind_eq_some_iff.mp hcall
    obtain ⟨rfl, rfl⟩ := Prod.mk.inj (Option.some.inj hret)
    have hlast : st'.ptr < bufsz := hwritten st'.ptr (by simp)
    obtain ⟨text, htext, hw⟩ | hfull := loop_sound fmt hfmt hstart hrun
    · rw [List.nil_append] at hw
      exact ⟨text, htext, hw.ptr ▸ hlast⟩
    · omega
  · intro h
    obtain ⟨text, htext, hfit⟩ := h
    obtain ⟨st, hrun, hw⟩ := loop_complete (fmt ++ [0]) hstart htext (by simpa using hfit)
    rw [List.nil_append] at hw
    have hptr : st.ptr < bufsz := hw.ptr ▸ hfit
    refine ⟨st.ptr, _, by rw [kvsnprintf, hrun]; rfl, ?_, ⟨st.ptr, hptr, by simp⟩, hptr⟩
    intro k hk
    obtain rfl | hk := List.mem_cons.mp hk
    · exact hptr
    · obtain hnone | hle := hw.frame.2 k hk
      · cases hnone
      · exact Nat.lt_of_le_of_lt hle hfit

/-- `"%0d%s"` takes ten digits and the string, so 14 bytes hold them. -/
theorem kvsnprintf_in_bounds_number :
    InBounds 14 (kvsnprintf ⟨fun _ => 0xFF, []⟩ 14
      ([ascii '%', ascii '0', ascii 'd', ascii '%', ascii 's'] ++ [0])
      [.int 42, .str [ascii 'o', ascii 'k', 0]] ⟨fun _ => 0, []⟩) :=
  (kvsnprintf_in_bounds_iff _ 14 _ (by decide) _ _).mpr
    ⟨List.replicate 8 (ascii '0') ++ [ascii '4', ascii '2', ascii 'o', ascii 'k'],
      by decide, by decide⟩

/-- `"ab"` into two bytes: the terminator goes to `buf[2]`, and 2 is returned. -/
theorem kvsnprintf_overruns : ∃ st,
    kvsnprintf ⟨fun _ => 0xFF, []⟩ 2 [ascii 'a', ascii 'b', 0] [] ⟨fun _ => 0, []⟩ =
      some (2, st) ∧ st.buf.written = [2, 1, 0] ∧
    ¬ InBounds 2 (kvsnprintf ⟨fun _ => 0xFF, []⟩ 2 [ascii 'a', ascii 'b', 0] []
      ⟨fun _ => 0, []⟩) := by
  refine ⟨_, rfl, rfl, ?_⟩
  intro h
  obtain ⟨n, st, hcall, hwritten, -⟩ := h
  cases hcall
  have hmem : 2 ∈ [2, 1, 0] := by simp
  exact absurd (hwritten 2 hmem) (by decide)

def takeInt (spell : BitVec 32 → Option (List Byte)) :
    List Arg → Option (List Byte × List Arg)
  | .int value :: ap => (spell value).map fun text => (text, ap)
  | _ => none

def takeString : List Arg → Option (List Byte × List Arg)
  | .str bytes :: ap => (cText bytes).map fun text => (text, ap)
  | _ => none

/-- What a conversion is for. A negative `%d`, like an argument of the wrong
kind or none at all, has no reference. -/
def referenceConversion (c : Byte) (fillZeroes : Bool) (ap : List Arg) :
    Option (List Byte × List Arg) :=
  if c = ascii '%' then some ([ascii '%'], ap)
  else if c = ascii 'd' then takeInt (fun value =>
    if 0 ≤ value.toInt then some (padded fillZeroes 10 (canonical 10 value.toNat)) else none) ap
  else if c = ascii 'p' then takeInt (fun value =>
    some (ascii '0' :: ascii 'x' :: padded true 8 (canonical 16 value.toNat))) ap
  else if c = ascii 'x' then takeInt (fun value =>
    some (padded fillZeroes 8 (canonical 16 value.toNat))) ap
  else if c = ascii 's' then takeString ap
  else if c = ascii 'c' then takeInt (fun value => some [value.setWidth 8]) ap
  else if c = ascii 'u' then takeInt (fun value => some (canonical 10 value.toNat)) ap
  else some ([], ap)

def reference : List Item → List Arg → Option (List Byte)
  | [], _ => some []
  | .literal c :: items, ap => (reference items ap).map (c :: ·)
  | .conversion fillZeroes c :: items, ap => do
      let (text, ap) ← referenceConversion c fillZeroes ap
      let rest ← reference items ap
      return text ++ rest

section Reference
variable {digits : Memory ℤ} {ap ap' : List Arg} {text : List Byte}

/-- With byte 15 the terminator, a converted number reads back as its text. -/
theorem expandNumber_utoa {base : BitVec 32} (hlow : 2 ≤ base.toNat) (hhigh : base.toNat ≤ 36)
    (hnul : digits.byte 15 = 0) (width : ℕ) (fillZeroes : Bool) (value : BitVec 32) :
    ∃ digits', expandNumber (utoa · base) width fillZeroes digits (.int value :: ap) =
      some (padded fillZeroes width (canonical base.toNat value.toNat), ap, digits') ∧
      digits'.byte 15 = 0 := by
  obtain ⟨htext, hnul'⟩ := utoa_text hlow hhigh value digits (utoa_eq hlow hhigh value digits)
  refine ⟨_, ?_, hnul'.trans hnul⟩
  rw [hnul] at htext
  simp only [expandNumber, utoa_eq hlow hhigh, bind, Option.bind_some, htext,
    cText_terminated (canonical_ne_zero hlow hhigh)]
  rfl

theorem itoa_nonneg {value : BitVec 32} (h : 0 ≤ value.toInt) (base : BitVec 32) (m : Memory ℤ) :
    itoa value base m = utoa value base m := by
  rw [itoa, if_neg (by omega)]

theorem takeInt_eq_some {spell : BitVec 32 → Option (List Byte)}
    (h : takeInt spell ap = some (text, ap')) :
    ∃ value, ap = .int value :: ap' ∧ spell value = some text := by
  cases ap with
  | nil => cases h
  | cons arg ap =>
      cases arg with
      | str bytes => cases h
      | int value =>
          obtain ⟨text', hspell, hpair⟩ := Option.map_eq_some_iff.mp h
          cases hpair
          exact ⟨value, rfl, hspell⟩

theorem takeString_eq_some (h : takeString ap = some (text, ap')) :
    ∃ bytes, ap = .str bytes :: ap' ∧ cText bytes = some text := by
  cases ap with
  | nil => cases h
  | cons arg ap =>
      cases arg with
      | int value => cases h
      | str bytes =>
          obtain ⟨text', htext, hpair⟩ := Option.map_eq_some_iff.mp h
          cases hpair
          exact ⟨bytes, rfl, htext⟩

/-- Where there is a reference, the code's conversion spells it. -/
theorem expandConversion_reference {c : Byte} {fillZeroes : Bool} (hnul : digits.byte 15 = 0)
    (h : referenceConversion c fillZeroes ap = some (text, ap')) :
    ∃ digits', expandConversion c fillZeroes ap digits = some (text, ap', digits') ∧
      digits'.byte 15 = 0 := by
  have hten : (10 : BitVec 32).toNat = 10 := rfl
  have hsixteen : (16 : BitVec 32).toNat = 16 := rfl
  rw [referenceConversion] at h
  rw [expandConversion]
  split_ifs at h ⊢
  · cases h
    exact ⟨digits, rfl, hnul⟩
  · obtain ⟨value, rfl, hspell⟩ := takeInt_eq_some h
    split_ifs at hspell with hneg
    cases hspell
    simp only [expandNumber, itoa_nonneg hneg]
    exact expandNumber_utoa (by decide) (by decide) hnul 10 fillZeroes value
  · obtain ⟨value, rfl, hspell⟩ := takeInt_eq_some h
    cases hspell
    obtain ⟨digits', hexpand, hnul'⟩ := @expandNumber_utoa digits ap' 16 (by decide) (by decide)
      hnul 8 true value
    exact ⟨digits', by rw [hexpand]; rfl, hnul'⟩
  · obtain ⟨value, rfl, hspell⟩ := takeInt_eq_some h
    cases hspell
    exact expandNumber_utoa (by decide) (by decide) hnul 8 fillZeroes value
  · obtain ⟨bytes, rfl, htext⟩ := takeString_eq_some h
    exact ⟨digits, by rw [expandString, htext]; rfl, hnul⟩
  · obtain ⟨value, rfl, hspell⟩ := takeInt_eq_some h
    cases hspell
    exact ⟨digits, rfl, hnul⟩
  · obtain ⟨value, rfl, hspell⟩ := takeInt_eq_some h
    cases hspell
    obtain ⟨digits', hexpand, hnul'⟩ := @expandNumber_utoa digits ap' 10 (by decide) (by decide)
      hnul 0 fillZeroes value
    rw [padded_zero] at hexpand
    exact ⟨digits', hexpand, hnul'⟩
  · cases h
    exact ⟨digits, rfl, hnul⟩

theorem expand_reference (items : List Item) (hnul : digits.byte 15 = 0)
    (h : reference items ap = some text) : expand items ap digits = some text := by
  induction items generalizing ap digits text with
  | nil => exact h
  | cons item items ih =>
      cases item with
      | literal c =>
          rw [reference, Option.map_eq_some_iff] at h
          obtain ⟨rest, hrest, rfl⟩ := h
          rw [expand, ih hnul hrest, Option.map_some]
      | conversion fillZeroes c =>
          rw [reference] at h
          obtain ⟨⟨part, ap'⟩, hpart, h⟩ := Option.bind_eq_some_iff.mp h
          obtain ⟨rest, hrest, htext⟩ := Option.bind_eq_some_iff.mp h
          obtain ⟨digits', hexpand, hnul'⟩ := expandConversion_reference hnul hpart
          simp only [expand, hexpand, bind, Option.bind_some, ih hnul' hrest]
          exact htext

end Reference

/-- With room for it, the call writes the reference text and its terminator,
and nothing else. -/
theorem kvsnprintf_writes_reference (buf : ℕ → Byte) (bufsz : ℕ) (fmt : List Byte)
    (items : List Item) (hfmt : scan fmt .top = some items) (ap : List Arg) (text : List Byte)
    (htext : reference items ap = some text) (hfit : text.length < bufsz) (digits : Memory ℤ)
    (hnul : digits.byte 15 = 0) :
    ∃ st, kvsnprintf ⟨buf, []⟩ bufsz fmt ap digits = some (text.length, st) ∧
      (∀ i c, (text ++ [0])[i]? = some c → st.buf.byte i = c) ∧
      (∀ k ∈ st.buf.written, k ≤ text.length) ∧
      ∀ k, text.length < k → st.buf.byte k = buf k := by
  have hfrom : textFrom fmt .top ap digits = some text := by
    rw [textFrom, hfmt, Option.bind_some, expand_reference items hnul htext]
  obtain ⟨st, hrun, hw⟩ := loop_complete fmt (written_start buf digits ap) hfrom (by simpa using hfit)
  rw [List.nil_append] at hw
  refine ⟨_, by rw [kvsnprintf, hrun, ← hw.ptr]; rfl, ?_, ?_, ?_⟩
  · intro i c hc
    rw [Memory.store_byte, hw.ptr]
    by_cases hlt : i < text.length
    · rw [List.getElem?_append_left hlt] at hc
      rw [if_neg (by omega), hw.byte i c hc]
    · rw [List.getElem?_append_right (by omega)] at hc
      obtain ⟨hin, hval⟩ := List.getElem?_eq_some_iff.mp hc
      rw [List.length_singleton] at hin
      rw [if_pos (by omega), ← hval, List.getElem_singleton]
  · intro k hk
    obtain rfl | hk := List.mem_cons.mp hk
    · exact Nat.le_of_eq hw.ptr
    · obtain hnone | hle := hw.frame.2 k hk
      · cases hnone
      · exact hle
  · intro k hk
    rw [Memory.store_byte_of_ne _ _ (by rw [hw.ptr]; omega)]
    exact hw.frame.1 k (by omega)

/-- `"%0x:%u%%"` of `0xBEEF` and 70. -/
theorem kvsnprintf_writes_reference_hex : ∃ st,
    kvsnprintf ⟨fun _ => 0xFF, []⟩ 64 [ascii '%', ascii '0', ascii 'x', ascii ':', ascii '%',
      ascii 'u', ascii '%', ascii '%', 0] [.int 0xBEEF, .int 70] ⟨fun k => if k = 15 then 0 else 7,
      []⟩ = some (12, st) ∧ st.buf.byte 4 = ascii 'B' ∧ st.buf.byte 12 = 0 := by
  obtain ⟨st, hrun, hbyte, -⟩ := kvsnprintf_writes_reference (fun _ => 0xFF) 64
    [ascii '%', ascii '0', ascii 'x', ascii ':', ascii '%', ascii 'u', ascii '%', ascii '%', 0]
    [.conversion true (ascii 'x'), .literal (ascii ':'), .conversion false (ascii 'u'),
      .conversion false (ascii '%')] (by decide) [.int 0xBEEF, .int 70]
    [ascii '0', ascii '0', ascii '0', ascii '0', ascii 'B', ascii 'E', ascii 'E', ascii 'F',
      ascii ':', ascii '7', ascii '0', ascii '%'] (by decide) (by decide)
    ⟨fun k => if k = 15 then 0 else 7, []⟩ rfl
  exact ⟨st, hrun, hbyte 4 _ rfl, hbyte 12 _ rfl⟩

end Yack.FormatText
