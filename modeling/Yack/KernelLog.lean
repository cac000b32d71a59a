import Yack.DecimalText
import Yack.VgaConsole

/-!
# `kprintf` and `klog`

`kernel/io/kprintf.c` formats into a buffer on the stack and writes what it
got; `klog` of `kernel/include/kernel.h` is two such calls. A message goes to
the serial port first, so a call returns only if the poll before each byte of the
message ends, and the port it went to is the default port again then.
-/
namespace Yack.KernelLog
open ByteMemory SerialPort TextFormatter FormatText Numerals DecimalText VgaConsole

def ioMaxbufsize : ℕ := 4096

/-- What the calls change: the output devices, the static buffer of `utoa`, and
the bytes of the stack that `buffer` takes over. -/
structure Output where
  io : Io
  digits : Memory ℤ
  stack : ℕ → Byte

/-- The bytes of a string constant. -/
def cString (text : String) : List Byte := text.toList.map ascii ++ [0]

def kprintf (fmt : List Byte) (ap : List Arg) (out : Output) : Option (ℤ × Output) := do
  let (bytes, st) ← kvsnprintf ⟨out.stack, []⟩ ioMaxbufsize fmt ap out.digits
  let out := { out with digits := st.digits, stack := st.buf.byte }
  if 0 < bytes then
    let (_, io) ← write ((List.range bytes).map st.buf.byte) out.io
    return (bytes, { out with io })
  else return (bytes, out)

def klog (level : String) (fmt : List Byte) (ap : List Arg) (out : Output) : Option Output := do
  let (_, out) ← kprintf (cString "[%s] ") [.str (cString level)] out
  let (_, out) ← kprintf fmt ap out
  return out

section Port
variable {out out' : Output} {fmt : List Byte} {ap : List Arg} {n : ℤ}

theorem kprintf_port (h : kprintf fmt ap out = some (n, out')) :
    out'.io.serial.serialDefaultPort = out.io.serial.serialDefaultPort := by
  rw [kprintf] at h
  obtain ⟨⟨bytes, st⟩, -, h⟩ := Option.bind_eq_some_iff.mp h
  simp only at h
  split_ifs at h
  · obtain ⟨⟨k, io⟩, hwrite, hret⟩ := Option.bind_eq_some_iff.mp h
    cases hret
    rw [write] at hwrite
    obtain ⟨⟨k, serial⟩, hserial, hret⟩ := Option.bind_eq_some_iff.mp hwrite
    cases hret
    exact serialWrite_port hserial
  · cases h
    rfl

theorem klog_port {level : String} (h : klog level fmt ap out = some out') :
    out'.io.serial.serialDefaultPort = out.io.serial.serialDefaultPort := by
  rw [klog] at h
  obtain ⟨⟨k, mid⟩, hlevel, h⟩ := Option.bind_eq_some_iff.mp h
  obtain ⟨⟨k, last⟩, hmessage, hret⟩ := Option.bind_eq_some_iff.mp h
  cases hret
  exact (kprintf_port hmessage).trans (kprintf_port hlevel)

end Port

section Terminator
variable {digits : Memory ℤ} {ap : List Arg} {e : Expansion}

theorem expandNumber_frame {convert : BitVec 32 → Memory ℤ → Option (ℤ × Memory ℤ)}
    (hconvert : ∀ value m ptr m', convert value m = some (ptr, m') → m'.byte 15 = m.byte 15)
    {width : ℕ} {fillZeroes : Bool} (h : expandNumber convert width fillZeroes digits ap = some e) :
    e.2.2.byte 15 = digits.byte 15 := by
  cases ap with
  | nil => cases h
  | cons arg ap =>
      cases arg with
      | str bytes => cases h
      | int value =>
          rw [expandNumber] at h
          obtain ⟨⟨ptr, m'⟩, hrun, h⟩ := Option.bind_eq_some_iff.mp h
          obtain ⟨text, -, hret⟩ := Option.bind_eq_some_iff.mp h
          cases hret
          exact hconvert value digits ptr m' hrun

/-- Every conversion keeps the terminator, whatever it spells. -/
theorem expandConversion_frame {c : Byte} {fillZeroes : Bool}
    (h : expandConversion c fillZeroes ap digits = some e) : e.2.2.byte 15 = digits.byte 15 := by
  rw [expandConversion] at h
  split_ifs at h
  · cases h
    rfl
  · exact expandNumber_frame (fun _ _ _ _ => itoa_frame (by decide) (by decide)) h
  · obtain ⟨e', he', rfl⟩ := Option.map_eq_some_iff.mp h
    have hkept : e'.2.2.byte 15 = digits.byte 15 :=
      expandNumber_frame (fun _ _ _ _ => utoa_frame) he'
    exact hkept
  · exact expandNumber_frame (fun _ _ _ _ => utoa_frame) h
  · cases ap with
    | nil => cases h
    | cons arg ap =>
        cases arg with
        | int value => cases h
        | str bytes =>
            obtain ⟨text, -, rfl⟩ := Option.map_eq_some_iff.mp h
            rfl
  · cases ap with
    | nil => cases h
    | cons arg ap =>
        cases arg with
        | str bytes => cases h
        | int value =>
            cases h
            rfl
  · exact expandNumber_frame (fun _ _ _ _ => utoa_frame) h
  · cases h
    rfl

theorem loop_frame {bufsz : ℕ} {fmt : List Byte} {pos : Position} {st st' : Formatter}
    (h : kvsnprintfLoop bufsz fmt pos st = some st') :
    st'.digits.byte 15 = st.digits.byte 15 := by
  induction fmt generalizing pos st with
  | nil => cases h
  | cons c fmt ih =>
      cases pos with
      | top =>
          rw [kvsnprintfLoop] at h
          split_ifs at h
          · exact @ih .top (st.put c) h
          · exact ih h
          · cases h
            rfl
      | again fillZeroes =>
          by_cases hzero : c = ascii '0'
          · rw [kvsnprintfLoop, if_pos hzero] at h
            exact ih h
          · rw [loop_conversion hzero] at h
            obtain ⟨e, he, h⟩ := Option.bind_eq_some_iff.mp h
            exact (@ih .top (Formatter.append st e) h).trans (expandConversion_frame he)

theorem kvsnprintf_frame {buf : Memory ℕ} {bufsz n : ℕ} {fmt : List Byte} {st : Formatter}
    (h : kvsnprintf buf bufsz fmt ap digits = some (n, st)) :
    st.digits.byte 15 = digits.byte 15 := by
  rw [kvsnprintf] at h
  obtain ⟨st', hrun, hret⟩ := Option.bind_eq_some_iff.mp h
  cases hret
  exact @loop_frame bufsz fmt .top ⟨buf, 0, digits, ap⟩ st' hrun

end Terminator

section Nul
variable {out out' : Output} {fmt : List Byte} {ap : List Arg} {n : ℤ}

theorem kprintf_nul (h : kprintf fmt ap out = some (n, out')) :
    out'.digits.byte 15 = out.digits.byte 15 := by
  rw [kprintf] at h
  obtain ⟨⟨bytes, st⟩, hformat, h⟩ := Option.bind_eq_some_iff.mp h
  have hkept := kvsnprintf_frame hformat
  simp only at h
  split_ifs at h
  · obtain ⟨r, -, hret⟩ := Option.bind_eq_some_iff.mp h
    cases hret
    exact hkept
  · cases h
    exact hkept

theorem klog_nul {level : String} (h : klog level fmt ap out = some out') :
    out'.digits.byte 15 = out.digits.byte 15 := by
  rw [klog] at h
  obtain ⟨⟨k, mid⟩, hlevel, h⟩ := Option.bind_eq_some_iff.mp h
  obtain ⟨⟨k, last⟩, hmessage, hret⟩ := Option.bind_eq_some_iff.mp h
  cases hret
  exact (kprintf_nul hmessage).trans (kprintf_nul hlevel)

end Nul

/-- The polls before the next `bytes` bytes end, and the static buffer ends. -/
structure Output.Responds (out : Output) (bytes : ℕ) : Prop where
  serial : out.io.serial.Responds bytes
  nul : out.digits.byte 15 = 0

section Returns
variable {out : Output} {fmt text : List Byte} {items : List Item} {ap : List Arg} {more : ℕ}

/-- The reference text is in the buffer. -/
theorem kvsnprintf_spells {bufsz : ℕ} {digits : Memory ℤ} (hscan : scan fmt .top = some items)
    (htext : reference items ap = some text) (hfit : text.length < bufsz)
    (hnul : digits.byte 15 = 0) (stack : ℕ → Byte) :
    ∃ st, kvsnprintf ⟨stack, []⟩ bufsz fmt ap digits = some (text.length, st) ∧
      (List.range text.length).map st.buf.byte = text := by
  have hfrom : textFrom fmt .top ap digits = some text := by
    rw [textFrom, hscan, Option.bind_some, expand_reference items hnul htext]
  obtain ⟨st, hrun, hw⟩ :=
    loop_complete fmt (written_start stack digits ap) hfrom (by simpa using hfit)
  rw [List.nil_append] at hw
  refine ⟨_, by rw [kvsnprintf, hrun, ← hw.ptr]; rfl, ?_⟩
  apply List.ext_getElem
  · simp
  · intro i hi hi'
    rw [List.getElem_map, List.getElem_range, Memory.store_byte_of_ne _ _ (by rw [hw.ptr]; omega)]
    exact hw.byte i _ (List.getElem?_eq_getElem hi')

/-- A message with a reference text is written as that text. -/
theorem kprintf_returns (hscan : scan fmt .top = some items) (htext : reference items ap = some text)
    (hfit : text.length < ioMaxbufsize) (h : out.Responds (text.length + more)) :
    ∃ out', kprintf fmt ap out = some ((text.length : ℤ), out') ∧ out'.Responds more ∧
      out'.io.console = text.foldl (fun con c => putchar c con) out.io.console := by
  obtain ⟨st, hrun, hbuf⟩ := kvsnprintf_spells hscan htext hfit h.nul out.stack
  have hnul : st.digits.byte 15 = 0 := (kvsnprintf_frame hrun).trans h.nul
  by_cases hpos : 0 < text.length
  · obtain ⟨k, serial, hserial, hresponds⟩ := serialWrite_returns text h.serial
    refine ⟨⟨⟨text.foldl (fun con c => putchar c con) out.io.console, serial⟩, st.digits,
      st.buf.byte⟩, ?_, ⟨hresponds, hnul⟩, rfl⟩
    simp only [kprintf, hrun, bind, Option.bind_some, hpos, if_true, hbuf, write, hserial]
    rfl
  · have hnil : text = [] := List.length_eq_zero_iff.mp (by omega)
    refine ⟨⟨out.io, st.digits, st.buf.byte⟩, ?_,
      ⟨h.serial.mono (Nat.le_add_left _ _), hnul⟩, by rw [hnil]; rfl⟩
    simp only [kprintf, hrun, bind, Option.bind_some, hpos, if_false]
    rfl

/-- Both calls of a `klog`: the level in brackets, and the message. -/
theorem klog_returns {level : String} {tag : List Byte} (htag : cText (cString level) = some tag)
    (htagfit : tag.length + 3 < ioMaxbufsize) (hscan : scan fmt .top = some items)
    (htext : reference items ap = some text) (hfit : text.length < ioMaxbufsize)
    (h : out.Responds (tag.length + 3 + text.length + more)) :
    ∃ out', klog level fmt ap out = some out' ∧ out'.Responds more := by
  have hbracket : reference [.literal (ascii '['), .conversion false (ascii 's'),
      .literal (ascii ']'), .literal (ascii ' ')] [.str (cString level)] =
        some (ascii '[' :: (tag ++ [ascii ']', ascii ' '])) := by
    have hstring : referenceConversion (ascii 's') false [.str (cString level)] =
        some (tag, []) := by
      change takeString [.str (cString level)] = _
      rw [takeString, htag, Option.map_some]
    simp only [reference, hstring, bind, Option.bind_some, Option.map_some, pure]
  have hlength : (ascii '[' :: (tag ++ [ascii ']', ascii ' '])).length = tag.length + 3 := by
    simp
  rw [Nat.add_assoc, ← hlength] at h
  obtain ⟨mid, hlevel, hmid, -⟩ := @kprintf_returns out (cString "[%s] ") _ _ _ _ rfl
    hbracket (by rwa [hlength]) h
  obtain ⟨last, hmessage, hlast, -⟩ := kprintf_returns hscan htext hfit hmid
  exact ⟨last, by simp only [klog, hlevel, bind, Option.bind_some, hmessage]; rfl, hlast⟩

end Returns

section Message
variable {out : Output} {level : String} {fmt tag before after : List Byte}

theorem reference_literals (before : List Byte) (items : List Item) (ap : List Arg) :
    reference (before.map .literal ++ items) ap = (reference items ap).map (before ++ ·) := by
  induction before with
  | nil => simp
  | cons c before ih =>
      rw [List.map_cons, List.cons_append, reference, ih, Option.map_map]
      rfl

/-- A word as `%p` spells it takes ten characters. -/
theorem reference_pointer (before after : List Byte) (word : BitVec 32) :
    ∃ text, reference (before.map .literal ++ .conversion false (ascii 'p') ::
        (after.map .literal ++ [])) [.int word] = some text ∧
      text.length = before.length + 10 + after.length := by
  have hlength := @canonical_length_le 16 word.toNat 8 (by decide) (by decide) word.isLt
  refine ⟨before ++ ((ascii '0' :: ascii 'x' :: padded true 8 (canonical 16 word.toNat)) ++
    after), ?_, ?_⟩
  · have hword : referenceConversion (ascii 'p') false [.int word] =
        some (ascii '0' :: ascii 'x' :: padded true 8 (canonical 16 word.toNat), []) := rfl
    have hafter : reference (after.map .literal ++ []) [] = some after := by
      rw [reference_literals, reference, Option.map_some, List.append_nil]
    rw [reference_literals, reference]
    simp only [hword, hafter, bind, Option.bind_some, Option.map_some, pure]
  · simp only [padded, if_true, List.length_append, List.length_cons, List.length_replicate]
    omega

/-- A message with one pointer in it. -/
theorem klog_pointer_returns {bytes : ℕ} (htag : cText (cString level) = some tag)
    (hscan : scan fmt .top = some (before.map .literal ++ .conversion false (ascii 'p') ::
      (after.map .literal ++ [])))
    (hbytes : tag.length + 3 + (before.length + 10 + after.length) ≤ bytes)
    (hfit : bytes < ioMaxbufsize) (word : BitVec 32) (h : out.Responds bytes) :
    ∃ out', klog level fmt [.int word] out = some out' := by
  obtain ⟨text, htext, hlength⟩ := reference_pointer before after word
  obtain ⟨out', hrun, -⟩ := @klog_returns out fmt text _ _ 0 level tag htag (by omega) hscan htext
    (by omega) ⟨h.serial.mono (by omega), h.nul⟩
  exact ⟨out', hrun⟩

end Message
end Yack.KernelLog
