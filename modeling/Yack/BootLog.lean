import Yack.KernelOutput
import Yack.KernelState

/-!
# The messages of the kernel's parts

The parts of the kernel record a message as its level, its format and the words
it is called with. Printed one after the other through `klog`, such messages are
the text of all of them, on the screen and written to the default port, if the
polls before that many bytes end.

A format whose conversions all take words has a text, of a length that the format
alone bounds, whatever the words are.
-/
namespace Yack.BootLog
open SerialPort TextFormatter FormatText Numerals KernelLog KernelOutput
open KernelState (Event)
open VgaConsole (putchar)

/-- The calls of `kprintf` of a message. -/
def eventCalls : Event → List Call
  | .klog level fmt args => (Message.klog level (cString fmt) (args.map .int)).calls
  | .handedOut _ => []

def printEvent (out : Output) : Event → Option Output
  | .klog level fmt args => KernelLog.klog level (cString fmt) (args.map .int) out
  | .handedOut _ => some out

/-- The messages in the order they were made. -/
def printEvents (events : List Event) (out : Output) : Option Output :=
  events.foldlM printEvent out

def eventText (e : Event) : List Byte := ((eventCalls e).map Call.text).flatten

def logText (events : List Event) : List Byte := (events.map eventText).flatten

/-- The bytes a conversion of a word takes at most. -/
def conversionWidth (c : Byte) : Option ℕ :=
  if c = ascii 'p' ∨ c = ascii 'u' then some 10
  else if c = ascii 'x' then some 8
  else if c = ascii 'c' then some 1
  else none

/-- The bytes that the items take at most with `n` words to come. -/
def wordsWidth : List Item → ℕ → Option ℕ
  | [], _ => some 0
  | .literal _ :: items, n => (wordsWidth items n).map (· + 1)
  | .conversion _ _ :: _, 0 => none
  | .conversion _ c :: items, n + 1 => do
      let first ← conversionWidth c
      let rest ← wordsWidth items n
      return first + rest

def formatWidth (fmt : String) (n : ℕ) : Option ℕ :=
  (scan (cString fmt) .top).bind fun items => wordsWidth items n

/-- A line of the kernel's log, its level apart, is not longer than this. -/
def lineBytes : ℕ := 72

/-- With the level in its brackets. -/
def messageBytes : ℕ := 8 + lineBytes

/-- That a page was handed out is not printed. -/
def printed : Event → Bool
  | .klog .. => true
  | .handedOut _ => false

/-- How many of the events are printed. -/
def messages (events : List Event) : ℕ := events.countP printed

/-- The level is no longer than `DEBUG`, and the format takes the words it gets. -/
def EventFits : Event → Prop
  | .klog level fmt args =>
      (∃ tag, cText (cString level) = some tag ∧ tag.length ≤ 5) ∧
        ∃ width, formatWidth fmt args.length = some width ∧ width ≤ lineBytes
  | .handedOut _ => True

section Words
variable {items : List Item} {width : ℕ}

theorem padded_length (fillZeroes : Bool) {width : ℕ} {text : List Byte}
    (h : text.length ≤ width) : (padded fillZeroes width text).length ≤ width := by
  rw [padded, List.length_append]
  cases fillZeroes with
  | false => simpa using h
  | true =>
      rw [if_pos rfl, List.length_replicate]
      omega

theorem word_length {base k : ℕ} (hlow : 2 ≤ base) (hk : 0 < k) (h : 2 ^ 32 ≤ base ^ k)
    (w : BitVec 32) : (canonical base w.toNat).length ≤ k :=
  canonical_length_le hlow hk (Nat.lt_of_lt_of_le w.isLt h)

/-- A conversion of a word takes one word and no more than its width. -/
theorem referenceConversion_word {c : Byte} (h : conversionWidth c = some width)
    (fillZeroes : Bool) (w : BitVec 32) (ap : List Arg) :
    ∃ text, referenceConversion c fillZeroes (.int w :: ap) = some (text, ap) ∧
      text.length ≤ width := by
  have hhex := word_length (show 2 ≤ 16 by decide) (show 0 < 8 by decide) (by decide) w
  have hdecimal := word_length (show 2 ≤ 10 by decide) (show 0 < 10 by decide) (by decide) w
  rw [conversionWidth] at h
  split_ifs at h with hpu hx hc
  · cases h
    obtain rfl | rfl := hpu
    · refine ⟨_, rfl, ?_⟩
      have hpadded := padded_length true hhex
      rw [List.length_cons, List.length_cons]
      omega
    · exact ⟨_, rfl, hdecimal⟩
  · cases h
    subst hx
    exact ⟨_, rfl, padded_length fillZeroes hhex⟩
  · cases h
    subst hc
    exact ⟨_, rfl, Nat.le_refl 1⟩

/-- A format of words has a text, whatever the words are. -/
theorem reference_words {args : List (BitVec 32)} (h : wordsWidth items args.length = some width) :
    ∃ text, reference items (args.map .int) = some text ∧ text.length ≤ width := by
  induction items generalizing args width with
  | nil => exact ⟨[], rfl, Nat.zero_le _⟩
  | cons item items ih =>
      cases item with
      | literal c =>
          rw [wordsWidth] at h
          obtain ⟨rest, hrest, rfl⟩ := Option.map_eq_some_iff.mp h
          obtain ⟨text, htext, hlength⟩ := ih hrest
          refine ⟨c :: text, by rw [reference, htext, Option.map_some], ?_⟩
          rw [List.length_cons]
          omega
      | conversion fillZeroes c =>
          cases args with
          | nil => cases h
          | cons w args =>
              rw [List.length_cons, wordsWidth] at h
              obtain ⟨first, hfirst, h⟩ := Option.bind_eq_some_iff.mp h
              obtain ⟨rest, hrest, h⟩ := Option.bind_eq_some_iff.mp h
              cases h
              obtain ⟨text, htext, hlength⟩ :=
                referenceConversion_word hfirst fillZeroes w (args.map .int)
              obtain ⟨more, hmore, hlength'⟩ := ih hrest
              refine ⟨text ++ more, ?_, ?_⟩
              · rw [List.map_cons, reference, htext]
                simp only [bind, Option.bind_some, hmore, pure]
              · rw [List.length_append]
                omega

end Words

section Print
variable {e : Event} {events : List Event} {out : Output}

/-- The level in brackets. -/
theorem tag_text {level : String} {tag : List Byte} (h : cText (cString level) = some tag) :
    Call.text? ⟨cString "[%s] ", [.str (cString level)]⟩ =
      some (ascii '[' :: (tag ++ [ascii ']', ascii ' '])) := by
  have hscan : scan (cString "[%s] ") .top = some [.literal (ascii '['),
      .conversion false (ascii 's'), .literal (ascii ']'), .literal (ascii ' ')] := by decide
  have hstring : referenceConversion (ascii 's') false [.str (cString level)] =
      some (tag, []) := by
    rw [referenceConversion]
    simp [ascii, takeString, h]
  rw [Call.text?, hscan, Option.bind_some]
  simp only [reference, hstring, bind, Option.bind_some, Option.map_some, pure]

theorem EventFits.calls (h : EventFits e) :
    (∀ c ∈ eventCalls e, c.Fits) ∧ (eventText e).length ≤ 8 + lineBytes := by
  cases e with
  | handedOut page => exact ⟨fun c hc => absurd hc List.not_mem_nil, Nat.zero_le _⟩
  | klog level fmt args =>
      obtain ⟨⟨tag, htag, hshort⟩, width, hformat, hline⟩ := h
      obtain ⟨items, hscan, hwidth⟩ := Option.bind_eq_some_iff.mp hformat
      obtain ⟨text, htext, hlength⟩ := reference_words hwidth
      let first : Call := ⟨cString "[%s] ", [.str (cString level)]⟩
      let second : Call := ⟨cString fmt, args.map .int⟩
      have hfirst : first.text? = some _ := tag_text htag
      have hsecond : second.text? = some text := by
        rw [Call.text?, hscan, Option.bind_some, htext]
      have hcalls : eventCalls (.klog level fmt args) = [first, second] := rfl
      have hfits : ∀ {c : Call} {t : List Byte}, c.text? = some t → t.length ≤ 8 + lineBytes →
          c.Fits := by
        intro c t ht hle
        refine ⟨by rw [ht]; rfl, ?_⟩
        rw [Call.text, ht, Option.getD_some, ioMaxbufsize]
        unfold lineBytes at hle
        omega
      constructor
      · intro c hc
        rw [hcalls, List.mem_cons, List.mem_singleton] at hc
        obtain rfl | rfl := hc
        · refine hfits hfirst ?_
          simp only [List.length_append, List.length_cons, List.length_nil]
          omega
        · exact hfits hsecond (by omega)
      · rw [eventText, hcalls]
        simp only [List.map_cons, List.map_nil, Call.text, hfirst, hsecond, Option.getD_some,
          List.flatten_cons, List.flatten_nil, List.length_append, List.length_cons,
          List.length_nil]
        omega

theorem printEvent_eq (out : Output) (e : Event) :
    printEvent out e = (eventCalls e).foldlM Call.print out := by
  cases e with
  | handedOut page => rfl
  | klog level fmt args => exact klog_eq_print level (cString fmt) (args.map .int) out

theorem printEvents_eq (events : List Event) (out : Output) :
    printEvents events out = (events.flatMap eventCalls).foldlM Call.print out := by
  induction events generalizing out with
  | nil => rfl
  | cons e events ih =>
      rw [printEvents, List.foldlM_cons, List.flatMap_cons, List.foldlM_append, printEvent_eq]
      cases (eventCalls e).foldlM Call.print out with
      | none => rfl
      | some mid => exact ih mid

theorem logText_calls (events : List Event) :
    ((events.flatMap eventCalls).map Call.text).flatten = logText events := by
  induction events with
  | nil => rfl
  | cons e events ih =>
      rw [List.flatMap_cons, List.map_append, List.flatten_append, ih]
      rfl

/-- `text` was printed between the two states. -/
structure Says (out out' : Output) (text : List Byte) : Prop where
  screen : out'.io.console = text.foldl (fun con c => putchar c con) out.io.console
  sent : ∀ com, dataWrites com out'.io.serial.trace = dataWrites com out.io.serial.trace ++
    if out.io.serial.serialDefaultPort ≠ 0 ∧ com = out.io.serial.serialDefaultPort then text
    else []
  port : out'.io.serial.serialDefaultPort = out.io.serial.serialDefaultPort

theorem Says.trans {mid out' : Output} {text more : List Byte} (h : Says out mid text)
    (h' : Says mid out' more) : Says out out' (text ++ more) := by
  refine ⟨?_, fun com => ?_, h'.port.trans h.port⟩
  · rw [h'.screen, h.screen, List.foldl_append]
  · rw [h'.sent, h.sent, h.port, List.append_assoc]
    split_ifs
    · rfl
    · rw [List.append_nil]

theorem Says.refl (out : Output) : Says out out [] := by
  refine ⟨rfl, fun com => ?_, rfl⟩
  rw [ite_self, List.append_nil]

/-- A call that fits prints its text, and the polls that are left do for `more`. -/
theorem print_text {c : Call} {more : ℕ} (hfits : c.Fits)
    (h : out.Responds (c.text.length + more)) :
    ∃ out', c.print out = some out' ∧ Says out out' c.text ∧ out'.Responds more := by
  obtain ⟨digits, stack, hnul, hprint⟩ := kprintf_eq hfits h.nul
  obtain ⟨n, serial, hwrite, hresponds⟩ := serialWrite_returns c.text h.serial
  rw [hwrite, Option.map_some] at hprint
  exact ⟨_, hprint, ⟨rfl, fun com => serialWrite_dataWrites hwrite, serialWrite_port hwrite⟩,
    ⟨hresponds, hnul⟩⟩

theorem print_calls_text {calls : List Call} {more : ℕ} (hfits : ∀ c ∈ calls, c.Fits)
    (h : out.Responds ((calls.map Call.text).flatten.length + more)) :
    ∃ out', calls.foldlM Call.print out = some out' ∧
      Says out out' (calls.map Call.text).flatten ∧ out'.Responds more := by
  induction calls generalizing out with
  | nil => exact ⟨out, rfl, .refl out, h.serial.mono (by omega), h.nul⟩
  | cons c calls ih =>
      rw [List.map_cons, List.flatten_cons] at h ⊢
      rw [List.length_append, Nat.add_assoc] at h
      obtain ⟨mid, hprint, hsays, hresponds⟩ := print_text (hfits c (by simp)) h
      obtain ⟨out', hrun, hsays', hresponds'⟩ := ih (fun c hc => hfits c (by simp [hc])) hresponds
      refine ⟨out', ?_, hsays.trans hsays', hresponds'⟩
      rw [List.foldlM_cons, hprint]
      exact hrun

theorem logText_length (h : ∀ e ∈ events, EventFits e) :
    (logText events).length ≤ messageBytes * messages events := by
  induction events with
  | nil => exact Nat.zero_le _
  | cons e events ih =>
      have hfirst := (h e (by simp)).calls.2
      have hrest := ih fun e he => h e (by simp [he])
      rw [logText, List.map_cons, List.flatten_cons, List.length_append, ← logText, messages,
        List.countP_cons, ← messages, Nat.mul_add]
      cases e with
      | klog level fmt args =>
          rw [messageBytes] at hrest ⊢
          simp only [printed, if_true]
          omega
      | handedOut page => exact Nat.le_trans (Nat.le_of_eq (Nat.zero_add _)) hrest

/-- Messages of words are printed, whatever the words are. -/
theorem printEvents_text {more : ℕ} (hfits : ∀ e ∈ events, EventFits e)
    (h : out.Responds (messageBytes * messages events + more)) :
    ∃ out', printEvents events out = some out' ∧ Says out out' (logText events) ∧
      out'.Responds more := by
  have hlength := logText_length hfits
  have hcalls : ∀ c ∈ events.flatMap eventCalls, c.Fits := by
    intro c hc
    obtain ⟨e, he, hc⟩ := List.mem_flatMap.mp hc
    exact (hfits e he).calls.1 c hc
  rw [printEvents_eq, ← logText_calls]
  refine print_calls_text hcalls ⟨h.serial.mono ?_, h.nul⟩
  rw [logText_calls]
  omega

theorem messages_append (events more : List Event) :
    messages (events ++ more) = messages events + messages more :=
  List.countP_append

theorem messages_reverse (events : List Event) : messages events.reverse = messages events :=
  List.countP_reverse

/-- One message. -/
theorem printEvent_text {more : ℕ} (hfits : EventFits e)
    (h : out.Responds (messageBytes + more)) :
    ∃ out', printEvent out e = some out' ∧ Says out out' (eventText e) ∧ out'.Responds more := by
  have hone : messages [e] ≤ 1 := by
    cases e with
    | klog level fmt args => exact Nat.le_refl 1
    | handedOut page => exact Nat.zero_le 1
  have hbytes := Nat.mul_le_mul_left messageBytes hone
  have hfits' : ∀ e' ∈ [e], EventFits e' := fun e' he => List.mem_singleton.mp he ▸ hfits
  obtain ⟨out', hrun, hsays, hresponds⟩ := @printEvents_text [e] out more hfits'
    ⟨h.serial.mono (by omega), h.nul⟩
  have htext : logText [e] = eventText e := List.append_nil _
  rw [htext] at hsays
  refine ⟨out', ?_, hsays, hresponds⟩
  rw [← hrun, printEvents, List.foldlM_cons]
  cases printEvent out e <;> rfl

end Print
end Yack.BootLog
