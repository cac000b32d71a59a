import Yack.KernelLog

/-!
# What the kernel prints

Every message goes through `kprintf`: `klog` makes two calls of it, `panic` three,
and a failed `kassert` one. A call formats, sends the text to the default port and
puts it on the screen.

A run of messages, between which the default port may change, is the text of its
messages: all of it laid out on the screen, and written to the data port of each
port what was printed while that port was the default. That a transmitter takes
what is written is not part of it.
-/
namespace Yack.KernelOutput
open ByteMemory SerialPort TextFormatter FormatText VgaConsole KernelLog

/-- One call of `kprintf`. -/
structure Call where
  fmt : List Byte
  ap : List Arg
  deriving DecidableEq, Repr

/-- `panic` and a failed `kassert` do not return; nothing is printed after them. -/
inductive Message where
  | kprintf (fmt : List Byte) (ap : List Arg)
  | klog (level : String) (fmt : List Byte) (ap : List Arg)
  | panic (fmt : List Byte) (ap : List Arg)
  | kassert (file : String) (line : BitVec 32) (expr : String)
  deriving DecidableEq, Repr

def Message.calls : Message → List Call
  | .kprintf fmt ap => [⟨fmt, ap⟩]
  | .klog level fmt ap => [⟨cString "[%s] ", [.str (cString level)]⟩, ⟨fmt, ap⟩]
  | .panic fmt ap => [⟨cString "PANIC! ", []⟩, ⟨fmt, ap⟩, ⟨cString "\n", []⟩]
  | .kassert file line expr =>
      [⟨cString "ERROR [%s:%d] Failed assertion: %s\n",
        [.str (cString file), .int line, .str (cString expr)]⟩]

def Call.print (out : Output) (c : Call) : Option Output :=
  (KernelLog.kprintf c.fmt c.ap out).map Prod.snd

def Message.print (out : Output) (message : Message) : Option Output :=
  message.calls.foldlM Call.print out

theorem klog_eq_print (level : String) (fmt : List Byte) (ap : List Arg) (out : Output) :
    KernelLog.klog level fmt ap out = (Message.klog level fmt ap).print out := by
  simp only [KernelLog.klog, Message.print, Message.calls, Call.print, List.foldlM_cons,
    List.foldlM_nil]
  cases KernelLog.kprintf (cString "[%s] ") [.str (cString level)] out with
  | none => rfl
  | some r => cases h : KernelLog.kprintf fmt ap r.2 <;> simp [h]

/-- The second is what `serial_set_default_port` does with a registered port. -/
inductive Action where
  | print (message : Message)
  | setDefaultPort (com : BitVec 16)
  deriving DecidableEq, Repr

def setDefaultPort (com : BitVec 16) (out : Output) : Output :=
  { out with io := { out.io with serial := { out.io.serial with serialDefaultPort := com } } }

def Action.run (out : Output) : Action → Option Output
  | .print message => message.print out
  | .setDefaultPort com => some (KernelOutput.setDefaultPort com out)

def runActions (actions : List Action) (out : Output) : Option Output :=
  actions.foldlM Action.run out

/-- The text of a call, if its arguments match the format. -/
def Call.text? (c : Call) : Option (List Byte) := (scan c.fmt .top).bind (reference · c.ap)

def Call.text (c : Call) : List Byte := c.text?.getD []

def Message.text (message : Message) : List Byte := (message.calls.map Call.text).flatten

/-- Every call has a text, which the buffer on the stack has room for. -/
def Call.Fits (c : Call) : Prop := c.text?.isSome ∧ c.text.length < ioMaxbufsize

instance (c : Call) : Decidable c.Fits := inferInstanceAs (Decidable (_ ∧ _))

def Action.Fits : Action → Prop
  | .print message => ∀ c ∈ message.calls, c.Fits
  | .setDefaultPort _ => True

instance (a : Action) : Decidable a.Fits := by
  cases a with
  | print message => exact inferInstanceAs (Decidable (∀ c ∈ message.calls, c.Fits))
  | setDefaultPort com => exact .isTrue trivial

/-- What has been printed: all of it, and what was written to each port. -/
structure Printed where
  screen : List Byte
  sent : BitVec 16 → List Byte
  port : BitVec 16

def Printed.put (p : Printed) (text : List Byte) : Printed :=
  { p with
    screen := p.screen ++ text
    sent := if p.port = 0 then p.sent else
      Function.update p.sent p.port (p.sent p.port ++ text) }

def Printed.step (p : Printed) : Action → Printed
  | .print message => p.put message.text
  | .setDefaultPort com => { p with port := com }

/-- The polls that have to end for a text. -/
def cost (port : BitVec 16) (text : List Byte) : ℕ := if port = 0 then 0 else text.length

def needed : BitVec 16 → List Action → ℕ
  | _, [] => 0
  | port, .print message :: actions => cost port message.text + needed port actions
  | _, .setDefaultPort com :: actions => needed com actions

/-- The bytes written to the data port of a port, whatever its transmitter does. -/
def dataWrites (com : BitVec 16) (trace : List PortEvent) : List Byte :=
  trace.reverse.filterMap fun
    | .outb port value => if port = x86SerialDataPort com then some value else none
    | .inb _ _ => none

section Writes
variable {com port : BitVec 16} {s s' : Serial}

theorem dataWrites_inb (com port : BitVec 16) (value : Byte) (trace : List PortEvent) :
    dataWrites com (.inb port value :: trace) = dataWrites com trace := by
  simp [dataWrites]

theorem dataWrites_outb (com port : BitVec 16) (value : Byte) (trace : List PortEvent) :
    dataWrites com (.outb (x86SerialDataPort port) value :: trace) =
      dataWrites com trace ++ if com = port then [value] else [] := by
  by_cases h : com = port
  · simp [dataWrites, h]
  · simp [dataWrites, h, x86SerialDataPort, Ne.symm h]

theorem pollLoop_dataWrites {answers answers' : List Byte} {trace trace' : List PortEvent}
    (h : pollLoop port answers trace = some (answers', trace')) :
    dataWrites com trace' = dataWrites com trace := by
  induction answers generalizing trace with
  | nil => cases h
  | cons status answers ih =>
      rw [pollLoop] at h
      split_ifs at h
      · rw [ih h, dataWrites_inb]
      · cases h
        rw [dataWrites_inb]

theorem sendLoop_dataWrites {buffer : List Byte} (h : sendLoop port buffer s = some s') :
    dataWrites com s'.trace = dataWrites com s.trace ++ if com = port then buffer else [] := by
  induction buffer generalizing s with
  | nil =>
      cases h
      simp
  | cons byte buffer ih =>
      rw [sendLoop] at h
      obtain ⟨⟨answers, trace⟩, hpoll, h⟩ := Option.bind_eq_some_iff.mp h
      rw [ih h, dataWrites_outb, pollLoop_dataWrites hpoll, List.append_assoc]
      split_ifs <;> simp

/-- With a default port the whole buffer goes to it, and nothing to any other. -/
theorem serialWrite_dataWrites {buffer : List Byte} {n : ℤ} (h : serialWrite buffer s = some (n, s')) :
    dataWrites com s'.trace = dataWrites com s.trace ++
      if s.serialDefaultPort ≠ 0 ∧ com = s.serialDefaultPort then buffer else [] := by
  rw [serialWrite] at h
  split_ifs at h with hport
  · cases h
    simp [hport]
  · obtain ⟨s₁, hsend, hret⟩ := Option.bind_eq_some_iff.mp h
    cases hret
    exact (sendLoop_dataWrites hsend).trans (by simp only [ne_eq, hport, not_false_eq_true, true_and])

theorem serialWrite_nil (s : Serial) : serialWrite [] s = some (0, s) := by
  rw [serialWrite]
  by_cases hport : s.serialDefaultPort = 0
  · rw [if_pos hport, ← hport]
    rfl
  · rw [if_neg hport]
    rfl

theorem serialWrite_answers {buffer : List Byte}
    (h : cost s.serialDefaultPort buffer ≤ pollsEnded s.answers) :
    ∃ n s', serialWrite buffer s = some (n, s') ∧
      pollsEnded s'.answers + cost s.serialDefaultPort buffer = pollsEnded s.answers := by
  rw [serialWrite]
  by_cases hport : s.serialDefaultPort = 0
  · exact ⟨0, { s with serialDefaultPort := 0 }, by rw [if_pos hport]; rfl,
      by rw [cost, if_pos hport]; rfl⟩
  · rw [cost, if_neg hport] at h ⊢
    obtain ⟨s', hsend, hpolls⟩ := @sendLoop_returns s.serialDefaultPort
      { s with serialDefaultPort := 0 } buffer h
    refine ⟨buffer.length, { s' with serialDefaultPort := s.serialDefaultPort }, ?_, ?_⟩
    · rw [hsend]
      rfl
    · rw [if_neg hport]
      exact hpolls

end Writes

/-- The devices after `p`, for a console that started as `con`. -/
structure Shown (con : Console) (p : Printed) (out : Output) : Prop where
  screen : out.io.console = p.screen.foldl (fun con c => putchar c con) con
  sent : ∀ com, dataWrites com out.io.serial.trace = p.sent com
  port : out.io.serial.serialDefaultPort = p.port
  nul : out.digits.byte 15 = 0

section Runs
variable {con : Console} {p : Printed} {out : Output} {c : Call}

/-- A call that fits sends its text and puts it on the screen. -/
theorem kprintf_eq (hfits : c.Fits) (hnul : out.digits.byte 15 = 0) :
    ∃ digits stack, digits.byte 15 = 0 ∧ c.print out =
      (serialWrite c.text out.io.serial).map fun r =>
        { io := ⟨c.text.foldl (fun con c => putchar c con) out.io.console, r.2⟩, digits
          stack } := by
  obtain ⟨hsome, hlt⟩ := hfits
  obtain ⟨text, htext?⟩ := Option.isSome_iff_exists.mp hsome
  have htext : c.text = text := by rw [Call.text, htext?, Option.getD_some]
  obtain ⟨items, hscan, hreference⟩ := Option.bind_eq_some_iff.mp htext?
  rw [htext] at hlt ⊢
  obtain ⟨st, hrun, hbuf⟩ := kvsnprintf_spells hscan hreference hlt hnul out.stack
  refine ⟨st.digits, st.buf.byte, (kvsnprintf_frame hrun).trans hnul, ?_⟩
  rw [Call.print, KernelLog.kprintf, hrun]
  by_cases hpos : 0 < text.length
  · simp only [bind, Option.bind_some, hpos, if_true, hbuf, write]
    cases serialWrite text out.io.serial <;> rfl
  · have hnil : text = [] := List.length_eq_zero_iff.mp (by omega)
    rw [hnil, serialWrite_nil]
    rfl

/-- Printing a text is printing the texts of its calls one after the other. -/
theorem Printed.put_append (p : Printed) (text more : List Byte) :
    (p.put text).put more = p.put (text ++ more) := by
  simp only [Printed.put, List.append_assoc, Printed.mk.injEq, true_and, and_true]
  split_ifs with hport
  · rfl
  · rw [Function.update_self, Function.update_idem, List.append_assoc]

theorem Printed.put_nil (p : Printed) : p.put [] = p := by
  simp [Printed.put]

theorem cost_append (port : BitVec 16) (text more : List Byte) :
    cost port (text ++ more) = cost port text + cost port more := by
  unfold cost
  split_ifs <;> simp

theorem Shown.print_call (h : Shown con p out) (hfits : c.Fits)
    (hpolls : cost p.port c.text ≤ pollsEnded out.io.serial.answers) :
    ∃ out', c.print out = some out' ∧ Shown con (p.put c.text) out' ∧
      pollsEnded out'.io.serial.answers + cost p.port c.text = pollsEnded out.io.serial.answers := by
  obtain ⟨digits, stack, hnul, hprint⟩ := kprintf_eq hfits h.nul
  rw [← h.port] at hpolls ⊢
  obtain ⟨n, serial, hwrite, hpolls'⟩ := serialWrite_answers hpolls
  rw [hwrite, Option.map_some] at hprint
  refine ⟨_, hprint, ⟨?_, fun com => ?_, ?_, hnul⟩, hpolls'⟩
  · rw [Printed.put, List.foldl_append, ← h.screen]
  · rw [serialWrite_dataWrites hwrite, h.sent, h.port, Printed.put]
    by_cases hport : p.port = 0
    · simp only [hport, ne_eq, not_true_eq_false, false_and, if_false, List.append_nil, if_true]
    · simp only [ne_eq, hport, not_false_eq_true, true_and, if_false, Function.update_apply]
      by_cases hcom : com = p.port
      · rw [if_pos hcom, if_pos hcom, hcom]
      · rw [if_neg hcom, if_neg hcom, List.append_nil]
  · exact (serialWrite_port hwrite).trans h.port

/-- One message, call by call. -/
theorem Shown.print_calls (h : Shown con p out) {calls : List Call} (hfits : ∀ c ∈ calls, c.Fits)
    (hpolls : cost p.port (calls.map Call.text).flatten ≤ pollsEnded out.io.serial.answers) :
    ∃ out', calls.foldlM Call.print out = some out' ∧
      Shown con (p.put (calls.map Call.text).flatten) out' ∧
      pollsEnded out'.io.serial.answers + cost p.port (calls.map Call.text).flatten =
        pollsEnded out.io.serial.answers := by
  induction calls generalizing p out with
  | nil =>
      have hcost : cost p.port [] = 0 := by simp [cost]
      refine ⟨out, rfl, ?_, ?_⟩
      · rw [List.map_nil, List.flatten_nil, Printed.put_nil]
        exact h
      · rw [List.map_nil, List.flatten_nil, hcost, Nat.add_zero]
  | cons c calls ih =>
      rw [List.map_cons, List.flatten_cons, cost_append] at hpolls ⊢
      obtain ⟨mid, hprint, hshown, hpolls'⟩ := h.print_call (hfits c (by simp)) (by omega)
      have hport : (p.put c.text).port = p.port := rfl
      obtain ⟨out', hrun, hshown', hpolls''⟩ :=
        ih hshown (fun c hc => hfits c (by simp [hc])) (by rw [hport]; omega)
      rw [hport] at hpolls''
      rw [Printed.put_append] at hshown'
      refine ⟨out', ?_, hshown', by omega⟩
      rw [List.foldlM_cons, hprint]
      exact hrun

theorem Shown.run (h : Shown con p out) {actions : List Action} (hfits : ∀ a ∈ actions, a.Fits)
    (hpolls : needed p.port actions ≤ pollsEnded out.io.serial.answers) :
    ∃ out', runActions actions out = some out' ∧ Shown con (actions.foldl Printed.step p) out' := by
  induction actions generalizing p out with
  | nil => exact ⟨out, rfl, h⟩
  | cons a actions ih =>
      have hrest : ∀ a ∈ actions, a.Fits := fun a ha => hfits a (by simp [ha])
      rw [runActions, List.foldlM_cons]
      cases a with
      | setDefaultPort com =>
          exact @ih (p.step (.setDefaultPort com)) (KernelOutput.setDefaultPort com out)
            ⟨h.screen, h.sent, rfl, h.nul⟩ hrest hpolls
      | print message =>
          rw [needed] at hpolls
          obtain ⟨mid, hprint, hshown, hpolls'⟩ :=
            h.print_calls (hfits (.print message) (by simp)) (by rw [Message.text] at hpolls; omega)
          obtain ⟨out', hrun, hshown'⟩ := @ih (p.step (.print message)) mid hshown hrest (by
            change needed p.port actions ≤ _
            rw [Message.text] at hpolls
            omega)
          refine ⟨out', ?_, hshown'⟩
          rw [Action.run, Message.print, hprint]
          exact hrun

end Runs

/-- Before any output. -/
def Output.boot (video : Addr → Byte) (crtc : Crtc) (answers : List Byte) (digits : ℤ → Byte)
    (stack : ℕ → Byte) : Output where
  io := .boot video crtc ⟨0, answers, []⟩
  digits := ⟨digits, []⟩
  stack

end Yack.KernelOutput
