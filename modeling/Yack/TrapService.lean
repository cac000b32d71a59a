import Yack.BootLog
import Yack.InterruptService
import Yack.SegmentLoading

/-!
# Traps from the request to the resumed program

One trap as the machine runs it: the controllers deliver, the processor goes
through the gate, the stub saves, `trap_handler` runs, `iret` resumes. Between
two instructions of the interrupted program any number of traps may come, of
devices, of exceptions and of `int`; the gates keep interrupts off while one of
them is handled. The segment registers are loaded on the way, from the table in
memory, and the handler prints, so it returns only if the polls of the serial
port end.

`View` is all that a run of traps changes apart from the screen and the port: the
requests, what the keyboard still gives, two counters and the messages.
-/
namespace Yack.TrapService
open ByteMemory KernelState WordStack TrapEntry InterruptTable InterruptAcknowledge
  InterruptController InterruptService BootLog
open KernelLog (Output)
open SegmentLoading (Register Gdtr kernelSelector kernelSegment kernelIndex)
open SegmentDescriptors (decode gdtEntry)

def ascii (text : String) : List (BitVec 32) := text.toList.map fun c => BitVec.ofNat 32 c.toNat

/-- The keys without a character are 0. -/
def keyboardScanCodes : List (BitVec 32) :=
  [0, 0] ++ ascii "1234567890-=" ++ [8, 9] ++ ascii "QWERTYUIOP[]" ++ [10, 0] ++
    ascii "ASDFGHJKL;'`" ++ [0] ++ ascii "\\ZXCVBNM,./" ++ [0, 0, 0] ++ ascii " " ++
    List.replicate 16 0 ++ ascii "-" ++ [0, 0, 0] ++ ascii "+" ++ List.replicate 177 0

/-- What the handlers reach apart from memory: `keys` are the bytes that the reads
of the keyboard's data port are going to give, and `events` what has been printed
on `out`, newest first. -/
structure World where
  pics : Controllers
  keys : ℕ → Byte
  out : Output
  events : List Event

/-- `none` if a poll of the serial port does not end. -/
def World.klog (w : World) (fmt : String) (args : List (BitVec 32)) : Option World :=
  (printEvent w.out (.klog "TRAP" fmt args)).map fun out =>
    { w with out, events := .klog "TRAP" fmt args :: w.events }

def keyboardHandler (w : World) : Option World :=
  let byte := w.keys 0
  let w := { w with keys := fun n => w.keys (n + 1) }
  let letter := keyboardScanCodes.getD byte.toNat 0
  if letter ≠ 0 then w.klog "Letter: %c\n" [letter] else some w

/-- A callback is called by its address; `trap.c` has one. -/
def callTrapCallback (l : Statics) (callback : Addr) (w : World) : Option World :=
  if callback = 0 then some w
  else if callback = l.keyboardHandler then keyboardHandler w
  else none

def trapHandler (l : Statics) (tf : Trapframe) (m : Memory Addr) (w : World) :
    Option (Memory Addr × World) := do
  let m := m.storeWord l.trapCounter (m.loadWord l.trapCounter + 1)
  let m := m.storeWord l.lastTrapno tf.trapno
  let w ← (if m.loadWord l.lastTrapno ≠ BitVec.ofNat 32 x86Pic1Offset then
      w.klog "trapcounter: 0x%0x    trapno: %x\n" [m.loadWord l.trapCounter, tf.trapno]
    else some w)
  let w ← callTrapCallback l (m.loadWord (l.callback tf.trapno.toNat)) w
  return (m, { w with pics := x86PicEoi (tf.trapno.setWidth 8) w.pics })

/-- The linked kernel: the code at each address, the address `alltraps` returns
to, how many words of stack `trap_handler` uses at most, and the bytes `klog`
writes: the video memory and the objects of the console, of `utoa` and of the
serial driver. -/
structure Image extends Statics where
  code : Addr → List Instr
  returnAddress : Addr
  depth : ℕ
  console : Addr → Prop
  console_apart : ∀ x, console x →
    ¬ toTables.Bytes x ∧ ¬ Within trapCounter 4 x ∧ ¬ Within lastTrapno 4 x

/-- `descriptor` is what the processor keeps behind each selector. -/
structure System where
  cpu : Cpu
  gdtr : Gdtr
  descriptor : Register → Option SegmentDescriptors.Segment
  idtr : Idtr
  world : World

/-- The register that a trap saves and pops. -/
def register : Segment → Register
  | .ds => .ds
  | .es => .es
  | .fs => .fs
  | .gs => .gs

/-- Loading `selector` into `r` succeeds, finds its descriptor marked in the table,
and leaves `copy` behind it, whatever else the processor holds. -/
def Loads (gdtr : Gdtr) (m : Memory Addr) (r : Register) (selector : BitVec 16)
    (copy : Option SegmentDescriptors.Segment) : Prop :=
  ∀ c : SegmentLoading.Cpu, c.gdtr = gdtr → c.mem = m →
    ∃ c', c.load r selector = some c' ∧ c'.mem = m ∧ c'.descriptor r = copy

/-- The words a trap out of `s` may write below the stack pointer. -/
def Image.Stack (img : Image) (s : Cpu) (x : Addr) : Prop := Below s.esp (19 + img.depth) x

def Image.Counters (img : Image) (x : Addr) : Prop :=
  Within img.trapCounter 4 x ∨ Within img.lastTrapno 4 x

/-- Everything that traps out of `s` may write. -/
def Image.Touched (img : Image) (s : Cpu) (x : Addr) : Prop :=
  img.Stack s x ∨ img.console x ∨ img.Counters x

/-- What the machine does from the delivery of `vector` until the interrupted
program goes on. The gate loads the code segment, `alltraps` two of the others,
and the way back what was saved. -/
structure Handles (img : Image) (vector : ℕ) (errorCode : Option (BitVec 32)) (s : System)
    (w : World) (s' : System) : Prop where
  run : ∃ upperCs upper entered called rest mem returned,
    deliverGate s.idtr vector errorCode upperCs s.cpu = some entered ∧
    (∃ copy, Loads s.gdtr s.cpu.mem .cs entered.cs copy) ∧
    runToCall upper img.returnAddress (follow (img.code entered.eip)) entered =
      some (called, rest) ∧
    (∀ seg ∈ [Segment.ds, .es], ∃ copy,
      Loads s.gdtr called.mem (register seg) (called.segment seg) copy) ∧
    trapHandler img.toStatics (readTrapframe called.mem called.argument) called.mem w =
      some (mem, s'.world) ∧
    CdeclReturn called returned ∧
    (∀ x, ¬ img.Stack s.cpu x → ¬ img.console x → returned.mem.byte x = mem.byte x) ∧
    runToIret upper rest returned = some s'.cpu
  data : ∀ seg, Loads s.gdtr s'.cpu.mem (register seg) (s'.cpu.segment seg)
    (s'.descriptor (register seg))
  code : Loads s.gdtr s'.cpu.mem .cs s'.cpu.cs (s'.descriptor .cs)
  stack : s'.descriptor .ss = s.descriptor .ss
  gdtr : s'.gdtr = s.gdtr
  idtr : s'.idtr = s.idtr

/-- Between two instructions of the interrupted program. -/
inductive Happening where
  | raise (irq : ℕ)
  | interrupt
  | exception (vector : ℕ) (error : BitVec 32)
  | int (vector : ℕ)

/-- The error code that the processor pushes for an exception. -/
def exceptionCode (vector : ℕ) (error : BitVec 32) : Option (BitVec 32) :=
  if HasErrorCode vector then some error else none

inductive Step (img : Image) : System → Happening → System → Prop
  | raise (s : System) (irq : ℕ) : Step img s (.raise irq)
      { s with world := { s.world with pics := s.world.pics.raise irq } }
  | masked (s : System)
      (h : s.cpu.eflags.getLsbD 9 = false ∨ s.world.pics.acknowledge = none) :
      Step img s .interrupt s
  | interrupt (s s' : System) (vector : Byte) (pics : Controllers)
      (henabled : s.cpu.eflags.getLsbD 9 = true)
      (hack : s.world.pics.acknowledge = some (vector, pics))
      (h : Handles img vector.toNat none s { s.world with pics } s') : Step img s .interrupt s'
  | exception (s s' : System) (vector : ℕ) (error : BitVec 32)
      (h : Handles img vector (exceptionCode vector error) s s.world s') :
      Step img s (.exception vector error) s'
  | int (s s' : System) (vector : ℕ) (h : Handles img vector none s s.world s') :
      Step img s (.int vector) s'

inductive Run (img : Image) : System → List Happening → System → Prop
  | nil (s : System) : Run img s [] s
  | cons {s s₁ s' : System} {h : Happening} {hs : List Happening} (first : Step img s h s₁)
      (rest : Run img s₁ hs s') : Run img s (h :: hs) s'

structure View where
  lines : Lines
  keys : ℕ → Byte
  counter : BitVec 32
  last : BitVec 32
  events : List Event

def Image.view (img : Image) (m : Memory Addr) (w : World) : View where
  lines := w.pics.lines
  keys := w.keys
  counter := m.loadWord img.trapCounter
  last := m.loadWord img.lastTrapno
  events := w.events

/-- What `keyboard_handler` prints for a byte. -/
def letterReport (byte : Byte) : List Event :=
  let letter := keyboardScanCodes.getD byte.toNat 0
  if letter ≠ 0 then [.klog "TRAP" "Letter: %c\n" [letter]] else []

/-- What `trap_handler` prints; the timer's line is left out. -/
def trapReport (counter trapno : BitVec 32) : List Event :=
  if trapno ≠ BitVec.ofNat 32 x86Pic1Offset then
    [.klog "TRAP" "trapcounter: 0x%0x    trapno: %x\n" [counter, trapno]]
  else []

/-- The messages of a trap, newest first. -/
def View.report (v : View) (vector : ℕ) : List Event :=
  (if vector = 0x21 then letterReport (v.keys 0) else []) ++
    trapReport (v.counter + 1) (BitVec.ofNat 32 vector)

def View.handle (v : View) (vector : ℕ) : View where
  lines := v.lines.eoi vector
  keys := if vector = 0x21 then fun n => v.keys (n + 1) else v.keys
  counter := v.counter + 1
  last := BitVec.ofNat 32 vector
  events := v.report vector ++ v.events

def View.step (enabled : Bool) (v : View) : Happening → View
  | .raise irq => { v with lines := { v.lines with pending := insert irq v.lines.pending } }
  | .interrupt =>
      match v.lines.next with
      | none => v
      | some irq =>
          if enabled then View.handle { v with lines := v.lines.serve irq } (0x20 + irq) else v
  | .exception vector _ => v.handle vector
  | .int vector => v.handle vector

/-- The stubs of the vectors with an error code do not push one themselves, so the
frame of an `int` of such a vector is a word short and the way back pops a word too
many (`Installed.int_pops_more`). -/
def Happening.Legal : Happening → Prop
  | .raise irq => irq < 16 ∧ irq ≠ 2
  | .interrupt => True
  | .exception vector _ => vector < 0x20
  | .int vector => vector < 256 ∧ ¬ HasErrorCode vector

section Printing
variable {w w' : World} {new : List Event} {more : ℕ}

/-- `w'` is `w` after it has printed `new`, with polls left for `more` bytes. -/
structure Reported (w w' : World) (new : List Event) (more : ℕ) : Prop where
  pics : w'.pics = w.pics
  keys : w'.keys = w.keys
  events : w'.events = new ++ w.events
  text : Says w.out w'.out (logText new.reverse)
  responds : w'.out.Responds more

theorem Reported.refl (h : w.out.Responds more) : Reported w w [] more :=
  ⟨rfl, rfl, rfl, .refl w.out, h⟩

theorem World.klog_reported {fmt : String} {args : List (BitVec 32)}
    (hfits : EventFits (.klog "TRAP" fmt args)) (h : w.out.Responds (messageBytes + more)) :
    ∃ w', w.klog fmt args = some w' ∧ Reported w w' [.klog "TRAP" fmt args] more := by
  obtain ⟨out, hrun, hsays, hresponds⟩ := printEvent_text hfits h
  refine ⟨{ w with out, events := .klog "TRAP" fmt args :: w.events }, ?_,
    ⟨rfl, rfl, rfl, ?_, hresponds⟩⟩
  · rw [World.klog, hrun, Option.map_some]
  · have htext : logText [.klog "TRAP" fmt args] = eventText (.klog "TRAP" fmt args) :=
      List.append_nil _
    exact htext ▸ hsays

/-- A message at the level `TRAP`. -/
theorem trap_fits {fmt : String} {args : List (BitVec 32)} {width : ℕ}
    (h : formatWidth fmt args.length = some width) (hle : width ≤ lineBytes) :
    EventFits (.klog "TRAP" fmt args) :=
  ⟨⟨"TRAP".toList.map TextFormatter.ascii, by decide, by decide⟩, width, h, hle⟩

theorem responds_less {k : ℕ} (h : w.out.Responds more) (hle : k ≤ more) : w.out.Responds k :=
  ⟨h.serial.mono hle, h.nul⟩

theorem keyboardHandler_reported (h : w.out.Responds (messageBytes + more)) :
    ∃ w', keyboardHandler w = some w' ∧
      Reported { w with keys := fun n => w.keys (n + 1) } w' (letterReport (w.keys 0)) more := by
  unfold keyboardHandler letterReport
  by_cases hletter : keyboardScanCodes.getD (w.keys 0).toNat 0 ≠ 0
  · simp only [if_pos hletter]
    exact @World.klog_reported { w with keys := fun n => w.keys (n + 1) } more _ _
      (trap_fits rfl (by decide)) h
  · simp only [if_neg hletter]
    exact ⟨_, rfl, .refl (responds_less h (Nat.le_add_left _ _))⟩

/-- The line about the trap. -/
theorem trapReport_reported (counter trapno : BitVec 32)
    (h : w.out.Responds (messageBytes + more)) :
    ∃ w', (if trapno ≠ BitVec.ofNat 32 x86Pic1Offset then
        w.klog "trapcounter: 0x%0x    trapno: %x\n" [counter, trapno] else some w) = some w' ∧
      Reported w w' (trapReport counter trapno) more := by
  unfold trapReport
  by_cases htimer : trapno ≠ BitVec.ofNat 32 x86Pic1Offset
  · rw [if_pos htimer, if_pos htimer]
    exact World.klog_reported (trap_fits rfl (by decide)) h
  · rw [if_neg htimer, if_neg htimer]
    exact ⟨w, rfl, .refl (responds_less h (Nat.le_add_left _ _))⟩

/-- What a trap prints at most. -/
def trapBytes : ℕ := 2 * messageBytes

/-- The messages of a run of traps are out. -/
def World.Logged (w w' : World) : Prop :=
  ∃ new, w'.events = new ++ w.events ∧ Says w.out w'.out (logText new.reverse)

theorem World.Logged.refl (w : World) : w.Logged w := ⟨[], rfl, .refl w.out⟩

theorem World.Logged.trans {w₁ : World} (h : w.Logged w₁) (h' : w₁.Logged w') : w.Logged w' := by
  obtain ⟨new, hevents, hsays⟩ := h
  obtain ⟨later, hevents', hsays'⟩ := h'
  refine ⟨later ++ new, by rw [hevents', hevents, List.append_assoc], ?_⟩
  rw [List.reverse_append, logText, List.map_append, List.flatten_append]
  exact hsays.trans hsays'

end Printing

section Entry
variable {upper : Segment → BitVec 16} {returnAddress : BitVec 32} {s : Cpu}

theorem pushes_eip (eip : BitVec 32) (ws : List (BitVec 32)) :
    ({ s with eip } : Cpu).pushes ws = { s.pushes ws with eip } := by
  induction ws generalizing s with
  | nil => rfl
  | cons w ws ih => exact @ih (s.push w)

/-- Nothing that is run depends on the instruction pointer. -/
theorem runToCall_eip (eip : BitVec 32) (is : List Instr) :
    runToCall upper returnAddress is { s with eip } =
      (runToCall upper returnAddress is s).map fun r => ({ r.1 with eip }, r.2) := by
  induction is generalizing s with
  | nil => rfl
  | cons i is ih =>
      have hexec : i ≠ .callTrapHandler → ({ s with eip } : Cpu).exec upper i =
          (s.exec upper i).map fun s' => { s' with eip } := by
        intro _
        cases i with
        | pushal => exact congrArg some (pushes_eip eip _)
        | _ => rfl
      by_cases hcall : i = .callTrapHandler
      · subst hcall
        rfl
      · have hrun : ∀ s : Cpu, runToCall upper returnAddress (i :: is) s =
            (s.exec upper i).bind (runToCall upper returnAddress is) := by
          intro s
          cases i <;> first | rfl | exact absurd rfl hcall
        rw [hrun, hrun, hexec hcall]
        cases s.exec upper i with
        | none => rfl
        | some s' => exact @ih s'

/-- With the frame in place, what is left of the path puts every register back. -/
theorem resumes {vector : ℕ} {error : BitVec 32}
    {upperCs : BitVec 16} {sc s₁ : Cpu}
    (h : Entered (frameWords vector error upperCs upper s) returnAddress s sc)
    (hret : CdeclReturn sc s₁) :
    runToIret upper (.addlEsp 4 :: trapret) s₁ = some { s with mem := s₁.mem } := by
  obtain ⟨hesp, hwords⟩ := h.returned rfl hret
  have hrun := @trapret_pops upper { s₁ with esp := s₁.esp + 4 } s.esp _ hesp hwords
  rw [runToIret_addlEsp, hrun]
  apply congrArg some
  ext1
  case segment =>
    funext seg
    cases seg <;> exact setWidth_append_half _ _
  case cs => exact setWidth_append_half _ _
  all_goals rfl

end Entry

section Segments
variable {img : Image} {s : System} {m : Memory Addr}

/-- The registers of the interrupted program are on the kernel's segments, which
the table in memory still has and no trap touches. -/
structure KernelSegments (img : Image) (s : System) : Prop where
  limit : s.gdtr.limit = 47
  code : decode s.cpu.mem (gdtEntry s.gdtr.base SegmentDescriptors.x86GdtSegCodek) =
    SegmentLoading.flatSegment 0x9B
  data : decode s.cpu.mem (gdtEntry s.gdtr.base SegmentDescriptors.x86GdtSegDatak) =
    SegmentLoading.flatSegment 0x93
  cs : s.cpu.cs = kernelSelector .cs
  segment : ∀ seg, s.cpu.segment seg = kernelSelector (register seg)
  descriptor : ∀ r, s.descriptor r = some (kernelSegment r)
  apart : ∀ x, img.Touched s.cpu x → ¬ Within s.gdtr.base 48 x

/-- Traps leave the entries of the table. -/
theorem KernelSegments.entry (h : KernelSegments img s)
    (hm : ∀ x, ¬ img.Touched s.cpu x → m.byte x = s.cpu.mem.byte x) {i : Addr} (hi : i.toNat < 6) :
    decode m (gdtEntry s.gdtr.base i) = decode s.cpu.mem (gdtEntry s.gdtr.base i) :=
  SegmentDescriptors.decode_congr fun x hx => hm x fun htouched =>
    h.apart x htouched (SegmentLoading.within_gdt hi hx)

/-- Where only traps have written, the kernel's segments can be loaded. -/
theorem KernelSegments.loads (h : KernelSegments img s)
    (hm : ∀ x, ¬ img.Touched s.cpu x → m.byte x = s.cpu.mem.byte x) (r : Register) :
    Loads s.gdtr m r (kernelSelector r) (some (kernelSegment r)) := by
  intro c hgdtr hmem
  subst hmem
  have hcode := (h.entry hm (by decide)).trans h.code
  have hdata := (h.entry hm (by decide)).trans h.data
  have htable : c.gdtr = ⟨47, s.gdtr.base⟩ := by rw [hgdtr, ← h.limit]
  have hready : c.TableReady s.gdtr.base :=
    ⟨htable, congrArg SegmentLoading.accessed hcode, congrArg SegmentLoading.accessed hdata⟩
  have hset : (decode c.mem (gdtEntry s.gdtr.base (kernelIndex r))).access.getLsbD 0 = true := by
    cases r with
    | cs => exact congrArg (fun seg => seg.access.getLsbD 0) hcode
    | ss | ds | es | fs | gs => exact congrArg (fun seg => seg.access.getLsbD 0) hdata
  exact ⟨_, hready.load_accessed r hset, rfl, Function.update_self _ _ _⟩

theorem Loads.unique {gdtr : Gdtr} {r : Register} {selector : BitVec 16}
    {a b : Option SegmentDescriptors.Segment} (ha : Loads gdtr m r selector a)
    (hb : Loads gdtr m r selector b) : a = b := by
  let c : SegmentLoading.Cpu :=
    { eax := 0, edx := 0, esp := 0, eip := 0, selector := fun _ => 0, descriptor := fun _ => none
      gdtr, mem := m }
  obtain ⟨c₁, hrun, -, hdescriptor⟩ := ha c rfl rfl
  obtain ⟨c₂, hrun', -, hdescriptor'⟩ := hb c rfl rfl
  obtain rfl : c₁ = c₂ := Option.some.inj (hrun.symm.trans hrun')
  exact hdescriptor.symm.trans hdescriptor'

end Segments

section OneTrap
variable {img : Image} {s s' : System} {w : World} {vector more : ℕ}
  {errorCode : Option (BitVec 32)}

/-- The kernel as `trap_init` and `segments_init` leave it, with a stack apart from
its tables. -/
structure Installed (img : Image) (s : System) : Prop where
  idtr : s.idtr = { limit := 0x7FF, base := img.trapTable }
  gate : ∀ i < 256, ∃ label, decodeGate s.cpu.mem (img.gate i) =
    { offset := label, selector := 0x8, present := true, dpl := 0, kind := 0xE } ∧
      img.code label = stub (trapHandlerArray.getD i 0)
  callback : ∀ i < 256, s.cpu.mem.loadWord (img.callback i) =
    if i = 0x21 then img.keyboardHandler else 0
  ready : s.world.pics.Ready
  idle : s.world.pics.lines.inService = { master := ∅, slave := ∅ }
  stack : ∀ x, img.Stack s.cpu x → ¬ img.toTables.Bytes x ∧ ¬ img.Counters x
  segments : KernelSegments img s

/-- An error code is pushed exactly where the stub leaves the place for one. -/
def FrameFits (vector : ℕ) (errorCode : Option (BitVec 32)) : Prop :=
  errorCode.isSome = true ↔ HasErrorCode vector

theorem frameFits_exception (vector : ℕ) (error : BitVec 32) :
    FrameFits vector (exceptionCode vector error) := by
  unfold FrameFits exceptionCode
  split_ifs with h
  · exact iff_of_true rfl h
  · exact iff_of_false Bool.false_ne_true h

theorem frameFits_none (h : ¬ HasErrorCode vector) : FrameFits vector none :=
  iff_of_false Bool.false_ne_true h

theorem FrameFits.toList (h : FrameFits vector errorCode) :
    errorCode.toList = if HasErrorCode vector then [errorCode.getD 0] else [] := by
  cases errorCode with
  | none => rw [if_neg fun hv => Bool.false_ne_true (h.mpr hv), Option.toList_none]
  | some error => rw [if_pos (h.mp rfl), Option.toList_some, Option.getD_some]

/-- The gate of a vector leads to its stub. -/
theorem Installed.fetchGate (h : Installed img s) (hv : vector < 256) :
    ∃ label, img.code label = stub (trapHandlerArray.getD vector 0) ∧
      fetchGate s.idtr s.cpu.mem vector = some
        { offset := label, selector := 0x8, present := true, dpl := 0, kind := 0xE } := by
  obtain ⟨label, hgate, hcode⟩ := h.gate vector hv
  refine ⟨label, hcode, ?_⟩
  rw [h.idtr, ← hgate]
  refine if_pos ?_
  change 8 * vector + 7 ≤ 2047
  omega

/-- Delivery is that of the stub's path, with the jump made. -/
theorem Installed.deliverGate (h : Installed img s) (hv : vector < 256)
    (hfits : FrameFits vector errorCode) (upperCs : BitVec 16) :
    ∃ label, img.code label = stub (trapHandlerArray.getD vector 0) ∧
      deliverGate s.idtr vector errorCode upperCs s.cpu =
        some { TrapEntry.deliver vector (errorCode.getD 0) upperCs s.cpu with eip := label } := by
  obtain ⟨label, hcode, hfetch⟩ := h.fetchGate hv
  refine ⟨label, hcode, ?_⟩
  simp only [InterruptService.deliverGate, hfetch, hfits.toList, TrapEntry.deliver, pushes_eq,
    and_self, if_true]

/-- The stub and `alltraps` reach `trap_handler` with the frame below the stack
pointer, nothing else written, and the segments of the kernel. -/
theorem Installed.enters (h : Installed img s) (hv : vector < 256)
    (hfits : FrameFits vector errorCode) (upperCs : BitVec 16)
    (upper : Segment → BitVec 16) : ∃ entered called,
      InterruptService.deliverGate s.idtr vector errorCode upperCs s.cpu = some entered ∧
      runToCall upper img.returnAddress (follow (img.code entered.eip)) entered =
        some (called, .addlEsp 4 :: trapret) ∧
      Entered (frameWords vector (errorCode.getD 0) upperCs upper s.cpu) img.returnAddress s.cpu
        called ∧
      entered.cs = kernelSelector .cs ∧
      ∀ seg ∈ [Segment.ds, .es], called.segment seg = kernelSelector (register seg) := by
  obtain ⟨label, hcode, hdeliver⟩ := h.deliverGate hv hfits upperCs
  obtain ⟨sc, hcall, hentered⟩ :=
    entered_trapPath vector (errorCode.getD 0) upperCs upper img.returnAddress s.cpu hv
  have hsegments := called_segments hv hcall
  refine ⟨_, { sc with eip := label }, hdeliver, ?_, ⟨hentered.esp, hentered.mem⟩, rfl, ?_⟩
  · change runToCall upper img.returnAddress (follow (img.code label)) _ = _
    rw [hcode, ← trapPath, runToCall_eip, hcall]
    rfl
  · intro seg hseg
    refine (hsegments seg hseg).trans ?_
    cases seg <;> rfl

/-- The memory `trap_handler` leaves. -/
def Image.counted (img : Image) (vector : ℕ) (m : Memory Addr) : Memory Addr :=
  (m.storeWord img.trapCounter (m.loadWord img.trapCounter + 1)).storeWord img.lastTrapno
    (BitVec.ofNat 32 vector)

theorem Image.counted_frame (img : Image) (vector : ℕ) (m : Memory Addr) :
    m.Frame (img.counted vector m) img.Counters :=
  ((m.frame_storeWord _ _).mono fun _ hx => .inl hx).trans
    ((Memory.frame_storeWord _ _ _).mono fun _ hx => .inr hx)

/-- The two counters are words of their own. -/
theorem counter_words (l : Statics) (count trapno : BitVec 32) (m : Memory Addr) :
    let m' := (m.storeWord l.trapCounter count).storeWord l.lastTrapno trapno
    m'.loadWord l.trapCounter = count ∧ m'.loadWord l.lastTrapno = trapno := by
  refine ⟨?_, Memory.loadWord_storeWord _ _ _⟩
  rw [(Memory.frame_storeWord _ _ _).loadWord fun x hx hl => (l.last_apart x hl).2 hx,
    Memory.loadWord_storeWord]

theorem Image.counted_words (img : Image) (vector : ℕ) (m : Memory Addr) :
    (img.counted vector m).loadWord img.trapCounter = m.loadWord img.trapCounter + 1 ∧
      (img.counted vector m).loadWord img.lastTrapno = BitVec.ofNat 32 vector :=
  counter_words img.toStatics _ _ m

theorem Image.counters_apart (img : Image) {x : Addr} (h : img.Counters x) :
    ¬ img.toTables.Bytes x :=
  h.elim (img.counter_apart x) fun hl => (img.last_apart x hl).1

/-- The callback of the keyboard's vector reads a byte, and no other vector has
one. -/
theorem callTrapCallback_reported {callback : Addr}
    (hcallback : callback = if vector = 0x21 then img.keyboardHandler else 0)
    (h : w.out.Responds (messageBytes + more)) :
    ∃ w', callTrapCallback img.toStatics callback w = some w' ∧
      Reported { w with keys := if vector = 0x21 then fun n => w.keys (n + 1) else w.keys } w'
        (if vector = 0x21 then letterReport (w.keys 0) else []) more := by
  unfold callTrapCallback
  by_cases hkey : vector = 0x21
  · simp only [if_pos hkey] at hcallback ⊢
    rw [hcallback, if_neg img.keyboard_nonnull, if_pos rfl]
    exact keyboardHandler_reported h
  · simp only [if_neg hkey] at hcallback ⊢
    rw [hcallback, if_pos rfl]
    exact ⟨w, rfl, .refl (responds_less h (Nat.le_add_left _ _))⟩

/-- `trap_handler` counts the trap, reads the keyboard for the keyboard's vector
alone, prints, and sends the EOIs. -/
theorem trapHandler_eq {m : Memory Addr} {tf : Trapframe} (hv : vector < 256)
    (htrapno : tf.trapno = BitVec.ofNat 32 vector)
    (hcallback : m.loadWord (img.callback vector) =
      if vector = 0x21 then img.keyboardHandler else 0)
    (h : w.out.Responds (trapBytes + more)) :
    ∃ w', trapHandler img.toStatics tf m w = some (img.counted vector m, w') ∧
      img.view (img.counted vector m) w' = (img.view m w).handle vector ∧
      w'.pics = x86PicEoi (BitVec.ofNat 8 vector) w.pics ∧ w.Logged w' ∧
      w'.out.Responds more := by
  obtain ⟨hcounter, hlast⟩ := img.counted_words vector m
  have hnumber : (BitVec.ofNat 32 vector).toNat = vector := by
    rw [BitVec.toNat_ofNat]
    omega
  have hbyte : (BitVec.ofNat 32 vector).setWidth 8 = BitVec.ofNat 8 vector :=
    BitVec.setWidth_ofNat_of_le (by decide) vector
  have hlines := x86PicEoi_lines (BitVec.ofNat 8 vector) w.pics
  rw [BitVec.toNat_ofNat, Nat.mod_eq_of_lt hv] at hlines
  have hcalled : (img.counted vector m).loadWord (img.callback vector) =
      if vector = 0x21 then img.keyboardHandler else 0 := by
    rw [(img.counted_frame vector m).loadWord fun x hx hc =>
      img.counters_apart hc (.inr (within_callback hv hx)), hcallback]
  have hbytes : trapBytes + more = messageBytes + (messageBytes + more) := by
    rw [trapBytes]
    omega
  obtain ⟨w₁, hrun₁, hreported₁⟩ := @trapReport_reported w (messageBytes + more)
    (m.loadWord img.trapCounter + 1) (BitVec.ofNat 32 vector) (hbytes ▸ h)
  obtain ⟨w₂, hrun₂, hreported₂⟩ := callTrapCallback_reported hcalled hreported₁.responds
  refine ⟨{ w₂ with pics := x86PicEoi (BitVec.ofNat 8 vector) w₂.pics }, ?_, ?_, ?_, ?_,
    hreported₂.responds⟩
  · unfold trapHandler
    simp only [htrapno, hnumber, hbyte]
    rw [← Image.counted, hcounter, hlast, hrun₁]
    simp only [bind, Option.bind_some, hrun₂]
    rfl
  · have hpics : w₂.pics = w.pics := hreported₂.pics.trans hreported₁.pics
    simp only [Image.view, View.handle, View.report, hcounter, hlast, hpics, hlines,
      hreported₂.keys, hreported₂.events, hreported₁.keys, hreported₁.events, List.append_assoc]
  · exact congrArg (x86PicEoi _) (hreported₂.pics.trans hreported₁.pics)
  · exact World.Logged.trans ⟨_, hreported₁.events, hreported₁.text⟩
      ⟨_, hreported₂.events, hreported₂.text⟩

/-- What `klog(TRAP, ...)` was called with in `trap_handler`, not in a callback. -/
def trapLine : Event → Option (BitVec 32 × BitVec 32)
  | .klog _ fmt [counter, trapno] =>
      if fmt = "trapcounter: 0x%0x    trapno: %x\n" then some (counter, trapno) else none
  | _ => none

/-- What the statements of `trap_handler` work on. -/
def statements (l : Statics) (m : Memory Addr) (w : World) : InterruptAcknowledge.Machine where
  pics := w.pics.lines.inService
  trapCounter := m.loadWord l.trapCounter
  lastTrapno := m.loadWord l.lastTrapno
  log := w.events.filterMap trapLine

theorem World.klog_some {w' : World} {fmt : String} {args : List (BitVec 32)}
    (h : w.klog fmt args = some w') :
    w'.pics = w.pics ∧ w'.events = .klog "TRAP" fmt args :: w.events := by
  obtain ⟨out, -, rfl⟩ := Option.map_eq_some_iff.mp h
  exact ⟨rfl, rfl⟩

/-- A callback neither acknowledges an interrupt nor reports the trap. -/
theorem callTrapCallback_keeps {l : Statics} {callback : Addr} {w' : World}
    (h : callTrapCallback l callback w = some w') :
    w'.pics = w.pics ∧ w'.events.filterMap trapLine = w.events.filterMap trapLine := by
  rw [callTrapCallback] at h
  split_ifs at h with hnull hkeyboard
  · cases h
    exact ⟨rfl, rfl⟩
  · rw [keyboardHandler] at h
    split_ifs at h with hletter
    · obtain ⟨hpics, hevents⟩ := World.klog_some h
      exact ⟨hpics, by rw [hevents]; rfl⟩
    · cases h
      exact ⟨rfl, rfl⟩

/-- `trap_handler` in one go is its statements, one after the other, with whatever
handlers it has interrupted below it. -/
theorem trapHandler_statements {l : Statics} {m m' : Memory Addr} {tf : Trapframe} {w' : World}
    (h : trapHandler l tf m w = some (m', w')) (trap : Trap) (entry : Pics)
    (frames : List InterruptAcknowledge.Frame) :
    traps.run (statements l m w,
        { trap, entry, trapno := tf.trapno, point := .count } :: frames)
      (List.replicate 7 (.advance ())) = some (statements l m' w', frames) := by
  obtain ⟨w₁, hreport, h⟩ := Option.bind_eq_some_iff.mp h
  obtain ⟨w₂, hcallback, h⟩ := Option.bind_eq_some_iff.mp h
  cases h
  obtain ⟨hpics, hlog⟩ := callTrapCallback_keeps hcallback
  obtain ⟨hcounter, hlast⟩ := counter_words l (m.loadWord l.trapCounter + 1) tf.trapno m
  generalize (m.storeWord l.trapCounter (m.loadWord l.trapCounter + 1)).storeWord
    l.lastTrapno tf.trapno = m₂ at *
  have hreported : w₁.pics = w.pics ∧ w₁.events.filterMap trapLine =
      if tf.trapno ≠ BitVec.ofNat 32 x86Pic1Offset then
        (m.loadWord l.trapCounter + 1, tf.trapno) :: w.events.filterMap trapLine
      else w.events.filterMap trapLine := by
    rw [hlast, hcounter] at hreport
    split_ifs at hreport ⊢ with htimer
    · obtain ⟨hsame, hevents⟩ := World.klog_some hreport
      exact ⟨hsame, by rw [hevents]; rfl⟩
    · cases hreport
      exact ⟨rfl, rfl⟩
  have hend : (x86PicEoi (tf.trapno.setWidth 8) w₂.pics).lines.inService =
      (w.pics.lines.eoi (eoiArgument tf.trapno)).inService := by
    rw [x86PicEoi_lines, hpics, hreported.1, eoiArgument]
  have hrun := trapHandler_run (statements l m w) trap entry tf.trapno frames
  have hreturn : traps.advance ((statements l m w).handled tf.trapno)
      { trap, entry, trapno := tf.trapno, point := .returning } () =
        some ((statements l m w).handled tf.trapno, none) := rfl
  have hstatements := traps.run_trans hrun (traps.run_leave frames hreturn [])
  refine hstatements.trans (congrArg (fun s => some (s, frames)) ?_)
  simp only [Machine.handled, statements, hcounter, hlast, hlog, hreported.2, hend, Lines.eoi]

/-- What the interrupted program sees of the way from `s` to `s'`. -/
structure Resumes (img : Image) (s s' : System) : Prop where
  registers : s'.cpu = { s.cpu with mem := s'.cpu.mem }
  descriptor : s'.descriptor = s.descriptor
  gdtr : s'.gdtr = s.gdtr
  mem : ∀ x, ¬ img.Touched s.cpu x → s'.cpu.mem.byte x = s.cpu.mem.byte x

theorem Resumes.refl (img : Image) (s : System) : Resumes img s s :=
  ⟨rfl, rfl, rfl, fun _ _ => rfl⟩

theorem Resumes.trans {s₁ : System} (h : Resumes img s s₁) (h' : Resumes img s₁ s') :
    Resumes img s s' := by
  have hregisters : s'.cpu = { s.cpu with mem := s'.cpu.mem } := by
    rw [h'.registers, h.registers]
  refine ⟨hregisters, h'.descriptor.trans h.descriptor, h'.gdtr.trans h.gdtr,
    fun x hx => (h'.mem x ?_).trans (h.mem x hx)⟩
  rw [h.registers]
  exact hx

theorem below_mono {sp x : Addr} {n k : ℕ} (hle : n ≤ k) (h : Below sp n x) :
    Below sp k x := by
  unfold Below Within at *
  bv_omega

theorem Image.view_congr {m m' : Memory Addr}
    (h : ∀ x, img.Counters x → m'.byte x = m.byte x) : img.view m' w = img.view m w := by
  have hcounter : m'.loadWord img.trapCounter = m.loadWord img.trapCounter :=
    Memory.loadWord_congr fun x hx => h x (.inl hx)
  have hlast : m'.loadWord img.lastTrapno = m.loadWord img.lastTrapno :=
    Memory.loadWord_congr fun x hx => h x (.inr hx)
  rw [Image.view, Image.view, hcounter, hlast]

theorem Installed.untouched (h : Installed img s) {x : Addr} (hx : img.toTables.Bytes x) :
    ¬ img.Touched s.cpu x := by
  rintro (hstack | hconsole | hcounter)
  · exact (h.stack x hstack).1 hx
  · exact (img.console_apart x hconsole).1 hx
  · exact img.counters_apart hcounter hx

/-- The segments need nothing that traps write. -/
theorem KernelSegments.keep (h : KernelSegments img s) (hresumes : Resumes img s s') :
    KernelSegments img s' := by
  have hcpu := hresumes.registers
  refine ⟨by rw [hresumes.gdtr, h.limit], ?_, ?_, ?_, ?_, ?_, ?_⟩
  · rw [hresumes.gdtr]
    exact (h.entry hresumes.mem (by decide)).trans h.code
  · rw [hresumes.gdtr]
    exact (h.entry hresumes.mem (by decide)).trans h.data
  · rw [hcpu]
    exact h.cs
  · rw [hcpu]
    exact h.segment
  · rw [hresumes.descriptor]
    exact h.descriptor
  · rw [hcpu, hresumes.gdtr]
    exact h.apart

/-- The installation needs nothing that traps write. -/
theorem Installed.keep (h : Installed img s) (hidtr : s'.idtr = s.idtr)
    (hresumes : Resumes img s s') (hready : s'.world.pics.Ready)
    (hidle : s'.world.pics.lines.inService = { master := ∅, slave := ∅ }) :
    Installed img s' := by
  have htables : ∀ x, img.toTables.Bytes x → s'.cpu.mem.byte x = s.cpu.mem.byte x :=
    fun x hx => hresumes.mem x (h.untouched hx)
  refine ⟨hidtr.trans h.idtr, fun i hi => ?_, fun i hi => ?_, hready, hidle, ?_,
    h.segments.keep hresumes⟩
  · rw [decodeGate_congr fun x hx => htables x (.inl (within_gate hi hx))]
    exact h.gate i hi
  · rw [Memory.loadWord_congr fun x hx => htables x (.inr (within_callback hi hx))]
    exact h.callback i hi
  · rw [hresumes.registers]
    exact h.stack

/-- `trap_handler` is entered with only the stack written. -/
theorem Image.entered_frame {words : List (BitVec 32)} {called : Cpu} {c : Cpu}
    (h : Entered words img.returnAddress c called) (hlen : words.length = 17) {x : Addr}
    (hx : ¬ img.Stack c x) : called.mem.byte x = c.mem.byte x := by
  have hlength : (words ++ [slot c.esp 17, img.returnAddress]).length = 19 := by simp [hlen]
  have hframe := pushWords_frame c.mem c.esp (words ++ [slot c.esp 17, img.returnAddress])
    (by rw [hlength]; decide)
  rw [h.mem]
  refine hframe.1 x fun hbelow => hx ?_
  rw [hlength] at hbelow
  exact below_mono (Nat.le_add_right 19 img.depth) hbelow

/-- The loads on the way back find the descriptors that the program had. -/
theorem KernelSegments.reloaded (h : KernelSegments img s) (hh : Handles img vector errorCode s w s')
    (hregisters : s'.cpu = { s.cpu with mem := s'.cpu.mem })
    (hkeeps : ∀ x, ¬ img.Touched s.cpu x → s'.cpu.mem.byte x = s.cpu.mem.byte x) :
    s'.descriptor = s.descriptor := by
  have hloads := h.loads hkeeps
  have hdata : ∀ seg, s'.descriptor (register seg) = s.descriptor (register seg) := by
    intro seg
    have hsaved : s'.cpu.segment seg = kernelSelector (register seg) := by
      rw [hregisters]
      exact h.segment seg
    rw [h.descriptor]
    exact (hsaved ▸ hh.data seg).unique (hloads (register seg))
  have hcode : s'.descriptor .cs = s.descriptor .cs := by
    have hsaved : s'.cpu.cs = kernelSelector .cs := by
      rw [hregisters]
      exact h.cs
    rw [h.descriptor]
    exact (hsaved ▸ hh.code).unique (hloads .cs)
  funext r
  cases r with
  | cs => exact hcode
  | ss => exact hh.stack
  | ds => exact hdata .ds
  | es => exact hdata .es
  | fs => exact hdata .fs
  | gs => exact hdata .gs

theorem Installed.callback_kept (h : Installed img s) (hv : vector < 256) {m : Memory Addr}
    (hm : ∀ x, ¬ img.Stack s.cpu x → m.byte x = s.cpu.mem.byte x) :
    m.loadWord (img.callback vector) = if vector = 0x21 then img.keyboardHandler else 0 := by
  rw [← h.callback vector hv]
  exact Memory.loadWord_congr fun x hx =>
    hm x fun hstack => (h.stack x hstack).1 (.inr (within_callback hv hx))

/-- What any trap leaves, whatever the compiled handler does on the stack. -/
theorem Installed.handled (h : Installed img s) (hv : vector < 256)
    (hfits : FrameFits vector errorCode) (hpolls : w.out.Responds (trapBytes + more))
    (hh : Handles img vector errorCode s w s') :
    Resumes img s s' ∧ img.view s'.cpu.mem s'.world = (img.view s.cpu.mem w).handle vector ∧
      s'.world.pics = x86PicEoi (BitVec.ofNat 8 vector) w.pics ∧ w.Logged s'.world ∧
      s'.world.out.Responds more := by
  obtain ⟨upperCs, upper, entered, called, rest, mem, returned, hdeliver, -, hcall, -, hhandler,
    hret, hoff, hiret⟩ := hh.run
  obtain ⟨entered', called', hdeliver', hcall', hentered, -⟩ := h.enters hv hfits upperCs upper
  obtain rfl : entered = entered' := Option.some.inj (hdeliver.symm.trans hdeliver')
  obtain ⟨rfl, rfl⟩ : called = called' ∧ rest = .addlEsp 4 :: trapret :=
    Prod.mk.inj (Option.some.inj (hcall.symm.trans hcall'))
  have hpushed : ∀ x, ¬ img.Stack s.cpu x → called.mem.byte x = s.cpu.mem.byte x :=
    fun x hx => img.entered_frame hentered rfl hx
  have hcounters : ∀ x, img.Counters x → ¬ img.Stack s.cpu x :=
    fun x hx hstack => (h.stack x hstack).2 hx
  obtain ⟨world, hworld, hview, hpics, hlogged, hresponds⟩ :=
    trapHandler_eq hv hentered.saves.trapno (h.callback_kept hv hpushed) hpolls
  obtain ⟨rfl, rfl⟩ := Prod.mk.inj (Option.some.inj (hhandler.symm.trans hworld))
  have hcpu := Option.some.inj (hiret.symm.trans (resumes hentered hret))
  have hmem : s'.cpu.mem = returned.mem := by rw [hcpu]
  have hregisters : s'.cpu = { s.cpu with mem := s'.cpu.mem } := by
    rw [hmem]
    exact hcpu
  have hkeeps : ∀ x, ¬ img.Touched s.cpu x → s'.cpu.mem.byte x = s.cpu.mem.byte x := by
    intro x hx
    rw [hmem, hoff x (fun hs => hx (.inl hs)) (fun hc => hx (.inr (.inl hc))),
      (img.counted_frame vector _).1 x fun hc => hx (.inr (.inr hc)),
      hpushed x fun hs => hx (.inl hs)]
  have hdescriptor := h.segments.reloaded hh hregisters hkeeps
  refine ⟨⟨hregisters, hdescriptor, hh.gdtr, hkeeps⟩, ?_, hpics, hlogged, hresponds⟩
  have hkept : ∀ x, img.Counters x →
      returned.mem.byte x = (img.counted vector called.mem).byte x := fun x hx =>
    hoff x (hcounters x hx) fun hc => hx.elim (img.console_apart x hc).2.1
      (img.console_apart x hc).2.2
  rw [hmem, Image.view_congr hkept, hview,
    Image.view_congr fun x hx => hpushed x (hcounters x hx)]

/-- A trap can be handled to its end. -/
theorem Installed.handles (h : Installed img s) (hv : vector < 256)
    (hfits : FrameFits vector errorCode) (hpolls : w.out.Responds (trapBytes + more)) :
    ∃ s', Handles img vector errorCode s w s' := by
  obtain ⟨entered, called, hdeliver, hcall, hentered, hcs, hsegments⟩ :=
    h.enters hv hfits 0 fun _ => 0
  have hpushed : ∀ x, ¬ img.Stack s.cpu x → called.mem.byte x = s.cpu.mem.byte x :=
    fun x hx => img.entered_frame hentered rfl hx
  obtain ⟨world, hworld, -⟩ :=
    trapHandler_eq hv hentered.saves.trapno (h.callback_kept hv hpushed) hpolls
  have hret : CdeclReturn called
      { called with esp := called.esp + 4, mem := img.counted vector called.mem } := by
    refine ⟨rfl, rfl, rfl, rfl, rfl, fun x hx => ?_⟩
    rw [hentered.argument_eq rfl] at hx
    have hstack : img.Stack s.cpu x := below_mono (show 17 ≤ 19 + img.depth by omega) hx
    exact (img.counted_frame vector called.mem).1 x (h.stack x hstack).2
  have hkeeps : ∀ x, ¬ img.Touched s.cpu x →
      (img.counted vector called.mem).byte x = s.cpu.mem.byte x := by
    intro x hx
    rw [(img.counted_frame vector _).1 x fun hc => hx (.inr (.inr hc)),
      hpushed x fun hs => hx (.inl hs)]
  have hloads := h.segments.loads hkeeps
  refine ⟨{
    cpu := { s.cpu with mem := img.counted vector called.mem }
    gdtr := s.gdtr
    descriptor := s.descriptor
    idtr := s.idtr
    world }, ⟨0, fun _ => 0, entered, called, _, _, _, hdeliver, ?_, hcall, fun seg hseg => ?_,
      hworld, hret, fun _ _ _ => rfl, resumes hentered hret⟩, fun seg => ?_, ?_, rfl, rfl, rfl⟩
  · rw [hcs]
    exact ⟨_, h.segments.loads (fun _ _ => rfl) .cs⟩
  · rw [hsegments seg hseg]
    exact ⟨_, h.segments.loads (fun x hx => hpushed x fun hs => hx (.inl hs)) (register seg)⟩
  · rw [h.segments.segment, h.segments.descriptor]
    exact hloads (register seg)
  · rw [h.segments.cs, h.segments.descriptor]
    exact hloads .cs

/-- An `int` of a vector with an error code pushes none, and its stub leaves it to
the processor: what is popped on the way back is a word more than was pushed. -/
theorem Installed.int_pops_more (h : Installed img s) (hcode : HasErrorCode vector)
    (hh : Handles img vector none s w s') : s'.cpu.esp = s.cpu.esp + 4 := by
  have hv : vector < 256 := by
    simp only [HasErrorCode, List.mem_cons, List.not_mem_nil, or_false] at hcode
    omega
  obtain ⟨upperCs, upper, entered, called, rest, mem, returned, hdeliver, -, hcall, -, -, hret, -,
    hiret⟩ := hh.run
  obtain ⟨label, hstub, hfetch⟩ := h.fetchGate hv
  simp only [InterruptService.deliverGate, hfetch, and_self, if_true, Option.toList_none,
    List.append_nil, Option.some.injEq] at hdeliver
  have heip : entered.eip = label := by rw [← hdeliver]
  have hesp : entered.esp = slot s.cpu.esp 3 := by
    rw [← hdeliver]
    exact congrArg Cpu.esp (pushes_eq s.cpu _)
  rw [heip, hstub, ← trapPath, trapPath_eq hv, if_pos hcode, runToCall_pushes,
    runToCall_alltraps, Option.some.injEq, Prod.mk.injEq] at hcall
  obtain ⟨rfl, rfl⟩ := hcall
  obtain ⟨eax, segment, henter⟩ := enterHandler_eq img.returnAddress
    (saveRegisters upper (entered.pushes [BitVec.ofNat 32 vector]))
  have hcalled : returned.esp = slot (slot (slot (slot s.cpu.esp 3) 1) 12) 2 + 4 := by
    rw [hret.esp, henter, saveRegisters_eq, pushes_eq, hesp]
    rfl
  -- Seventeen words are popped above the two that the call had pushed.
  have hpop : returned.esp + 4 = slot (s.cpu.esp + 4) 17 := by
    simp only [hcalled, slot]
    bv_omega
  have hrun := @trapret_pops upper { returned with esp := returned.esp + 4 } (s.cpu.esp + 4) _ hpop
    fun _ _ => rfl
  rw [← runToIret_addlEsp, hiret, Option.some.injEq] at hrun
  rw [hrun]

end OneTrap

section Runs
variable {img : Image} {s s' : System} {e : Happening} {hs : List Happening} {more : ℕ}

/-- What happenings leave, with polls left for `more` bytes. -/
structure Passed (img : Image) (s : System) (hs : List Happening) (s' : System)
    (more : ℕ) : Prop where
  installed : Installed img s'
  resumes : Resumes img s s'
  view : img.view s'.cpu.mem s'.world =
    hs.foldl (View.step (s.cpu.eflags.getLsbD 9)) (img.view s.cpu.mem s.world)
  logged : s.world.Logged s'.world
  responds : s'.world.out.Responds more

theorem Passed.refl (h : Installed img s) (hpolls : s.world.out.Responds more) :
    Passed img s [] s more :=
  ⟨h, .refl img s, rfl, .refl s.world, hpolls⟩

theorem Passed.trans {s₁ : System} {hs' : List Happening} {rest : ℕ}
    (h : Passed img s hs s₁ rest) (h' : Passed img s₁ hs' s' more) :
    Passed img s (hs ++ hs') s' more := by
  refine ⟨h'.installed, h.resumes.trans h'.resumes, ?_, h.logged.trans h'.logged, h'.responds⟩
  rw [List.foldl_append, ← h.view, h'.view, h.resumes.registers]

theorem eoi_idle {a : Lines} {vector : ℕ} (h : a.inService = { master := ∅, slave := ∅ }) :
    (a.eoi vector).inService = { master := ∅, slave := ∅ } := by
  simp [Lines.eoi, h, endOfInterrupt]

/-- The EOI of a handler ends the service of its own interrupt. -/
theorem serve_eoi_idle {a : Lines} {irq : ℕ} (h : a.inService = { master := ∅, slave := ∅ }) :
    ((a.serve irq).eoi (0x20 + irq)).inService = { master := ∅, slave := ∅ } := by
  by_cases hirq : irq < 8
  · have hsecond : ¬ x86Pic2Offset ≤ 0x20 + irq := by
      unfold x86Pic2Offset
      omega
    simp [Lines.eoi, Lines.serve, h, irqTrap, hirq, Trap.lines, Pics.mark, endOfInterrupt,
      x86Pic1Offset, hsecond]
  · have hsecond : x86Pic2Offset ≤ 0x20 + irq := by
      unfold x86Pic2Offset
      omega
    simp [Lines.eoi, Lines.serve, h, irqTrap, hirq, Trap.lines, Pics.mark, endOfInterrupt,
      x86Pic1Offset, hsecond]

theorem View.step_interrupt {v : View} {irq : ℕ} (h : v.lines.next = some irq) :
    v.step true .interrupt = View.handle { v with lines := v.lines.serve irq } (0x20 + irq) := by
  rw [View.step, h]
  rfl

theorem irq_without_error (irq : ℕ) : ¬ HasErrorCode (0x20 + irq) := by
  simp only [HasErrorCode, List.mem_cons, List.not_mem_nil, or_false]
  omega

/-- An interrupt that is delivered is the first of those that wait. -/
theorem Installed.acknowledge (h : Installed img s) {vector : Byte} {pics : Controllers}
    (hack : s.world.pics.acknowledge = some (vector, pics)) :
    ∃ irq, s.world.pics.lines.next = some irq ∧ vector.toNat = 0x20 + irq ∧ 0x20 + irq < 256 ∧
      pics.lines = s.world.pics.lines.serve irq ∧ pics.Ready := by
  have hready := h.ready.step .acknowledge
  simp only [Controllers.step, hack] at hready
  rw [h.ready.acknowledge_eq] at hack
  cases hnext : s.world.pics.lines.next with
  | none => rw [hnext] at hack; cases hack
  | some irq =>
      rw [hnext] at hack
      cases hack
      have hlt := (mem_priorityOrder.mp (List.mem_of_find?_eq_some hnext)).1
      refine ⟨irq, rfl, ?_, by omega, h.ready.serve_lines hlt, hready⟩
      rw [BitVec.toNat_ofNat, irqTrap_vector]
      omega

/-- What a trap leaves that `e` names. -/
theorem Installed.trapped (h : Installed img s) {vector : ℕ} {errorCode : Option (BitVec 32)}
    (hv : vector < 256) (hfits : FrameFits vector errorCode)
    (hpolls : s.world.out.Responds (trapBytes + more))
    (hstep : ∀ enabled v, View.step enabled v e = v.handle vector)
    (hh : Handles img vector errorCode s s.world s') : Passed img s [e] s' more := by
  obtain ⟨hresumes, hview, hpics, hlogged, hresponds⟩ := h.handled hv hfits hpolls hh
  refine ⟨h.keep hh.idtr hresumes ?_ ?_, hresumes, ?_, hlogged, hresponds⟩
  · rw [hpics]
    exact h.ready.step (.eoi _)
  · rw [hpics, x86PicEoi_lines]
    exact eoi_idle h.idle
  · rw [hview, List.foldl_cons, hstep, List.foldl_nil]

theorem Installed.step (h : Installed img s) (hlegal : e.Legal)
    (hpolls : s.world.out.Responds (trapBytes + more)) (hstep : Step img s e s') :
    Passed img s [e] s' more := by
  have hless : s.world.out.Responds more := responds_less hpolls (Nat.le_add_left _ _)
  cases hstep with
  | raise irq =>
      have hresumes : Resumes img s
          { s with world := { s.world with pics := s.world.pics.raise irq } } :=
        ⟨rfl, rfl, rfl, fun _ _ => rfl⟩
      have hlines := @Controllers.raise_lines s.world.pics irq hlegal.1 hlegal.2
      refine ⟨h.keep rfl hresumes (h.ready.step (.raise irq)) ?_, hresumes, ?_,
        ⟨[], rfl, .refl _⟩, hless⟩
      · exact (congrArg Lines.inService hlines).trans h.idle
      · exact congrArg (fun lines => { img.view s.cpu.mem s.world with lines }) hlines
  | masked hmasked =>
      refine ⟨h, .refl img s, ?_, .refl _, hless⟩
      have hlines : (img.view s.cpu.mem s.world).lines = s.world.pics.lines := rfl
      rw [List.foldl_cons, List.foldl_nil, View.step, hlines]
      obtain hmasked | hnone := hmasked
      · rw [hmasked]
        cases s.world.pics.lines.next <;> rfl
      · rw [h.ready.acknowledge_eq, Option.map_eq_none_iff] at hnone
        rw [hnone]
  | interrupt _ vector pics henabled hack hh =>
      obtain ⟨irq, hnext, hvector, hlt, hlines, hready⟩ := h.acknowledge hack
      rw [hvector] at hh
      have hpolls' : ({ s.world with pics } : World).out.Responds (trapBytes + more) := hpolls
      obtain ⟨hresumes, hview, hpics, hlogged, hresponds⟩ :=
        h.handled hlt (frameFits_none (irq_without_error irq)) hpolls' hh
      have hserved : img.view s.cpu.mem { s.world with pics } =
          { img.view s.cpu.mem s.world with lines := s.world.pics.lines.serve irq } := by
        rw [← hlines]
        rfl
      have hidle := @serve_eoi_idle _ irq h.idle
      have hend : s'.world.pics.lines = (s.world.pics.lines.serve irq).eoi (0x20 + irq) := by
        rw [hpics, x86PicEoi_lines, BitVec.toNat_ofNat, Nat.mod_eq_of_lt hlt, hlines]
      refine ⟨h.keep hh.idtr hresumes ?_ (by rw [hend, hidle]), hresumes, ?_, hlogged,
        hresponds⟩
      · rw [hpics]
        exact hready.step (.eoi _)
      · rw [hview, hserved, henabled, List.foldl_cons, List.foldl_nil, View.step_interrupt hnext]
        rfl
  | exception _ vector error hh =>
      have hv : vector < 256 := Nat.lt_trans hlegal (by decide)
      exact h.trapped hv (frameFits_exception vector error) hpolls (fun _ _ => rfl) hh
  | int _ vector hh =>
      exact h.trapped hlegal.1 (frameFits_none hlegal.2) hpolls (fun _ _ => rfl) hh

theorem Installed.step_exists (h : Installed img s) (hlegal : e.Legal)
    (hpolls : s.world.out.Responds (trapBytes + more)) : ∃ s', Step img s e s' := by
  cases e with
  | raise irq => exact ⟨_, .raise s irq⟩
  | interrupt =>
      cases hflag : s.cpu.eflags.getLsbD 9 with
      | false => exact ⟨s, .masked s (.inl hflag)⟩
      | true =>
          cases hack : s.world.pics.acknowledge with
          | none => exact ⟨s, .masked s (.inr hack)⟩
          | some delivered =>
              obtain ⟨vector, pics⟩ := delivered
              obtain ⟨irq, -, hvector, hlt, -, -⟩ := h.acknowledge hack
              obtain ⟨s', hh⟩ := @Installed.handles img s { s.world with pics } (0x20 + irq) more
                none h hlt (frameFits_none (irq_without_error irq)) hpolls
              rw [← hvector] at hh
              exact ⟨s', .interrupt s s' vector pics hflag hack hh⟩
  | exception vector error =>
      have hv : vector < 256 := Nat.lt_trans hlegal (by decide)
      obtain ⟨s', hh⟩ := h.handles hv (frameFits_exception vector error) hpolls
      exact ⟨s', .exception s s' vector error hh⟩
  | int vector =>
      obtain ⟨s', hh⟩ := h.handles hlegal.1 (frameFits_none hlegal.2) hpolls
      exact ⟨s', .int s s' vector hh⟩

/-- The polls for a list of happenings are those for the first and those for the
rest. -/
theorem trapBytes_cons (e : Happening) (hs : List Happening) (more : ℕ) :
    trapBytes * (e :: hs).length + more = trapBytes + (trapBytes * hs.length + more) := by
  rw [List.length_cons, Nat.mul_succ]
  omega

theorem Installed.run (h : Installed img s) (hlegal : ∀ e ∈ hs, e.Legal)
    (hpolls : s.world.out.Responds (trapBytes * hs.length + more)) (hrun : Run img s hs s') :
    Passed img s hs s' more := by
  induction hrun with
  | nil s => exact .refl h (responds_less hpolls (Nat.le_add_left _ _))
  | @cons s s₁ s' e hs first rest ih =>
      rw [trapBytes_cons] at hpolls
      have hfirst := h.step (hlegal e (by simp)) hpolls first
      exact hfirst.trans
        (ih hfirst.installed (fun e' he => hlegal e' (by simp [he])) hfirst.responds)

theorem Installed.run_exists (h : Installed img s) (hlegal : ∀ e ∈ hs, e.Legal)
    (hpolls : s.world.out.Responds (trapBytes * hs.length)) : ∃ s', Run img s hs s' := by
  induction hs generalizing s with
  | nil => exact ⟨s, .nil s⟩
  | cons e hs ih =>
      rw [← Nat.add_zero (trapBytes * _), trapBytes_cons] at hpolls
      obtain ⟨s₁, first⟩ := h.step_exists (hlegal e (by simp)) hpolls
      have hfirst := h.step (hlegal e (by simp)) hpolls first
      obtain ⟨s', rest⟩ := ih hfirst.installed (fun e' he => hlegal e' (by simp [he]))
        hfirst.responds
      exact ⟨s', .cons first rest⟩

/-- A program of the kernel after `trap_init` has run on `boot` and `segments_init`
has loaded the segments. -/
structure Started (img : Image) (boot : InterruptService.Machine) (start : System) : Prop where
  label : ∀ i < 256, img.code (img.label boot.kernel.mem i) = stub (trapHandlerArray.getD i 0)
  idtr : start.idtr = (trapInit img.toStatics boot).idtr
  pics : start.world.pics = (trapInit img.toStatics boot).pics
  tables : ∀ x, img.toTables.Bytes x →
    start.cpu.mem.byte x = (trapInit img.toStatics boot).kernel.mem.byte x
  stack : ∀ x, img.Stack start.cpu x → ¬ img.toTables.Bytes x ∧ ¬ img.Counters x
  segments : KernelSegments img start

theorem Started.installed {boot : InterruptService.Machine} (h : Started img boot s) :
    Installed img s := by
  obtain ⟨hholds, -⟩ := trapInit_holds img.toStatics boot
  obtain ⟨hready, hlines⟩ := x86PicRemap_ready boot.pics
  refine ⟨h.idtr.trans (trapInit_idtr img.toStatics boot), fun i hi => ?_, fun i hi => ?_, ?_, ?_,
    h.stack, h.segments⟩
  · rw [decodeGate_congr fun x hx => h.tables x (.inl (within_gate hi hx))]
    exact ⟨_, congrArg Entry.gate (hholds i hi), h.label i hi⟩
  · rw [Memory.loadWord_congr fun x hx => h.tables x (.inr (within_callback hi hx))]
    exact congrArg Entry.callback (hholds i hi)
  · rw [h.pics]
    exact hready
  · rw [h.pics]
    exact congrArg Lines.inService hlines

end Runs

/-- After `trap_init`, in the kernel's segments, whatever requests, interrupts,
exceptions and `int`s come between its instructions, as long as the polls for their
messages end: a program is always resumed, with every register and what the
processor keeps behind the selectors as they were, and no memory changed but the
stack below it, the console and the two counters; what the traps do is the run of
the view, their messages are out, and none is left in service. -/
theorem interrupts_transparent (img : Image) (boot : InterruptService.Machine) (start : System)
    (h : Started img boot start) (hs : List Happening) (hlegal : ∀ e ∈ hs, e.Legal)
    (hpolls : start.world.out.Responds (trapBytes * hs.length)) :
    (∃ s', Run img start hs s') ∧ ∀ s', Run img start hs s' →
      Resumes img start s' ∧
      img.view s'.cpu.mem s'.world = hs.foldl (View.step (start.cpu.eflags.getLsbD 9))
        (img.view start.cpu.mem start.world) ∧
      start.world.Logged s'.world ∧
      s'.world.pics.lines.inService = { master := ∅, slave := ∅ } := by
  have hinstalled := h.installed
  refine ⟨hinstalled.run_exists hlegal hpolls, fun s' hrun => ?_⟩
  have hpassed := @Installed.run img start s' hs 0 hinstalled hlegal hpolls hrun
  exact ⟨hpassed.resumes, hpassed.view, hpassed.logged, hpassed.installed.idle⟩

/-- A kernel whose stubs are at the addresses 0 to 255. -/
def smallImage : Image where
  toStatics := smallStatics
  code label := stub (trapHandlerArray.getD label.toNat 0)
  returnAddress := 0x80105678
  depth := 1200
  console x := Within 0x800B8000 4000 x ∨ Within 0x8010F000 64 x
  console_apart x := by
    unfold smallStatics Tables.Bytes Within
    bv_omega

def smallMemory : Memory Addr where
  byte x :=
    if (x - 0x80110C00).toNat < 1024 ∧ (x - 0x80110C00).toNat % 4 = 0 then
      BitVec.ofNat 8 ((x - 0x80110C00).toNat / 4)
    else 0
  written := []

theorem smallImage_label : ∀ i < 256, smallImage.code (smallImage.label smallMemory i) =
    stub (trapHandlerArray.getD i 0) := by
  intro i hi
  have hlow : smallMemory.byte (0x80110C00 + BitVec.ofNat 32 (4 * i)) = BitVec.ofNat 8 i := by
    have hoffset : (0x80110C00 + BitVec.ofNat 32 (4 * i) - 0x80110C00 : Addr).toNat = 4 * i := by
      bv_omega
    simp only [smallMemory, hoffset]
    rw [if_pos (by omega), Nat.mul_div_cancel_left i (by decide)]
  have hhigh : ∀ k : Addr, 0 < k.toNat → k.toNat < 4 →
      smallMemory.byte (0x80110C00 + BitVec.ofNat 32 (4 * i) + k) = 0 := by
    intro k hk hk'
    refine if_neg fun h => ?_
    bv_omega
  have hword : smallImage.label smallMemory i = BitVec.ofNat 32 i := by
    change smallMemory.loadWord (0x80110C00 + BitVec.ofNat 32 (4 * i)) = _
    rw [Memory.loadWord, hhigh 3 (by decide) (by decide), hhigh 2 (by decide) (by decide),
      hhigh 1 (by decide) (by decide), hlow]
    apply BitVec.eq_of_toNat_eq
    rw [BitVec.toNat_append, BitVec.toNat_ofNat, BitVec.toNat_ofNat, Nat.mod_eq_of_lt (by omega),
      Nat.mod_eq_of_lt (by omega)]
    exact Nat.zero_or i
  rw [hword]
  change stub (trapHandlerArray.getD (BitVec.ofNat 32 i).toNat 0) = _
  rw [BitVec.toNat_ofNat, Nat.mod_eq_of_lt (by omega)]

def smallCpu : Cpu where
  eax := 1
  ecx := 2
  edx := 3
  ebx := 4
  esp := 0x80120000
  ebp := 5
  esi := 6
  edi := 7
  segment _ := 0x10
  cs := 0x8
  eip := 0x80100000
  eflags := 0x202
  mem := smallMemory

/-- The null entry, the kernel's code and its data, marked accessed. -/
def smallGdt : List Byte :=
  List.replicate 8 0 ++ [0xFF, 0xFF, 0, 0, 0, 0x9B, 0xCF, 0] ++
    [0xFF, 0xFF, 0, 0, 0, 0x93, 0xCF, 0]

def smallBoot : InterruptService.Machine :=
  { smallMachine with kernel := { mem := smallMemory, events := [] } }

/-- A program that runs with both tables loaded, and a terminal at `COM1`. -/
def smallStart : System where
  cpu := { smallCpu with
    mem.byte x :=
      smallGdt.getD (x - 0x80113000).toNat ((trapInit smallStatics smallBoot).kernel.mem.byte x)
    mem.written := [] }
  gdtr := ⟨47, 0x80113000⟩
  descriptor r := some (kernelSegment r)
  idtr := (trapInit smallStatics smallBoot).idtr
  world := {
    pics := (trapInit smallStatics smallBoot).pics
    keys := fun _ => 30
    out := KernelOutput.setDefaultPort 0x3F8
      (KernelOutput.Output.boot (fun _ => 0) ⟨0, fun _ => 0⟩ (List.replicate 320 0x60) (fun _ => 0)
        fun _ => 0)
    events := [] }

theorem smallStart_started : Started smallImage smallBoot smallStart := by
  refine ⟨smallImage_label, rfl, rfl, fun x hx => ?_, fun x => ?_,
    ⟨rfl, by decide, by decide, rfl, fun seg => ?_, fun r => rfl, fun x hx => ?_⟩⟩
  · have hpast : smallGdt[(x - 0x80113000).toNat]? = none := by
      refine List.getElem?_eq_none ?_
      change 24 ≤ (x - 0x80113000).toNat
      unfold smallImage smallStatics Tables.Bytes Within at hx
      bv_omega
    exact congrArg
      (fun b : Option Byte => b.getD ((trapInit smallStatics smallBoot).kernel.mem.byte x)) hpast
  · unfold Image.Stack Image.Counters smallImage smallStatics smallStart smallCpu Tables.Bytes
      Below Within
    bv_omega
  · cases seg <;> rfl
  · unfold Image.Touched Image.Stack Image.Counters smallImage smallStatics smallStart smallCpu
      Below Within at hx
    unfold smallStart Within
    bv_omega

/-- The key A is read and logged between two instructions. -/
theorem interrupts_transparent_key :
    ∃ s', Run smallImage smallStart [.raise 1, .interrupt] s' ∧
      Resumes smallImage smallStart s' ∧
      s'.world.events.head? = some (.klog "TRAP" "Letter: %c\n" [65]) := by
  have hpolls : smallStart.world.out.Responds 320 := by
    refine ⟨.inr ?_, rfl⟩
    change 320 ≤ SerialPort.pollsEnded (List.replicate 320 0x60)
    rw [SerialPort.pollsEnded_replicate (by decide)]
  obtain ⟨⟨s', hrun⟩, hall⟩ := interrupts_transparent smallImage smallBoot smallStart
    smallStart_started [.raise 1, .interrupt] (by simp [Happening.Legal]) hpolls
  obtain ⟨hresumes, hview, -⟩ := hall s' hrun
  refine ⟨s', hrun, hresumes, ?_⟩
  have hnext : ((smallImage.view smallStart.cpu.mem smallStart.world).step true
      (.raise 1)).lines.next = some 1 :=
    (by decide : ({ smallStart.world.pics.lines with
      pending := insert 1 smallStart.world.pics.lines.pending } : Lines).next = some 1)
  have henabled : smallStart.cpu.eflags.getLsbD 9 = true := by decide
  have hevents := congrArg View.events hview
  rw [List.foldl_cons, List.foldl_cons, List.foldl_nil, henabled,
    View.step_interrupt hnext] at hevents
  change s'.world.events = _ at hevents
  rw [hevents]
  rfl

end Yack.TrapService
