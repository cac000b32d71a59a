import Yack.BootLog
import Yack.BootMemory
import Yack.SegmentLoading
import Yack.SerialRegistry
import Yack.TrapService

/-!
# `kmain`

The parts of the kernel are brought up one after the other with interrupts off,
in one memory and with one log: the serial port, the trap table and the interrupt
controllers, the memory manager, the segments. Then interrupts come on, and there
is nothing left to do but to loop.

The linker and the compiler place what each part keeps in memory. What the parts
assume of each other is that these objects do not overlap and lie below the pages
that `kvm_init` frees.
-/
namespace Yack.KernelMain
open ByteMemory MemoryLayout KernelState WordStack PageAllocator KernelAddressSpace BootMemory
  BootLog
open SerialRegistry (Driver)
open SegmentLoading (Places Register)
open TrapEntry (trapHandlerArray stub)
open InterruptService (Idtr bootEntry)
open InterruptController (Controllers)

/-- The state of the whole machine; `events` are all messages, newest first, with
the pages that were taken. -/
structure Machine where
  cpu : SegmentLoading.Cpu
  interruptFlag : Bool
  idtr : Idtr
  pics : Controllers
  driver : Driver
  kpagedir : Addr
  events : List Event

/-- Why the boot does not go on: a failed assertion, a fault of the processor, a
poll of the serial port that does not end. -/
inductive Stop where
  | assertion (halt : Halt)
  | fault
  | polling
  deriving DecidableEq, Repr

/-- Where the linker and the compiler put everything. `segments_init` runs
`segmentsFrame` bytes below the stack pointer of `kmain`, and nothing that runs
on the stack of `kmain` takes more than `stackWords`. -/
structure Link where
  layout : Layout
  traps : TrapService.Image
  places : Places
  kmain : Addr
  segmentsFrame : BitVec 32
  stackWords : ℕ

def x86SerialCom1Base : BitVec 16 := 0x3F8

/-- The messages of one part, in the order they were made. They are printed when the
part has returned, and those of a part that stops are left out. -/
def Machine.print (new : List Event) (s : Machine) : Except Stop Machine :=
  match printEvents new.reverse s.driver.out with
  | none => .error .polling
  | some out => .ok { s with driver := { s.driver with out }, events := new ++ s.events }

def Machine.withMem (s : Machine) (mem : Memory Addr) : Machine :=
  { s with cpu := { s.cpu with mem } }

def cli (s : Machine) : Machine := { s with interruptFlag := false }
def sti (s : Machine) : Machine := { s with interruptFlag := true }

def serialInitPort (com : BitVec 16) (s : Machine) : Except Stop Machine :=
  match SerialRegistry.serialInitPort com s.driver with
  | none => .error .polling
  | some driver => .ok { s with driver }

/-- The result is not looked at. -/
def serialSetDefaultPort (com : BitVec 16) (word : BitVec 32) (s : Machine) :
    Except Stop Machine :=
  match SerialRegistry.serialSetDefaultPort com word s.driver with
  | none => .error .polling
  | some (_, driver) => .ok { s with driver }

def trapInit (l : Link) (s : Machine) : Except Stop Machine :=
  let t := InterruptService.trapInit l.traps.toStatics ⟨⟨s.cpu.mem, []⟩, s.idtr, s.pics⟩
  Machine.print t.kernel.events { s.withMem t.kernel.mem with idtr := t.idtr, pics := t.pics }

/-- The first page has just been unmapped when `kpalloc` is called, so `list_del` of
the null page faults unless the boot directory still maps its node. -/
def kvmInit (l : Link) (s : Machine) : Except Stop Machine :=
  match KernelAddressSpace.kvmInit l.layout ⟨s.cpu.mem, []⟩ with
  | .error halt =>
      let m := s.cpu.mem.storeWord (entryAddr l.layout.x86PageDirectory 0) 0
      let node := pageWalk m (mmPhysaddr l.layout.x86PageDirectory) (freeListNode 0)
      if halt ∈ nullAssertions ∧ node = none then .error .fault else .error (.assertion halt)
  | .ok (kpagedir, kernel) =>
      Machine.print kernel.events { s.withMem kernel.mem with kpagedir }

def segmentsInit (l : Link) (s : Machine) : Except Stop Machine :=
  let esp := s.cpu.esp
  match SegmentLoading.segmentsInit l.places
    ⟨{ s.cpu with esp := esp - l.segmentsFrame }, []⟩ with
  | none => .error .fault
  | some t => Machine.print t.events { s with cpu := { t.cpu with esp } }

/-- Up to the loop. `word` is what the stack holds where `serial_set_default_port`
has a `%p` without an argument. -/
def kmain (l : Link) (word : BitVec 32) (s : Machine) : Except Stop Machine := do
  let s := cli s
  if x86KernelLink < l.kmain then
    let s ← serialInitPort x86SerialCom1Base s
    let s ← serialSetDefaultPort x86SerialCom1Base word s
    let s ← trapInit l s
    let s ← kvmInit l s
    let s ← segmentsInit l s
    let s ← s.print [.klog "DEBUG" "Calling STI\n" []]
    return sti s
  else .error (.assertion (.kassert "kmain.c" 45 "(void *)kmain > (void *)MM_KERNEL_LINK"))

/-- What the kernel keeps in memory, apart from the pages of the pool. -/
inductive Object where
  | tables
  | labels
  | counters
  | console
  | registry
  | directory
  | gdt
  | values
  | stack
  deriving DecidableEq, Repr

def Link.Bytes (l : Link) (esp : Addr) : Object → Addr → Prop
  | .tables => l.traps.toTables.Bytes
  | .labels => Within l.traps.trapHandlerArray 1024
  | .counters => l.traps.Counters
  | .console => l.traps.console
  | .registry => Within l.layout.registry 8
  | .directory => Within l.layout.x86PageDirectory 4096
  | .gdt => Within l.places.cpuGdt 48
  | .values => Within l.places.values 6
  | .stack => Below esp l.stackWords

/-- The objects do not overlap and lie in the higher half, below the pool; what
runs on the stack stays in it. -/
structure Link.Placed (l : Link) (esp : Addr) : Prop where
  statics : l.layout.Statics
  apart : ∀ o o' x, o ≠ o' → l.Bytes esp o x → ¬ l.Bytes esp o' x
  inside : ∀ o x, l.Bytes esp o x → x86KernelBase ≤ x ∧ x < l.layout.end_
  traps : 19 + l.traps.depth ≤ l.stackWords
  lgdt : ∀ x, Below (esp - l.segmentsFrame) 6 x ∨ Within l.places.ptr 6 x → l.Bytes esp .stack x
  ptr : ∀ x, Below (esp - l.segmentsFrame) 6 x → ¬ Within l.places.ptr 6 x

/-- What the boot may write. -/
def Link.Owned (l : Link) (esp x : Addr) : Prop :=
  (∃ o ∈ [.tables, .console, .registry, .directory, .gdt, .values, .stack], l.Bytes esp o x) ∨
    mmPagedown x ∈ l.layout.pool

/-- How many messages the boot prints. -/
def bootMessages : ℕ := 20

/-- The state in which `kmain` is entered, from a loader that leaves flat segments,
with word 512 of the first page of free memory not marked present, and with answers
of the serial port that end the polls of the boot. -/
structure Booted (l : Link) (s : Machine) : Prop where
  placed : l.Placed s.cpu.esp
  linked : x86KernelLink < l.kmain
  registry : EmptyRegistry l.layout.registry s.cpu.mem
  directory : ∀ i : Addr, i.toNat < 1024 →
    s.cpu.mem.loadWord (entryAddr l.layout.x86PageDirectory i) = HigherHalf.x86PageDirectory i
  stale : (s.cpu.mem.loadWord (entryAddr (mmPageup l.layout.end_) 512)).getLsbD 0 = false
  labels : ∀ i < 256, l.traps.code (l.traps.label s.cpu.mem i) = stub (trapHandlerArray.getD i 0)
  flat : s.cpu.Flat .ds ∧ s.cpu.Flat .ss
  ports : s.driver.serialPorts = Vector.replicate SerialRegistry.serialPortsMax 0
  noPort : s.driver.defaultPort = 0
  nul : s.driver.out.digits.byte 15 = 0
  answers : messageBytes * bootMessages < SerialPort.pollsEnded s.driver.out.io.serial.answers

/-- What the processor and the kernel find in memory from then on: the vectors of
`trap_init`, the segments, the boot directory without its first entry, and a pool
that lacks the two pages `kvm_create` took. -/
structure Intact (l : Link) (boot m : Memory Addr) : Prop where
  vectors : l.traps.toTables.Holds m (bootEntry l.traps.toStatics boot)
  segments : ∀ e ∈ SegmentDescriptors.gdtSegments l.places.tss,
    SegmentDescriptors.decode m (SegmentDescriptors.gdtEntry l.places.cpuGdt e.1) =
      if e.1 = SegmentDescriptors.x86GdtSegCodek ∨ e.1 = SegmentDescriptors.x86GdtSegDatak then
        SegmentLoading.accessed e.2.granted
      else e.2.granted
  directory : ∀ i : Addr, i.toNat < 1024 → m.loadWord (entryAddr l.layout.x86PageDirectory i) =
    if i = 0 then 0 else HigherHalf.x86PageDirectory i
  free : FreeList l.layout.registry m (l.layout.pool.drop 2)

/-- What `kmain` leaves for the loop. -/
structure Running (l : Link) (s s' : Machine) : Prop where
  memory : Intact l s.cpu.mem s'.cpu.mem
  frame : s.cpu.mem.Frame s'.cpu.mem (l.Owned s.cpu.esp)
  interruptFlag : s'.interruptFlag = true
  esp : s'.cpu.esp = s.cpu.esp
  idtr : s'.idtr = ⟨0x7FF, l.traps.trapTable⟩
  pics : s'.pics = InterruptController.x86PicRemap 0x20 0x28 s.pics
  gdtr : s'.cpu.gdtr = ⟨47, l.places.cpuGdt⟩
  selector : ∀ r, s'.cpu.selector r = if r = .cs then 0x8 else 0x10
  descriptor : ∀ r, s'.cpu.descriptor r = some (SegmentLoading.kernelSegment r)
  kpagedir : l.layout.pool.head? = some s'.kpagedir

section Placed
variable {l : Link} {esp x : Addr}

theorem Link.Placed.below_end (h : l.Placed esp) {o : Object} (hx : l.Bytes esp o x) :
    0x80000000 ≤ x.toNat ∧ x.toNat < l.layout.end_.toNat := h.inside o x hx

/-- The pool lies above every object. -/
theorem Link.Placed.not_pool (h : l.Placed esp) {o : Object} (hx : l.Bytes esp o x) :
    mmPagedown x ∉ l.layout.pool := by
  intro hmem
  have hle := (mem_pool hmem).2.1
  have hlt := (h.below_end hx).2
  rw [mmPagedown_toNat] at hle
  omega

/-- What is not the list head is not written by the memory manager. -/
theorem Link.Placed.not_manager (h : l.Placed esp) {o : Object} (ho : o ≠ .registry)
    (hx : l.Bytes esp o x) : ¬ ManagerBytes l.layout x := by
  rintro (hreg | hpool)
  · exact h.apart o .registry x ho hx hreg
  · exact h.not_pool hx hpool

/-- An object at a fixed place that lies below the pool does not wrap around. -/
theorem fits_of_below {a limit : Addr} {n : ℕ} (hn : 0 < n) (hsmall : n ≤ 2 ^ 16)
    (hlimit : limit.toNat ≤ 0x80400000) (h : ∀ x, Within a n x → x < limit) :
    a.toNat + n ≤ 2 ^ 32 := by
  have hlast : (BitVec.ofNat 32 (n - 1)).toNat = n - 1 := by
    rw [BitVec.toNat_ofNat]
    omega
  have hfirst := h a (by unfold Within; bv_omega)
  have hend := h (a + BitVec.ofNat 32 (n - 1)) (by
    unfold Within
    rw [BitVec.add_comm, BitVec.add_sub_cancel, hlast]
    omega)
  rw [BitVec.lt_def] at hfirst hend
  rw [BitVec.toNat_add, hlast] at hend
  omega

theorem Link.Placed.segments (h : l.Placed esp) :
    SegmentLoading.Placed l.places (esp - l.segmentsFrame) := by
  have hlimit := l.layout.data_le_end.2.2
  have hstack : ∀ x, Below (esp - l.segmentsFrame) 6 x → l.Bytes esp .stack x :=
    fun x hx => h.lgdt x (.inl hx)
  have hptr : ∀ x, Within l.places.ptr 6 x → l.Bytes esp .stack x := fun x hx => h.lgdt x (.inr hx)
  refine ⟨?_, ?_, ?_, ?_, h.ptr, ?_, ?_⟩
  · have hroom := fits_of_below (a := esp - l.segmentsFrame - 24) (n := 24) (by decide) (by decide)
      hlimit fun x hx => (h.inside .stack x (hstack x hx)).2
    have hfirst := (h.inside .stack (esp - l.segmentsFrame - 24) (hstack _ (by
      unfold Below Within
      bv_omega))).2
    rw [BitVec.lt_def] at hfirst
    bv_omega
  · exact fits_of_below (by decide) (by decide) hlimit fun x hx =>
      (h.inside .stack x (hptr x hx)).2
  · exact fits_of_below (by decide) (by decide) hlimit fun x hx => (h.inside .values x hx).2
  · exact fun x hx hgdt => h.apart .stack .gdt x (by decide) (hstack x hx) hgdt
  · exact fun x hx hstackPtr => h.apart .gdt .stack x (by decide) hx (hptr x hstackPtr)
  · exact fun x hx hvalues => h.apart .gdt .values x (by decide) hx hvalues

theorem within_entry {p i : Addr} (hp : PageAligned p) (hi : i.toNat < 1024)
    (hx : Within (entryAddr p i) 4 x) : Within p 4096 x := by
  rw [within_page hp, Aligned4.pagedown_within (entryAddr_aligned hp hi) hx,
    entryAddr_pagedown hp hi]

/-- What the kernel finds in memory depends on four objects and the pool. -/
theorem Intact.keep {boot m m' : Memory Addr} (h : Intact l boot m) (hs : l.layout.Statics)
    (hobject : ∀ o ∈ [.tables, .registry, .directory, .gdt], ∀ x, l.Bytes esp o x →
      m'.byte x = m.byte x)
    (hpool : ∀ x, mmPagedown x ∈ l.layout.pool → m'.byte x = m.byte x) : Intact l boot m' := by
  have haligned := hs.directory_aligned
  refine ⟨fun i hi => ?_, fun e he => ?_, fun i hi => ?_, ?_⟩
  · rw [InterruptTable.Tables.entry_congr fun x hx =>
      hobject .tables (by simp) x (hx.bytes hi), h.vectors i hi]
  · rw [SegmentDescriptors.decode_congr fun x hx => hobject .gdt (by simp) x
      (SegmentLoading.within_gdt (SegmentLoading.gdtSegments_lt he) hx), h.segments e he]
  · rw [← h.directory i hi]
    exact Memory.loadWord_congr fun x hx =>
      hobject .directory (by simp) x (within_entry haligned hi hx)
  · refine h.free.congr fun x hx => ?_
    obtain hreg | ⟨p, hp, hx⟩ := hx
    · exact hobject .registry (by simp) x hreg
    · have hmem := List.mem_of_mem_drop hp
      refine hpool x ?_
      rwa [header_pagedown (pool_usable hs p hmem).aligned hx]

/-- Everything the boot writes is mapped, and writable, in the higher half. -/
theorem Link.Placed.mapped (h : l.Placed esp) (hx : l.Owned esp x) :
    HigherHalf.kernelMap x = some ⟨mmPhysaddr x, true, false⟩ := by
  have hlimit := l.layout.data_le_end
  have hrange : 0x80000000 ≤ x.toNat ∧ x.toNat < 0x80400000 := by
    obtain ⟨o, -, hx⟩ | hpool := hx
    · have hbelow := h.below_end hx
      omega
    · obtain ⟨haligned, hlow, hhigh⟩ := mem_pool hpool
      unfold PageAligned at haligned
      rw [mmPagedown_toNat] at hlow hhigh haligned
      omega
  rw [HigherHalf.kernelMap, if_pos hrange]

end Placed

section Messages
variable {s s' : Machine} {new : List Event} {more : ℕ}

/-- `s'` is `s` with `new` printed, and the polls that are left do for `more`. -/
structure Prints (s s' : Machine) (new : List Event) (more : ℕ) : Prop where
  events : s'.events = new ++ s.events
  ports : s'.driver.serialPorts = s.driver.serialPorts
  text : Says s.driver.out s'.driver.out (logText new.reverse)
  responds : s'.driver.out.Responds more

theorem print_ok (hfits : ∀ e ∈ new, EventFits e)
    (h : s.driver.out.Responds (messageBytes * messages new + more)) :
    ∃ s', s.print new = .ok s' ∧ Prints s s' new more ∧
      s' = { s with driver := s'.driver, events := s'.events } := by
  have hfits' : ∀ e ∈ new.reverse, EventFits e := fun e he => hfits e (List.mem_reverse.mp he)
  rw [← messages_reverse] at h
  obtain ⟨out, hrun, hsays, hresponds⟩ := printEvents_text hfits' h
  refine ⟨{ s with driver := { s.driver with out }, events := new ++ s.events }, ?_,
    ⟨rfl, rfl, hsays, hresponds⟩, rfl⟩
  rw [Machine.print, hrun]

/-- A message at the level `DEBUG`. -/
theorem debug_fits {fmt : String} {args : List (BitVec 32)} {width : ℕ}
    (h : formatWidth fmt args.length = some width) (hle : width ≤ lineBytes) :
    EventFits (.klog "DEBUG" fmt args) :=
  ⟨⟨"DEBUG".toList.map TextFormatter.ascii, by decide, by decide⟩, width, h, hle⟩

theorem Prints.trans {s₁ : Machine} {later : List Event} {left : ℕ} (h : Prints s s₁ new more)
    (h' : Prints s₁ s' later left) : Prints s s' (later ++ new) left := by
  refine ⟨?_, h'.ports.trans h.ports, ?_, h'.responds⟩
  · rw [h'.events, h.events, List.append_assoc]
  · rw [List.reverse_append, logText, List.map_append, List.flatten_append]
    exact h.text.trans h'.text

/-- The messages of `trap_init`, newest first. -/
def trapEvents (l : Link) : List Event :=
  [.klog "DEBUG" "using idt trap_table at %p\n" [l.traps.trapTable],
    .klog "DEBUG" "lidt: addr: %p, ptr: %x %x %x\n" [l.traps.trapTable,
      (2047 : BitVec 16).setWidth 32, (l.traps.trapTable.setWidth 16).setWidth 32,
      ((l.traps.trapTable >>> 16).setWidth 16).setWidth 32],
    .klog "DEBUG" "sizeof struct trap_handler: %u\n" [8]]

theorem trapEvents_fit (l : Link) : ∀ e ∈ trapEvents l, EventFits e := by
  intro e he
  simp only [trapEvents, List.mem_cons, List.not_mem_nil, or_false] at he
  obtain rfl | rfl | rfl := he
  · exact debug_fits rfl (by decide)
  · exact debug_fits rfl (by decide)
  · exact debug_fits rfl (by decide)

theorem kvmEvents_fit (l : Layout) (d q : Addr) : ∀ e ∈ kvmEvents l d q, EventFits e := by
  intro e he
  simp only [kvmEvents, List.mem_cons, List.not_mem_nil, or_false] at he
  obtain rfl | rfl | rfl | rfl := he
  · exact trivial
  · exact debug_fits rfl (by decide)
  · exact trivial
  · exact debug_fits rfl (by decide)

/-- `segments_init` shows each descriptor it stores. -/
theorem descriptor_events (cpuGdt tss : Addr) (m : Memory Addr) :
    ∃ words : List (BitVec 32 × BitVec 32), words.length = 5 ∧
      (SegmentDescriptors.segmentsInit cpuGdt tss ⟨m, []⟩).events =
        words.map (fun w => .klog "DEBUG" "GDT Entry: %0x %0x\n" [w.1, w.2]) ++
          [.klog "DEBUG" "GDT address: %p\n" [cpuGdt]] :=
  ⟨[(_, _), (_, _), (_, _), (_, _), (_, _)], rfl, rfl⟩

theorem segmentEvents_fit (l : Places) (m : Memory Addr) :
    let new := SegmentLoading.loadedMessages l ++
      (SegmentDescriptors.segmentsInit l.cpuGdt l.tss ⟨m, []⟩).events
    messages new = 14 ∧ ∀ e ∈ new, EventFits e := by
  intro new
  obtain ⟨words, hlength, hevents⟩ := descriptor_events l.cpuGdt l.tss m
  have hnew : new = SegmentLoading.loadedMessages l ++
      (words.map (fun w => .klog "DEBUG" "GDT Entry: %0x %0x\n" [w.1, w.2]) ++
        [.klog "DEBUG" "GDT address: %p\n" [l.cpuGdt]]) :=
    congrArg (SegmentLoading.loadedMessages l ++ ·) hevents
  constructor
  · have hwords : messages (words.map fun w => .klog "DEBUG" "GDT Entry: %0x %0x\n" [w.1, w.2]) =
        5 := by
      rw [messages, List.countP_map, ← hlength]
      exact List.countP_eq_length.mpr fun w _ => rfl
    rw [hnew, messages_append, messages_append, hwords]
    rfl
  · intro e he
    rw [hnew, List.mem_append, List.mem_append, List.mem_map, List.mem_singleton] at he
    obtain hloaded | ⟨w, -, rfl⟩ | rfl := he
    · simp only [SegmentLoading.loadedMessages, List.mem_cons, List.not_mem_nil,
        or_false] at hloaded
      obtain rfl | rfl | rfl | rfl | rfl | rfl | rfl | rfl := hloaded
      all_goals exact debug_fits rfl (by decide)
    · exact debug_fits rfl (by decide)
    · exact debug_fits rfl (by decide)

end Messages

section Serial
variable {d d' : Driver} {bytes : ℕ}

/-- Without a device nothing is registered and no port becomes the default. -/
theorem com1_absent (hrep : SerialRegistry.PortTable.empty.Represents d)
    (hnul : d.out.digits.byte 15 = 0) (word : BitVec 32) :
    ∃ r d', SerialRegistry.serialSetDefaultPort x86SerialCom1Base word d = some (r, d') ∧
      d'.out.Responds bytes ∧ d'.defaultPort = 0 := by
  have hport : d.defaultPort = 0 := hrep.defaultPort
  have hpos : 0 < x86SerialCom1Base := by decide
  obtain ⟨r, d', hrun⟩ := SerialRegistry.serialSetDefaultPort_returns hpos word
    ⟨.inl hport, hnul⟩
  have hport' : d'.defaultPort = 0 :=
    (SerialRegistry.serialSetDefaultPort_represents hrep hrun).2.defaultPort
  refine ⟨r, d', hrun, ⟨.inl hport', ?_⟩, hport'⟩
  have hend := (hrep.findLoop_end hpos).mpr List.not_mem_nil
  rw [SerialRegistry.serialSetDefaultPort, if_pos hpos, if_pos hend] at hrun
  obtain ⟨out, hlog, hret⟩ := Option.bind_eq_some_iff.mp hrun
  cases hret
  exact (KernelLog.klog_nul hlog).trans hnul

theorem com1_present {t : SerialRegistry.PortTable} (hrep : t.Represents d)
    (hmem : x86SerialCom1Base ∈ t.registered) (word : BitVec 32) :
    SerialRegistry.serialSetDefaultPort x86SerialCom1Base word d = some (0,
      d.withSerial { d.out.io.serial with serialDefaultPort := x86SerialCom1Base }) := by
  have hpos : 0 < x86SerialCom1Base := by decide
  have hend := (hrep.findLoop_end hpos).not.mpr (not_not.mpr hmem)
  rw [SerialRegistry.serialSetDefaultPort, if_pos hpos, if_neg hend]
  rfl

/-- Both calls of `kmain` return, and `COM1` is the default if a device answers. -/
theorem com1_ok (hslots : d.serialPorts = Vector.replicate SerialRegistry.serialPortsMax 0)
    (hport : d.defaultPort = 0) (hnul : d.out.digits.byte 15 = 0)
    (hpolls : bytes < SerialPort.pollsEnded d.out.io.serial.answers) (word : BitVec 32) :
    ∃ d₁ r d', SerialRegistry.serialInitPort x86SerialCom1Base d = some d₁ ∧
      SerialRegistry.serialSetDefaultPort x86SerialCom1Base word d₁ = some (r, d') ∧
      d'.out.Responds bytes ∧ d'.defaultPort = if d.Present then x86SerialCom1Base else 0 := by
  have hrep := SerialRegistry.PortTable.empty_represents hslots hport
  have hanswers : d.out.io.serial.answers ≠ [] := by
    intro hnil
    rw [hnil] at hpolls
    exact Nat.not_lt_zero _ hpolls
  obtain ⟨d₁, hinit⟩ := SerialRegistry.serialInitPort_returns x86SerialCom1Base hanswers
    ⟨.inl hport, hnul⟩
  have hrep₁ := SerialRegistry.serialInitPort_represents hrep hinit
  obtain ⟨hrefused, -⟩ | ⟨-, status, serial, hstatus, hdecided⟩ :=
    SerialRegistry.serialInitPort_cases hrep hinit
  · obtain hmem | hfull := hrefused
    · exact absurd hmem List.not_mem_nil
    · cases hfull
  obtain ⟨hcons, -, -⟩ := SerialLine.inb_eq_some hstatus
  have hcons' : d.out.io.serial.answers = status :: serial.answers := hcons
  have hpresent := SerialRegistry.Driver.present_eq hcons'
  rw [hcons', SerialPort.pollsEnded] at hpolls
  obtain ⟨rfl, hlogs⟩ | ⟨hne, rfl⟩ := hdecided
  · rw [show ((0xFF : Byte) != 0xFF) = false from rfl] at hpresent
    rw [hpresent, SerialRegistry.PortTable.initPort_absent] at hrep₁
    obtain ⟨level, fmt, ap, out, hlog, rfl⟩ := hlogs
    obtain ⟨r, d', hset, hresponds, hdefault⟩ :=
      @com1_absent _ bytes hrep₁ ((KernelLog.klog_nul hlog).trans hnul) word
    exact ⟨_, r, d', hinit, hset, hresponds, by rw [hdefault, hpresent]; rfl⟩
  · have hadmits : SerialRegistry.PortTable.empty.Admits x86SerialCom1Base := by decide
    rw [bne_iff_ne.mpr hne] at hpresent
    rw [hpresent, SerialRegistry.PortTable.initPort_present hadmits] at hrep₁
    have hset := com1_present hrep₁ (List.mem_append_right [] (List.mem_singleton.mpr rfl)) word
    refine ⟨_, 0, _, hinit, hset, ⟨.inr ?_, hnul⟩, ?_⟩
    · change bytes ≤ SerialPort.pollsEnded serial.answers
      split_ifs at hpolls <;> omega
    · rw [hpresent]
      rfl

end Serial

section Stages
variable {l : Link} {s : Machine} {more : ℕ}

/-- Memory after `trap_init`. -/
def trapMemory (l : Link) (s : Machine) : Memory Addr :=
  (InterruptService.trapInit l.traps.toStatics ⟨⟨s.cpu.mem, []⟩, s.idtr, s.pics⟩).kernel.mem

theorem trapInit_ok (h : s.driver.out.Responds (messageBytes * 3 + more)) :
    ∃ s', trapInit l s = .ok s' ∧ Prints s s' (trapEvents l) more ∧
      s' = { s.withMem (trapMemory l s) with
        idtr := ⟨0x7FF, l.traps.trapTable⟩
        pics := InterruptController.x86PicRemap 0x20 0x28 s.pics
        driver := s'.driver
        events := s'.events } := by
  have hidtr := InterruptService.trapInit_idtr l.traps.toStatics
    ⟨⟨s.cpu.mem, []⟩, s.idtr, s.pics⟩
  obtain ⟨s', hrun, hprints, hs'⟩ := @print_ok { s.withMem (trapMemory l s) with
    idtr := ⟨0x7FF, l.traps.trapTable⟩
    pics := InterruptController.x86PicRemap 0x20 0x28 s.pics } _ more (trapEvents_fit l) h
  refine ⟨s', ?_, ⟨hprints.events, hprints.ports, hprints.text, hprints.responds⟩, hs'⟩
  rw [trapInit]
  simp only [hidtr]
  exact hrun

theorem kvmInit_ok {d q : Addr} {free : List Addr} (hs : l.layout.Statics)
    (hempty : EmptyRegistry l.layout.registry s.cpu.mem) (hpool : l.layout.pool = d :: q :: free)
    (hstale : (s.cpu.mem.loadWord (entryAddr d 512)).getLsbD 0 = false)
    (h : s.driver.out.Responds (messageBytes * 2 + more)) :
    ∃ m s', kvmInit l s = .ok s' ∧ Prints s s' (kvmEvents l.layout d q) more ∧
      s' = { s.withMem m with kpagedir := d, driver := s'.driver, events := s'.events } ∧
      FreeList l.layout.registry m free ∧
      (s.cpu.mem.storeWord (entryAddr l.layout.x86PageDirectory 0) 0).Frame m
        (ManagerBytes l.layout) := by
  obtain ⟨m, hkvm, hfree, hframe⟩ :=
    @kvmInit_frame l.layout ⟨s.cpu.mem, []⟩ d q free hs hempty hpool hstale
  rw [List.append_nil] at hkvm
  obtain ⟨s', hrun, hprints, hs'⟩ := @print_ok { s.withMem m with kpagedir := d } _ more
    (kvmEvents_fit l.layout d q) h
  refine ⟨m, s', ?_, ⟨hprints.events, hprints.ports, hprints.text, hprints.responds⟩, hs', hfree,
    hframe⟩
  rw [kvmInit, hkvm]
  exact hrun

theorem segmentsInit_ok (hplaced : l.Placed s.cpu.esp)
    (hflat : s.cpu.Flat .ds ∧ s.cpu.Flat .ss)
    (h : s.driver.out.Responds (messageBytes * 14 + more)) :
    ∃ cpu new s', segmentsInit l s = .ok s' ∧ messages new = 14 ∧ Prints s s' new more ∧
      s' = { s with
        cpu := { cpu with esp := s.cpu.esp }
        driver := s'.driver
        events := s'.events } ∧
      SegmentLoading.Loaded l.places { s.cpu with esp := s.cpu.esp - l.segmentsFrame } cpu ∧
      cpu.TableReady l.places.cpuGdt ∧
      cpu.descriptor = fun r => some (SegmentLoading.kernelSegment r) := by
  obtain ⟨cpu, hrun, hloaded, hready, hdescriptor⟩ := SegmentLoading.segmentsInit_run l.places
    ⟨{ s.cpu with esp := s.cpu.esp - l.segmentsFrame }, []⟩ hflat.1 hflat.2 hplaced.segments
  obtain ⟨hcount, hfits⟩ := segmentEvents_fit l.places s.cpu.mem
  rw [← hcount] at h
  obtain ⟨s', hprint, hprints, hs'⟩ :=
    @print_ok { s with cpu := { cpu with esp := s.cpu.esp } } _ more hfits h
  refine ⟨cpu, _, s', ?_, hcount, ⟨hprints.events, hprints.ports, hprints.text,
    hprints.responds⟩, hs', hloaded, hready, hdescriptor⟩
  rw [segmentsInit]
  simp only [hrun]
  exact hprint

/-- The memory of the boot, from stage to stage. -/
theorem Booted.intact {d q : Addr} {free : List Addr} {m₂ m₃ : Memory Addr}
    (h : Booted l s) (hpool : l.layout.pool = d :: q :: free)
    (hfree : FreeList l.layout.registry m₂ free)
    (hmanager : ((trapMemory l s).storeWord (entryAddr l.layout.x86PageDirectory 0) 0).Frame m₂
      (ManagerBytes l.layout))
    (hsegments : m₂.Frame m₃ fun x => l.Bytes s.cpu.esp .gdt x ∨ l.Bytes s.cpu.esp .stack x ∨
      l.Bytes s.cpu.esp .values x)
    (hdecode : ∀ e ∈ SegmentDescriptors.gdtSegments l.places.tss,
      SegmentDescriptors.decode m₃ (SegmentDescriptors.gdtEntry l.places.cpuGdt e.1) =
        if e.1 = SegmentDescriptors.x86GdtSegCodek ∨ e.1 = SegmentDescriptors.x86GdtSegDatak then
          SegmentLoading.accessed e.2.granted
        else e.2.granted) :
    Intact l s.cpu.mem m₃ ∧ s.cpu.mem.Frame m₃ (l.Owned s.cpu.esp) := by
  have hplaced := h.placed
  have haligned := hplaced.statics.directory_aligned
  obtain ⟨hvectors, htraps⟩ := InterruptService.trapInit_holds l.traps.toStatics
    ⟨⟨s.cpu.mem, []⟩, s.idtr, s.pics⟩
  have hfirst := (trapMemory l s).frame_storeWord (entryAddr l.layout.x86PageDirectory 0) 0
  have hentry : ∀ (i x : Addr), i.toNat < 1024 →
      Within (entryAddr l.layout.x86PageDirectory i) 4 x → l.Bytes s.cpu.esp .directory x :=
    fun i x hi hx => within_entry haligned hi hx
  have hlate : ∀ o ∉ [Object.gdt, .stack, .values], ∀ x, l.Bytes s.cpu.esp o x →
      m₃.byte x = m₂.byte x := by
    intro o ho x hx
    refine hsegments.1 x ?_
    rintro (hy | hy | hy)
    · exact hplaced.apart o .gdt x (fun e => ho (by simp [e])) hx hy
    · exact hplaced.apart o .stack x (fun e => ho (by simp [e])) hx hy
    · exact hplaced.apart o .values x (fun e => ho (by simp [e])) hx hy
  have hpages : ∀ x, mmPagedown x ∈ l.layout.pool → m₃.byte x = m₂.byte x := by
    intro x hx
    refine hsegments.1 x ?_
    rintro (hy | hy | hy) <;> exact hplaced.not_pool hy hx
  refine ⟨⟨fun i hi => ?_, hdecode, fun i hi => ?_, ?_⟩, ?_⟩
  · rw [← hvectors i hi]
    refine InterruptTable.Tables.entry_congr fun x hx => ?_
    have htable : l.Bytes s.cpu.esp .tables x := hx.bytes hi
    rw [hlate .tables (by decide) x htable,
      hmanager.1 x (hplaced.not_manager (by decide) htable),
      hfirst.1 x fun hy => hplaced.apart .tables .directory x (by decide) htable
        (hentry 0 x (by decide) hy)]
    rfl
  · have hboot : ∀ i : Addr, i.toNat < 1024 →
        (trapMemory l s).loadWord (entryAddr l.layout.x86PageDirectory i) =
          HigherHalf.x86PageDirectory i := by
      intro i hi
      rw [← h.directory i hi]
      exact htraps.loadWord fun x hx htable =>
        hplaced.apart .directory .tables x (by decide) (hentry i x hi hx) htable
    rw [← HigherHalf.cleared_entries haligned hboot i hi]
    refine Memory.loadWord_congr fun x hx => ?_
    have hdirectory := hentry i x hi hx
    rw [hlate .directory (by decide) x hdirectory,
      hmanager.1 x (hplaced.not_manager (by decide) hdirectory)]
  · rw [hpool]
    refine hfree.congr fun x hx => ?_
    obtain hreg | ⟨p, hp, hx⟩ := hx
    · exact hlate .registry (by decide) x hreg
    · refine hpages x ?_
      rw [header_pagedown (hfree.usable p hp).aligned hx, hpool]
      exact List.mem_cons_of_mem _ (List.mem_cons_of_mem _ hp)
  · have hobject : ∀ o ∈ [Object.tables, .console, .registry, .directory, .gdt, .values, .stack],
        ∀ x, l.Bytes s.cpu.esp o x → l.Owned s.cpu.esp x := fun o ho x hx => .inl ⟨o, ho, hx⟩
    refine Memory.Frame.trans (htraps.mono (hobject .tables (by simp))) ?_
    refine Memory.Frame.trans (hfirst.mono fun x hx =>
      hobject .directory (by simp) x (hentry 0 x (by decide) hx)) ?_
    refine Memory.Frame.trans (hmanager.mono fun x hx => ?_) (hsegments.mono fun x hx => ?_)
    · obtain hx | hx := hx
      · exact hobject .registry (by simp) x hx
      · exact .inr hx
    · obtain hx | hx | hx := hx
      · exact hobject .gdt (by simp) x hx
      · exact hobject .stack (by simp) x hx
      · exact hobject .values (by simp) x hx

theorem emptyRegistry_congr {registry : Addr} {m m' : Memory Addr}
    (h : EmptyRegistry registry m) (hkept : ∀ x, Within registry 8 x → m'.byte x = m.byte x) :
    EmptyRegistry registry m' := by
  refine ⟨h.aligned, ?_, ?_⟩
  · exact (Memory.loadWord_congr fun x hx =>
      hkept x (IntrusiveList.within_links.mpr (.inl hx))).trans h.next
  · exact (Memory.loadWord_congr fun x hx =>
      hkept x (IntrusiveList.within_links.mpr (.inr hx))).trans h.prev

/-- `kmain` from `kvm_init` on. -/
def afterTraps (l : Link) (s : Machine) : Except Stop Machine := do
  let s ← kvmInit l s
  let s ← segmentsInit l s
  let s ← s.print [.klog "DEBUG" "Calling STI\n" []]
  return sti s

/-- What `trap_init` leaves for `kvm_init`, with polls left for `more` bytes behind
the boot's. `before` is the state when the serial port is set up. -/
structure Trapped (l : Link) (word : BitVec 32) (more : ℕ) (s before s₁ : Machine) : Prop where
  serial : ∃ d₁ r, SerialRegistry.serialInitPort x86SerialCom1Base s.driver = some d₁ ∧
    SerialRegistry.serialSetDefaultPort x86SerialCom1Base word d₁ = some (r, before.driver)
  port : before.driver.defaultPort = if s.driver.Present then x86SerialCom1Base else 0
  events : before.events = s.events
  prints : Prints before s₁ (trapEvents l)
    (messageBytes * 2 + (messageBytes * 14 + (messageBytes * 1 + more)))
  state : s₁ = { (cli s).withMem (trapMemory l s) with
    idtr := ⟨0x7FF, l.traps.trapTable⟩
    pics := InterruptController.x86PicRemap 0x20 0x28 s.pics
    driver := s₁.driver
    events := s₁.events }
  empty : EmptyRegistry l.layout.registry s₁.cpu.mem
  stale : (s₁.cpu.mem.loadWord (entryAddr (mmPageup l.layout.end_) 512)).getLsbD 0 = false

/-- With answers to spare for `more` bytes. -/
theorem Booted.start (h : Booted l s) (word : BitVec 32) (hanswers :
    messageBytes * bootMessages + more < SerialPort.pollsEnded s.driver.out.io.serial.answers) :
    ∃ before s₁, Trapped l word more s before s₁ ∧ kmain l word s = afterTraps l s₁ := by
  have hplaced := h.placed
  obtain ⟨d₁, r, driver, hinit, hset, hresponds, hdefault⟩ :=
    com1_ok h.ports h.noPort h.nul hanswers word
  let before : Machine := { cli s with driver }
  have hbudget : messageBytes * bootMessages + more = messageBytes * 3 +
      (messageBytes * 2 + (messageBytes * 14 + (messageBytes * 1 + more))) := by
    rw [bootMessages]
    omega
  rw [hbudget] at hresponds
  obtain ⟨s₁, hrun, hprints, hs₁⟩ := @trapInit_ok l before _ hresponds
  have hmem : s₁.cpu.mem = trapMemory l s := by
    rw [hs₁]
    rfl
  have htraps : s.cpu.mem.Frame (trapMemory l s) l.traps.toTables.Bytes :=
    (InterruptService.trapInit_holds l.traps.toStatics ⟨⟨s.cpu.mem, []⟩, s.idtr, s.pics⟩).2
  refine ⟨before, s₁, ⟨⟨d₁, r, hinit, hset⟩, hdefault, rfl, hprints, hs₁, ?_, ?_⟩, ?_⟩
  · rw [hmem]
    exact emptyRegistry_congr h.registry fun x hx => htraps.1 x fun htable =>
      hplaced.apart .registry .tables x (by decide) hx htable
  · rw [hmem, PageTables.entry_unchanged htraps (pageAligned_pageup _) (by decide) ?_]
    · exact h.stale
    · intro x hx htable
      have hbelow := (hplaced.below_end (o := .tables) htable).2
      have hup := l.layout.pageup_end
      have hdown := mmPagedown_toNat x
      rw [hx] at hdown
      omega
  · have hstage : serialInitPort x86SerialCom1Base (cli s) = .ok { cli s with driver := d₁ } := by
      rw [serialInitPort, show (cli s).driver = s.driver from rfl, hinit]
    have hstage' : serialSetDefaultPort x86SerialCom1Base word { cli s with driver := d₁ } =
        .ok before := by
      simp only [serialSetDefaultPort, hset]
      rfl
    simp only [kmain, h.linked, if_true, hstage, hstage', hrun, bind, Except.bind]
    rfl

/-- With two pages in the pool `kmain` reaches its loop. -/
theorem Booted.run {d q : Addr} {free : List Addr} {word : BitVec 32} {before s₁ : Machine}
    (h : Booted l s) (hpool : l.layout.pool = d :: q :: free)
    (htrapped : Trapped l word more s before s₁) :
    ∃ s' new, afterTraps l s₁ = .ok s' ∧ Running l s s' ∧ messages new = bootMessages ∧
      Prints before s' new more := by
  have hplaced := h.placed
  have hs₁ := htrapped.state
  have hprints₁ := htrapped.prints
  have hmem₁ : s₁.cpu.mem = trapMemory l s := by
    rw [hs₁]
    rfl
  have hstale := htrapped.stale
  rw [← pool_first hpool] at hstale
  obtain ⟨m₂, s₂, hrun₂, hprints₂, hs₂, hfree, hframe⟩ :=
    kvmInit_ok hplaced.statics htrapped.empty hpool hstale hprints₁.responds
  rw [hmem₁] at hframe
  have hcpu₂ : s₂.cpu = { s.cpu with mem := m₂ } := by rw [hs₂, hs₁]; rfl
  have hplaced₂ : l.Placed s₂.cpu.esp := by rw [hcpu₂]; exact hplaced
  have hflat₂ : s₂.cpu.Flat .ds ∧ s₂.cpu.Flat .ss := by rw [hcpu₂]; exact h.flat
  obtain ⟨cpu, new, s₃, hrun₃, hcount, hprints₃, hs₃, hloaded, -, hdescriptor⟩ :=
    segmentsInit_ok hplaced₂ hflat₂ hprints₂.responds
  have hsegments : m₂.Frame cpu.mem fun x => l.Bytes s.cpu.esp .gdt x ∨
      l.Bytes s.cpu.esp .stack x ∨ l.Bytes s.cpu.esp .values x := by
    have hmem : s₂.cpu.mem = m₂ := by rw [hcpu₂]
    have hesp : s₂.cpu.esp = s.cpu.esp := by rw [hcpu₂]
    rw [← hmem]
    refine hloaded.frame.mono fun x hx => ?_
    obtain hx | hx | hx | hx := hx
    · exact .inl hx
    · exact .inr (.inl (hplaced.lgdt x (.inl (by rw [← hesp]; exact hx))))
    · exact .inr (.inl (hplaced.lgdt x (.inr hx)))
    · exact .inr (.inr hx)
  obtain ⟨hintact, howned⟩ := h.intact hpool hfree hframe hsegments hloaded.segments
  have hfits : ∀ e ∈ [Event.klog "DEBUG" "Calling STI\n" []], EventFits e := by
    intro e he
    obtain rfl := List.mem_singleton.mp he
    exact debug_fits rfl (by decide)
  obtain ⟨s₄, hrun₄, hprints₄, hs₄⟩ := print_ok hfits hprints₃.responds
  have hprints := ((hprints₁.trans hprints₂).trans hprints₃).trans hprints₄
  refine ⟨sti s₄, _, ?_, ?_, ?_, ⟨hprints.events, hprints.ports, hprints.text, hprints.responds⟩⟩
  · simp only [afterTraps, hrun₂, hrun₃, hrun₄, bind, Except.bind]
    rfl
  · have hcpu₄ : (sti s₄).cpu = { cpu with esp := s.cpu.esp } := by
      change s₄.cpu = _
      rw [hs₄, hs₃, hcpu₂]
    refine ⟨?_, ?_, rfl, ?_, ?_, ?_, ?_, ?_, ?_, ?_⟩
    · rw [hcpu₄]
      exact hintact
    · rw [hcpu₄]
      exact howned
    · rw [hcpu₄]
    · change s₄.idtr = _
      rw [hs₄, hs₃, hs₂, hs₁]
      rfl
    · change s₄.pics = _
      rw [hs₄, hs₃, hs₂, hs₁]
      rfl
    · rw [hcpu₄]
      exact hloaded.gdtr
    · rw [hcpu₄]
      exact hloaded.selector
    · rw [hcpu₄]
      exact congrFun hdescriptor
    · change _ = some s₄.kpagedir
      rw [hs₄, hs₃, hs₂, hpool]
      rfl
  · rw [messages_append, messages_append, messages_append, hcount]
    rfl

/-- With fewer pages `kvm_init` faults in a call of `kpalloc`. -/
theorem Booted.stops {word : BitVec 32} {before s₁ : Machine} (h : Booted l s)
    (hshort : l.layout.pool.length < 2) (htrapped : Trapped l word more s before s₁) :
    afterTraps l s₁ = .error .fault := by
  obtain ⟨halt, hnull, hrun⟩ := @kvmInit_short l.layout ⟨s₁.cpu.mem, []⟩ h.placed.statics
    ⟨htrapped.empty, rfl⟩ hshort htrapped.stale
  have hindex : x86PdIndex (freeListNode 0) = 0 := by decide
  have hunmapped : pageWalk (s₁.cpu.mem.storeWord (entryAddr l.layout.x86PageDirectory 0) 0)
      (mmPhysaddr l.layout.x86PageDirectory) (freeListNode 0) = none := by
    refine HigherHalf.walk_absent h.placed.statics.directory_aligned ?_
    rw [hindex, Memory.loadWord_storeWord]
  have hstop : kvmInit l s₁ = .error .fault := by
    rw [kvmInit, hrun]
    exact if_pos ⟨hnull, hunmapped⟩
  rw [afterTraps, hstop]
  rfl

end Stages

section Whole
variable {l : Link} {s s' : Machine} {word : BitVec 32} {more : ℕ}

theorem pool_cases (pool : List Addr) : pool.length < 2 ∨ ∃ d q free, pool = d :: q :: free := by
  match pool with
  | [] => exact .inl (by decide)
  | [d] => exact .inl (Nat.lt_succ_self 1)
  | d :: q :: free => exact .inr ⟨d, q, free, rfl⟩

/-- Where `kmain` gets to the loop, everything is set up and the log is printed. -/
theorem Booted.running (h : Booted l s) (hanswers :
    messageBytes * bootMessages + more < SerialPort.pollsEnded s.driver.out.io.serial.answers)
    (hrun : kmain l word s = .ok s') :
    Running l s s' ∧ ∃ before s₁ new, Trapped l word more s before s₁ ∧
      messages new = bootMessages ∧ Prints before s' new more := by
  obtain ⟨before, s₁, htrapped, heq⟩ := h.start word hanswers
  rw [heq] at hrun
  obtain hshort | ⟨d, q, free, hpool⟩ := pool_cases l.layout.pool
  · rw [h.stops hshort htrapped] at hrun
    cases hrun
  · obtain ⟨s'', new, hreach, hrunning, hcount, hprints⟩ := h.run hpool htrapped
    rw [hreach] at hrun
    cases hrun
    exact ⟨hrunning, before, s₁, new, htrapped, hcount, hprints⟩

theorem Booted.reaches (h : Booted l s) (hpool : 2 ≤ l.layout.pool.length) (word : BitVec 32) :
    ∃ s', kmain l word s = .ok s' := by
  obtain ⟨before, s₁, htrapped, heq⟩ := @Booted.start l s 0 h word h.answers
  obtain hshort | ⟨d, q, free, hpool⟩ := pool_cases l.layout.pool
  · omega
  obtain ⟨s', new, hrun, -⟩ := h.run hpool htrapped
  exact ⟨s', heq.trans hrun⟩

end Whole

/-- A kernel that ends at 1 MB + 192 kB. -/
def smallLink : Link where
  layout := { smallLayout with
    data := 0x8010F000
    end_ := 0x80130000
    x86PageDirectory := 0x80112000
    data_aligned := by decide
    link_data := by decide
    data_end := by decide
    end_limit := by decide }
  traps := TrapService.smallImage
  places := {
    cpuGdt := 0x80113000
    tss := 0x80113040
    ptr := 0x8011EFE0
    values := 0x80113100
    setcs := 0x80101234
    returnAddress := 0x80102345 }
  kmain := 0x80103000
  segmentsFrame := 0x40
  stackWords := 2048

def smallStack : Addr := 0x8011F000

/-- Where each object lies. -/
def smallRange : Object → ℕ × ℕ
  | .tables => (0x80110000, 0x80110C00)
  | .labels => (0x80110C00, 0x80111000)
  | .counters => (0x80111000, 0x80111008)
  | .console => (0x800B8000, 0x8010F040)
  | .registry => (0x80117040, 0x80117048)
  | .directory => (0x80112000, 0x80113000)
  | .gdt => (0x80113000, 0x80113030)
  | .values => (0x80113100, 0x80113106)
  | .stack => (0x8011D000, 0x8011F000)

theorem smallRange_bytes {o : Object} {x : Addr} (h : smallLink.Bytes smallStack o x) :
    (smallRange o).1 ≤ x.toNat ∧ x.toNat < (smallRange o).2 := by
  cases o
  all_goals
    simp only [Link.Bytes, smallLink, smallLayout, TrapService.smallImage,
      InterruptService.smallStatics, InterruptTable.Tables.Bytes, TrapService.Image.Counters, Below,
      Within, smallStack] at h
    simp only [smallRange]
    bv_omega

theorem smallRange_apart (o o' : Object) (hne : o ≠ o') :
    (smallRange o).2 ≤ (smallRange o').1 ∨ (smallRange o').2 ≤ (smallRange o).1 := by
  cases o <;> cases o' <;> first | exact absurd rfl hne | decide

theorem smallLink_placed : smallLink.Placed smallStack := by
  refine ⟨⟨by decide, by decide, by decide, by decide, by decide⟩, ?_, ?_, by decide, ?_, ?_⟩
  · intro o o' x hne hx hx'
    have hrange := smallRange_bytes hx
    have hrange' := smallRange_bytes hx'
    have hapart := smallRange_apart o o' hne
    omega
  · intro o x hx
    have hrange := smallRange_bytes hx
    have hinside : 0x80000000 ≤ (smallRange o).1 ∧ (smallRange o).2 ≤ 0x80130000 := by
      cases o <;> decide
    constructor
    · exact Nat.le_trans hinside.1 hrange.1
    · exact Nat.lt_of_lt_of_le hrange.2 hinside.2
  · intro x hx
    simp only [Link.Bytes, smallLink, Below, Within, smallStack] at hx ⊢
    bv_omega
  · intro x hx hx'
    simp only [smallLink, Below, Within, smallStack] at hx hx'
    bv_omega

/-- The labels of the stubs, the boot directory and the list head. -/
def smallBootMemory : Memory Addr :=
  let m : Memory Addr := {
    byte := fun x => if x = 0x80112000 ∨ x = 0x80112800 then 0x83 else
      TrapService.smallMemory.byte x
    written := [] }
  (m.storeWord 0x80117040 0x80117040).storeWord 0x80117044 0x80117040

def smallMachine : Machine where
  cpu := { SegmentLoading.loaderMachine.cpu with esp := smallStack, mem := smallBootMemory }
  interruptFlag := true
  idtr := ⟨0, 0⟩
  pics := InterruptService.smallMachine.pics
  driver := .boot (List.replicate 2400 0x60)
  kpagedir := 0
  events := []

theorem smallBootMemory_byte {x : Addr} (hx : ¬ Within 0x80117040 8 x) :
    smallBootMemory.byte x = if x = 0x80112000 ∨ x = 0x80112800 then 0x83 else
      TrapService.smallMemory.byte x := by
  rw [smallBootMemory, (Memory.frame_storeWord _ _ _).1 x, (Memory.frame_storeWord _ _ _).1 x]
  · unfold Within at *
    bv_omega
  · unfold Within at *
    bv_omega

theorem smallMachine_booted : Booted smallLink smallMachine := by
  refine ⟨smallLink_placed, by decide, ⟨by decide, by decide, by decide⟩, fun i hi => ?_,
    ?_, fun i hi => ?_, ⟨⟨_, rfl, rfl, rfl⟩, ⟨_, rfl, rfl, rfl⟩⟩, rfl, rfl, rfl, ?_⟩
  · refine HigherHalf.entry_of_bytes (by decide) (fun x hx => ?_) hi
    change Within 0x80112000 4096 x at hx
    have hlow : ¬ (x - 0x80110C00).toNat < 1024 := by
      unfold Within at hx
      bv_omega
    have hbyte := smallBootMemory_byte (x := x) fun hreg => by
      unfold Within at hx hreg
      bv_omega
    have hzero : TrapService.smallMemory.byte x = 0 := if_neg fun h => hlow h.1
    rwa [hzero] at hbyte
  · have hbyte : smallBootMemory.byte 0x80130800 = 0 := smallBootMemory_byte (by decide)
    rw [show entryAddr (mmPageup smallLink.layout.end_) 512 = 0x80130800 by decide]
    change (smallBootMemory.loadWord 0x80130800).getLsbD 0 = false
    rw [Memory.loadWord, BitVec.getLsbD_append, if_pos (by decide), hbyte]
    rfl
  · have hlabel : smallLink.traps.label smallBootMemory i =
        TrapService.smallImage.label TrapService.smallMemory i := by
      refine Memory.loadWord_congr fun x hx => ?_
      change Within (0x80110C00 + BitVec.ofNat 32 (4 * i)) 4 x at hx
      have hx' : (x - 0x80110C00).toNat < 1024 := by
        unfold Within at hx
        bv_omega
      have hbyte := smallBootMemory_byte (x := x) fun hreg => by
        unfold Within at hreg
        bv_omega
      rwa [if_neg fun h => by bv_omega] at hbyte
    exact (congrArg smallLink.traps.code hlabel).trans (TrapService.smallImage_label i hi)
  · change _ < SerialPort.pollsEnded (List.replicate 2400 0x60)
    rw [SerialPort.pollsEnded_replicate (by decide)]
    decide

theorem smallLink_pool : 2 ≤ smallLink.layout.pool.length := by
  rw [KernelAddressSpace.Layout.pool, pagesBetween, List.length_map, List.length_range]
  decide

/-- From the entry `kmain` reaches its loop, with everything set up, if the pool has
a page for the kernel directory and one for its table; with a smaller pool it stops
with a fault, since `kpalloc` unlinks the null page. All it writes is mapped in the
higher half. -/
theorem kmain_boots (l : Link) (word : BitVec 32) (s : Machine) (h : Booted l s) :
    (2 ≤ l.layout.pool.length → ∃ s', kmain l word s = .ok s' ∧ Running l s s' ∧
      (∀ v, pageWalk s'.cpu.mem (mmPhysaddr l.layout.x86PageDirectory) v =
        HigherHalf.kernelMap v) ∧
      ∀ x, l.Owned s.cpu.esp x →
        HigherHalf.kernelMap x = some ⟨mmPhysaddr x, true, false⟩) ∧
    (l.layout.pool.length < 2 → kmain l word s = .error .fault) := by
  constructor
  · intro hpool
    obtain ⟨s', hrun⟩ := h.reaches hpool word
    obtain ⟨hrunning, -⟩ := @Booted.running l s s' word 0 h h.answers hrun
    refine ⟨s', hrun, hrunning, fun v => ?_, fun x hx => h.placed.mapped hx⟩
    exact HigherHalf.kernel_walk h.placed.statics.directory_aligned hrunning.memory.directory v
  · intro hshort
    obtain ⟨before, s₁, htrapped, heq⟩ := @Booted.start l s 0 h word h.answers
    rw [heq]
    exact h.stops hshort htrapped

theorem kmain_boots_small : ∃ s', kmain smallLink 0 smallMachine = .ok s' ∧
    Running smallLink smallMachine s' := by
  obtain ⟨s', hrun, hrunning, -⟩ :=
    (kmain_boots smallLink 0 smallMachine smallMachine_booted).1 smallLink_pool
  exact ⟨s', hrun, hrunning⟩

/-- All messages of the boot come out, whatever the addresses in them: on the screen
in their order, and written to the data port of `COM1` if a device answers there. -/
theorem kmain_log (l : Link) (word : BitVec 32) (s s' : Machine) (h : Booted l s)
    (hrun : kmain l word s = .ok s') : ∃ d₁ r before new,
      SerialRegistry.serialInitPort x86SerialCom1Base s.driver = some d₁ ∧
      SerialRegistry.serialSetDefaultPort x86SerialCom1Base word d₁ = some (r, before) ∧
      s'.events = new ++ s.events ∧ messages new = bootMessages ∧
      s'.driver.out.io.console = (logText new.reverse).foldl (fun con c => VgaConsole.putchar c con)
        before.out.io.console ∧
      (∀ com, KernelOutput.dataWrites com s'.driver.out.io.serial.trace =
        KernelOutput.dataWrites com before.out.io.serial.trace ++
          if s.driver.Present = true ∧ com = x86SerialCom1Base then logText new.reverse else []) ∧
      s'.driver.defaultPort = if s.driver.Present then x86SerialCom1Base else 0 := by
  obtain ⟨-, before, s₁, new, htrapped, hcount, hprints⟩ :=
    @Booted.running l s s' word 0 h h.answers hrun
  obtain ⟨d₁, r, hinit, hset⟩ := htrapped.serial
  have hport : before.driver.out.io.serial.serialDefaultPort =
      if s.driver.Present then x86SerialCom1Base else 0 := htrapped.port
  refine ⟨d₁, r, before.driver, new, hinit, hset, ?_, hcount, hprints.text.screen,
    fun com => ?_, hprints.text.port.trans hport⟩
  · rw [hprints.events, htrapped.events]
  · rw [hprints.text.sent com, hport]
    by_cases hpresent : s.driver.Present = true
    · simp [hpresent, x86SerialCom1Base]
    · simp [hpresent]

theorem kmain_log_small : ∃ s', kmain smallLink 0 smallMachine = .ok s' ∧
    messages s'.events = 20 ∧ s'.driver.defaultPort = 0x3F8 := by
  obtain ⟨s', hrun⟩ := smallMachine_booted.reaches smallLink_pool 0
  obtain ⟨d₁, r, before, new, -, -, hevents, hcount, -, -, hport⟩ :=
    kmain_log smallLink 0 smallMachine s' smallMachine_booted hrun
  refine ⟨s', hrun, ?_, hport⟩
  rw [hevents, messages_append, hcount]
  rfl

end Yack.KernelMain
