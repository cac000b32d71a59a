import Yack.KernelMain

/-!
# The loop of `kmain`

With interrupts on the kernel only answers traps. Whatever comes and in whatever
order, as long as the serial port ends the polls for the messages, the loop goes on
as it was, and what `kmain` has set up stays: the traps write to the stack below the
loop, to the console and to two counters, and none of these is what the processor or
the memory manager reads.
-/
namespace Yack.KernelLoop
open ByteMemory MemoryLayout WordStack KernelMain
open BootLog (messageBytes)
open TrapService (register trapBytes)
open SegmentLoading (Register)

section Loop
variable {l : Link} {s s' : Machine} {cpu : TrapEntry.Cpu}

/-- The loop of `kmain` as the program that traps interrupt. -/
structure Loops (s : Machine) (cpu : TrapEntry.Cpu) : Prop where
  mem : cpu.mem = s.cpu.mem
  esp : cpu.esp = s.cpu.esp
  cs : cpu.cs = s.cpu.selector .cs
  segment : ∀ seg, cpu.segment seg = s.cpu.selector (register seg)
  enabled : cpu.eflags.getLsbD 9 = s.interruptFlag

def system (s : Machine) (cpu : TrapEntry.Cpu) (keys : ℕ → Byte) : TrapService.System where
  cpu := cpu
  gdtr := s.cpu.gdtr
  descriptor := s.cpu.descriptor
  idtr := s.idtr
  world := { pics := s.pics, keys, out := s.driver.out, events := s.events }

/-- What traps out of the loop write is none of what the kernel stands on. -/
theorem touched_cases (h : Running l s s') (hplaced : l.Placed s.cpu.esp)
    (hloops : Loops s' cpu) {x : Addr} (hx : l.traps.Touched cpu x) :
    ∃ o ∈ [Object.stack, .console, .counters], l.Bytes s.cpu.esp o x := by
  obtain hx | hx | hx := hx
  · refine ⟨.stack, by simp, ?_⟩
    have hbelow : Below s.cpu.esp (19 + l.traps.depth) x := by
      rw [← h.esp, ← hloops.esp]
      exact hx
    exact TrapService.below_mono hplaced.traps hbelow
  · exact ⟨.console, by simp, hx⟩
  · exact ⟨.counters, by simp, hx⟩

/-- The two descriptors of the kernel in the table. -/
theorem kernel_descriptors {boot m : Memory Addr} (hm : Intact l boot m) :
    SegmentDescriptors.decode m (SegmentDescriptors.gdtEntry l.places.cpuGdt
      SegmentDescriptors.x86GdtSegCodek) = SegmentLoading.flatSegment 0x9B ∧
    SegmentDescriptors.decode m (SegmentDescriptors.gdtEntry l.places.cpuGdt
      SegmentDescriptors.x86GdtSegDatak) = SegmentLoading.flatSegment 0x93 := by
  have hcode := hm.segments (SegmentDescriptors.x86GdtSegCodek, ⟨0, 0xFFFFFFFF, 0x9A, 0xCF⟩)
    (by simp [SegmentDescriptors.gdtSegments])
  have hdata := hm.segments (SegmentDescriptors.x86GdtSegDatak, ⟨0, 0xFFFFFFFF, 0x92, 0xCF⟩)
    (by simp [SegmentDescriptors.gdtSegments])
  rw [if_pos (.inl rfl)] at hcode
  rw [if_pos (.inr rfl)] at hdata
  exact ⟨hcode, hdata⟩

/-- The loop runs in the kernel's segments. -/
theorem kernelSegments_of_running (h : Running l s s') (hplaced : l.Placed s.cpu.esp)
    (hloops : Loops s' cpu) (keys : ℕ → Byte) :
    TrapService.KernelSegments l.traps (system s' cpu keys) := by
  obtain ⟨hcode, hdata⟩ := kernel_descriptors h.memory
  have hbase : (system s' cpu keys).gdtr = ⟨47, l.places.cpuGdt⟩ := h.gdtr
  have hmem : (system s' cpu keys).cpu.mem = s'.cpu.mem := hloops.mem
  refine ⟨by rw [hbase], by rw [hbase, hmem, hcode], by rw [hbase, hmem, hdata], ?_, fun seg => ?_,
    h.descriptor, fun x hx hgdt => ?_⟩
  · exact (hloops.cs.trans (h.selector .cs)).trans rfl
  · refine (hloops.segment seg).trans ((h.selector _).trans ?_)
    cases seg <;> rfl
  · rw [hbase] at hgdt
    obtain ⟨o, ho, hx⟩ := touched_cases h hplaced hloops hx
    refine hplaced.apart o .gdt x ?_ hx hgdt
    rintro rfl
    simp at ho

/-- Traps find what they need, and their stack is not in it. -/
theorem installed_of_running (h : Running l s s') (hbooted : Booted l s) (hloops : Loops s' cpu)
    (keys : ℕ → Byte) : TrapService.Installed l.traps (system s' cpu keys) := by
  have hplaced := hbooted.placed
  obtain ⟨hready, hlines⟩ := InterruptController.x86PicRemap_ready s.pics
  have hmem : (system s' cpu keys).cpu.mem = s'.cpu.mem := hloops.mem
  refine ⟨h.idtr, fun i hi => ?_, fun i hi => ?_, ?_, ?_, fun x hx => ?_,
    kernelSegments_of_running h hplaced hloops keys⟩
  · rw [hmem]
    exact ⟨_, congrArg InterruptTable.Entry.gate (h.memory.vectors i hi), hbooted.labels i hi⟩
  · rw [hmem]
    exact congrArg InterruptTable.Entry.callback (h.memory.vectors i hi)
  · change s'.pics.Ready
    rw [h.pics]
    exact hready
  · change s'.pics.lines.inService = _
    rw [h.pics]
    exact congrArg InterruptController.Lines.inService hlines
  · have hstack : l.Bytes s.cpu.esp .stack x := by
      have hesp : (system s' cpu keys).cpu.esp = s.cpu.esp := hloops.esp.trans h.esp
      have hbelow : Below s.cpu.esp (19 + l.traps.depth) x := hesp ▸ hx
      exact TrapService.below_mono hplaced.traps hbelow
    exact ⟨hplaced.apart .stack .tables x (by decide) hstack,
      hplaced.apart .stack .counters x (by decide) hstack⟩

/-- Memory stays as the kernel needs it through any run of traps. -/
theorem intact_of_resumes (h : Running l s s') (hplaced : l.Placed s.cpu.esp)
    (hloops : Loops s' cpu) {keys : ℕ → Byte} {t : TrapService.System}
    (hresumes : TrapService.Resumes l.traps (system s' cpu keys) t) :
    Intact l s.cpu.mem t.cpu.mem := by
  have hkept : ∀ x, ¬ l.traps.Touched cpu x → t.cpu.mem.byte x = s'.cpu.mem.byte x := by
    intro x hx
    rw [← hloops.mem]
    exact hresumes.mem x hx
  refine @Intact.keep l s.cpu.esp s.cpu.mem s'.cpu.mem t.cpu.mem h.memory hplaced.statics
    (fun o ho x hx => hkept x fun htouched => ?_) fun x hx => hkept x fun htouched => ?_
  · obtain ⟨o', ho', hx'⟩ := touched_cases h hplaced hloops htouched
    refine hplaced.apart o o' x ?_ hx hx'
    rintro rfl
    simp only [List.mem_cons, List.not_mem_nil, or_false] at ho ho'
    obtain rfl | rfl | rfl := ho' <;> simp at ho
  · obtain ⟨o', -, hx'⟩ := touched_cases h hplaced hloops htouched
    exact hplaced.not_pool hx' hx

/-- A trap can load each selector it has saved, and that changes nothing. -/
theorem reload_of_intact (h : Running l s s') {m : Memory Addr} (hm : Intact l s.cpu.mem m)
    (r : Register) : SegmentLoading.Cpu.load { s'.cpu with mem := m } r (s'.cpu.selector r) =
      some { s'.cpu with mem := m } := by
  obtain ⟨hcode, hdata⟩ := kernel_descriptors hm
  have hready : SegmentLoading.Cpu.TableReady { s'.cpu with mem := m } l.places.cpuGdt :=
    ⟨h.gdtr, congrArg SegmentLoading.accessed hcode, congrArg SegmentLoading.accessed hdata⟩
  refine hready.again ?_ (h.descriptor r) ?_
  · rw [h.selector r]
    cases r <;> rfl
  · cases r with
    | cs => exact congrArg (fun seg => seg.access.getLsbD 0) hcode
    | ss | ds | es | fs | gs => exact congrArg (fun seg => seg.access.getLsbD 0) hdata

end Loop

/-- Once `kmain` is in its loop, any requests, interrupts, exceptions and `int`s may
come in any order, while the answers of the serial port last for their messages, and
after each of them the loop goes on with its registers and its segments, the gates,
the table of the segments, the boot directory and the pool are as `kmain` left them,
the selectors that a trap pops can be loaded, the messages are out, and no interrupt
is left in service. -/
theorem kmain_idles (l : Link) (word : BitVec 32) (s s' : Machine) (h : Booted l s)
    (hrun : kmain l word s = .ok s') (cpu : TrapEntry.Cpu) (hloops : Loops s' cpu)
    (keys : ℕ → Byte) (hs : List TrapService.Happening) (hlegal : ∀ e ∈ hs, e.Legal)
    (hanswers : messageBytes * bootMessages + trapBytes * hs.length <
      SerialPort.pollsEnded s.driver.out.io.serial.answers) :
    let start := system s' cpu keys
    (∃ t, TrapService.Run l.traps start hs t) ∧ ∀ t, TrapService.Run l.traps start hs t →
      t.cpu = { cpu with mem := t.cpu.mem } ∧ t.descriptor = start.descriptor ∧
      t.gdtr = start.gdtr ∧ Intact l s.cpu.mem t.cpu.mem ∧
      (∀ v, pageWalk t.cpu.mem (mmPhysaddr l.layout.x86PageDirectory) v =
        HigherHalf.kernelMap v) ∧
      (∀ r, SegmentLoading.Cpu.load { s'.cpu with mem := t.cpu.mem } r (s'.cpu.selector r) =
        some { s'.cpu with mem := t.cpu.mem }) ∧
      start.world.Logged t.world ∧
      t.world.pics.lines.inService = { master := ∅, slave := ∅ } ∧
      l.traps.view t.cpu.mem t.world =
        hs.foldl (TrapService.View.step true) (l.traps.view s'.cpu.mem start.world) := by
  intro start
  obtain ⟨hrunning, _, _, _, -, -, hprints⟩ := h.running hanswers hrun
  have hinstalled := installed_of_running hrunning h hloops keys
  have hpolls : start.world.out.Responds (trapBytes * hs.length) := hprints.responds
  refine ⟨hinstalled.run_exists hlegal hpolls, fun t ht => ?_⟩
  have hpassed := @TrapService.Installed.run l.traps start t hs 0 hinstalled hlegal hpolls ht
  have hresumes := hpassed.resumes
  have hintact := intact_of_resumes hrunning h.placed hloops hresumes
  refine ⟨hresumes.registers, hresumes.descriptor, hresumes.gdtr, hintact, fun v => ?_,
    fun r => reload_of_intact hrunning hintact r, hpassed.logged, hpassed.installed.idle, ?_⟩
  · exact HigherHalf.kernel_walk h.placed.statics.directory_aligned hintact.directory v
  · rw [hpassed.view]
    have henabled : cpu.eflags.getLsbD 9 = true := hloops.enabled.trans hrunning.interruptFlag
    have hmem : start.cpu.mem = s'.cpu.mem := hloops.mem
    rw [hmem]
    exact congrArg (fun enabled => hs.foldl (TrapService.View.step enabled) _) henabled

/-- The registers of the loop. -/
def loopCpu (s : Machine) : TrapEntry.Cpu where
  eax := 1
  ecx := 2
  edx := 3
  ebx := 4
  esp := s.cpu.esp
  ebp := 5
  esi := 6
  edi := 7
  segment seg := s.cpu.selector (register seg)
  cs := s.cpu.selector .cs
  eip := 0x80103080
  eflags := 0x202
  mem := s.cpu.mem

/-- A key is pressed while the loop runs. -/
theorem kmain_idles_key : ∃ s' t, kmain smallLink 0 smallMachine = .ok s' ∧
    TrapService.Run smallLink.traps (system s' (loopCpu s') fun _ => 30) [.raise 1, .interrupt] t ∧
    Intact smallLink smallMachine.cpu.mem t.cpu.mem ∧
    t.world.pics.lines.inService = { master := ∅, slave := ∅ } := by
  obtain ⟨s', hrun⟩ := smallMachine_booted.reaches smallLink_pool 0
  have hanswers : messageBytes * bootMessages + trapBytes * 2 <
      SerialPort.pollsEnded smallMachine.driver.out.io.serial.answers := by
    change _ < SerialPort.pollsEnded (List.replicate 2400 0x60)
    rw [SerialPort.pollsEnded_replicate (by decide)]
    decide
  have hflag := (smallMachine_booted.running hanswers hrun).1.interruptFlag
  have henabled : (0x202#32 : BitVec 32).getLsbD 9 = true := by decide
  have hloops : Loops s' (loopCpu s') :=
    ⟨rfl, rfl, rfl, fun _ => rfl, henabled.trans hflag.symm⟩
  obtain ⟨⟨t, ht⟩, hall⟩ := kmain_idles smallLink 0 smallMachine s' smallMachine_booted hrun
    (loopCpu s') hloops (fun _ => 30) [.raise 1, .interrupt] (by simp [TrapService.Happening.Legal])
    hanswers
  obtain ⟨-, -, -, hintact, -, -, -, hidle, -⟩ := hall t ht
  exact ⟨s', t, hrun, ht, hintact, hidle⟩

end Yack.KernelLoop
