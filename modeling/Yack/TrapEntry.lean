import Yack.WordStack

/-!
# Trap entry and exit: `traps.S`

A trap of the same privilege level pushes `eflags`, `cs`, `eip` and for some
vectors an error code; the stub of the vector completes this to the layout of
`struct trapframe`, and `alltraps` pushes the rest and calls the C handler. But
for the jump out of the stub the instructions run in a straight line, in two
runs: up to the call of the handler, and from its return up to `iret`.

`pushl` of a segment register leaves the upper half of the word undefined; the
halves are parameters of a run. Between the runs the handler may do anything
within the rules of cdecl.
-/
namespace Yack.TrapEntry
open ByteMemory WordStack

inductive Segment where
  | ds
  | es
  | fs
  | gs
  deriving DecidableEq, Repr

/-- The registers an interrupted program can see, and memory. -/
@[ext]
structure Cpu where
  eax : BitVec 32
  ecx : BitVec 32
  edx : BitVec 32
  ebx : BitVec 32
  esp : BitVec 32
  ebp : BitVec 32
  esi : BitVec 32
  edi : BitVec 32
  segment : Segment → BitVec 16
  cs : BitVec 16
  eip : BitVec 32
  eflags : BitVec 32
  mem : Memory Addr

/-- The instructions of `traps.S`. -/
inductive Instr where
  | pushl (imm : BitVec 32)
  | pushSegment (seg : Segment)
  | pushal
  | movwAx (imm : BitVec 16)
  | movwSegment (seg : Segment)
  | pushEsp
  | callTrapHandler
  | addlEsp (imm : BitVec 32)
  | popal
  | popSegment (seg : Segment)
  | iret
  | jmpAlltraps
  deriving DecidableEq, Repr

def x86GdtSegDatak : BitVec 16 := 2

def trapret : List Instr :=
  [.popal, .popSegment .gs, .popSegment .fs, .popSegment .es, .popSegment .ds, .addlEsp 8, .iret]

/-- `alltraps` falls through to `trapret`. -/
def alltraps : List Instr :=
  [.pushSegment .ds, .pushSegment .es, .pushSegment .fs, .pushSegment .gs, .pushal,
    .movwAx (x86GdtSegDatak <<< 3), .movwSegment .ds, .movwSegment .es,
    .pushEsp, .callTrapHandler, .addlEsp 4] ++ trapret

/-- What `trap_handler_0` to `trap_handler_255` push before `jmp alltraps`. -/
def stubPushes : List (List (BitVec 32)) :=
  [
    [0, 0], [0, 1], [0, 2], [0, 3], [0, 4], [0, 5], [0, 6], [0, 7], [8], [0, 9], [10], [11],
    [12], [13], [14], [0, 15], [0, 16], [17], [0, 18], [0, 19], [0, 20], [0, 21], [0, 22],
    [0, 23], [0, 24], [0, 25], [0, 26], [0, 27], [0, 28], [0, 29], [0, 30], [0, 31], [0, 32],
    [0, 33], [0, 34], [0, 35], [0, 36], [0, 37], [0, 38], [0, 39], [0, 40], [0, 41], [0, 42],
    [0, 43], [0, 44], [0, 45], [0, 46], [0, 47], [0, 48], [0, 49], [0, 50], [0, 51], [0, 52],
    [0, 53], [0, 54], [0, 55], [0, 56], [0, 57], [0, 58], [0, 59], [0, 60], [0, 61], [0, 62],
    [0, 63], [0, 64], [0, 65], [0, 66], [0, 67], [0, 68], [0, 69], [0, 70], [0, 71], [0, 72],
    [0, 73], [0, 74], [0, 75], [0, 76], [0, 77], [0, 78], [0, 79], [0, 80], [0, 81], [0, 82],
    [0, 83], [0, 84], [0, 85], [0, 86], [0, 87], [0, 88], [0, 89], [0, 90], [0, 91], [0, 92],
    [0, 93], [0, 94], [0, 95], [0, 96], [0, 97], [0, 98], [0, 99], [0, 100], [0, 101],
    [0, 102], [0, 103], [0, 104], [0, 105], [0, 106], [0, 107], [0, 108], [0, 109], [0, 110],
    [0, 111], [0, 112], [0, 113], [0, 114], [0, 115], [0, 116], [0, 117], [0, 118], [0, 119],
    [0, 120], [0, 121], [0, 122], [0, 123], [0, 124], [0, 125], [0, 126], [0, 127], [0, 128],
    [0, 129], [0, 130], [0, 131], [0, 132], [0, 133], [0, 134], [0, 135], [0, 136], [0, 137],
    [0, 138], [0, 139], [0, 140], [0, 141], [0, 142], [0, 143], [0, 144], [0, 145], [0, 146],
    [0, 147], [0, 148], [0, 149], [0, 150], [0, 151], [0, 152], [0, 153], [0, 154], [0, 155],
    [0, 156], [0, 157], [0, 158], [0, 159], [0, 160], [0, 161], [0, 162], [0, 163], [0, 164],
    [0, 165], [0, 166], [0, 167], [0, 168], [0, 169], [0, 170], [0, 171], [0, 172], [0, 173],
    [0, 174], [0, 175], [0, 176], [0, 177], [0, 178], [0, 179], [0, 180], [0, 181], [0, 182],
    [0, 183], [0, 184], [0, 185], [0, 186], [0, 187], [0, 188], [0, 189], [0, 190], [0, 191],
    [0, 192], [0, 193], [0, 194], [0, 195], [0, 196], [0, 197], [0, 198], [0, 199], [0, 200],
    [0, 201], [0, 202], [0, 203], [0, 204], [0, 205], [0, 206], [0, 207], [0, 208], [0, 209],
    [0, 210], [0, 211], [0, 212], [0, 213], [0, 214], [0, 215], [0, 216], [0, 217], [0, 218],
    [0, 219], [0, 220], [0, 221], [0, 222], [0, 223], [0, 224], [0, 225], [0, 226], [0, 227],
    [0, 228], [0, 229], [0, 230], [0, 231], [0, 232], [0, 233], [0, 234], [0, 235], [0, 236],
    [0, 237], [0, 238], [0, 239], [0, 240], [0, 241], [0, 242], [0, 243], [0, 244], [0, 245],
    [0, 246], [0, 247], [0, 248], [0, 249], [0, 250], [0, 251], [0, 252], [0, 253], [0, 254],
    [0, 255]
  ]

def trapHandlerArray : List ℕ :=
  [
    0, 1, 2, 3, 4, 5, 6, 7, 8, 9, 10, 11, 12, 13, 14, 15, 16, 17, 18, 19, 20, 21, 22, 23, 24,
    25, 26, 27, 28, 29, 30, 31, 32, 33, 34, 35, 36, 37, 38, 39, 40, 41, 42, 43, 44, 45, 46, 47,
    48, 49, 50, 51, 52, 53, 54, 55, 56, 57, 58, 59, 60, 61, 62, 63, 64, 65, 66, 67, 68, 69, 70,
    71, 72, 73, 74, 75, 76, 77, 78, 79, 80, 81, 82, 83, 84, 85, 86, 87, 88, 89, 90, 91, 92, 93,
    94, 95, 96, 97, 98, 99, 100, 101, 102, 103, 104, 105, 106, 107, 108, 109, 110, 111, 112,
    113, 114, 115, 116, 117, 118, 119, 120, 121, 122, 123, 124, 125, 126, 127, 128, 129, 130,
    131, 132, 133, 134, 135, 136, 137, 138, 139, 140, 141, 142, 143, 144, 145, 146, 147, 148,
    149, 150, 151, 152, 153, 154, 155, 156, 157, 158, 159, 160, 161, 162, 163, 164, 165, 166,
    167, 168, 169, 170, 171, 172, 173, 174, 175, 176, 177, 178, 179, 180, 181, 182, 183, 184,
    185, 186, 187, 188, 189, 190, 191, 192, 193, 194, 195, 196, 197, 198, 199, 200, 201, 202,
    203, 204, 205, 206, 207, 208, 209, 210, 211, 212, 213, 214, 215, 216, 217, 218, 219, 220,
    221, 222, 223, 224, 225, 226, 227, 228, 229, 230, 231, 232, 233, 234, 235, 236, 237, 238,
    239, 240, 241, 242, 243, 244, 245, 246, 247, 248, 249, 250, 251, 252, 253, 254, 255
  ]

/-- The instructions at the label `trap_handler_n`. -/
def stub (n : ℕ) : List Instr := (stubPushes.getD n []).map .pushl ++ [.jmpAlltraps]

/-- The straight line a jump leads to. -/
def follow : List Instr → List Instr
  | [] => []
  | .jmpAlltraps :: _ => alltraps
  | i :: is => i :: follow is

/-- What runs from the gate of `vector` on. -/
def trapPath (vector : ℕ) : List Instr := follow (stub (trapHandlerArray.getD vector 0))

def Cpu.push (s : Cpu) (w : BitVec 32) : Cpu :=
  { s with esp := s.esp - 4, mem := s.mem.storeWord (s.esp - 4) w }

def Cpu.pushes (s : Cpu) (ws : List (BitVec 32)) : Cpu := ws.foldl Cpu.push s

def Cpu.setSegment (s : Cpu) (seg : Segment) (value : BitVec 16) : Cpu :=
  { s with segment := fun seg' => if seg' = seg then value else s.segment seg' }

/-- The word `k` places above the stack pointer. -/
def Cpu.top (s : Cpu) (k : ℕ) : BitVec 32 := s.mem.loadWord (s.esp + BitVec.ofNat 32 (4 * k))

/-- `popal` skips the word `pushal` stored for `esp`. -/
def Cpu.popal (s : Cpu) : Cpu :=
  { s with
    edi := s.top 0, esi := s.top 1, ebp := s.top 2, ebx := s.top 4, edx := s.top 5
    ecx := s.top 6, eax := s.top 7, esp := s.esp + 32 }

def Cpu.popSegment (s : Cpu) (seg : Segment) : Cpu :=
  { s.setSegment seg ((s.top 0).setWidth 16) with esp := s.esp + 4 }

/-- The return to the same privilege level. -/
def Cpu.iret (s : Cpu) : Cpu :=
  { s with eip := s.top 0, cs := (s.top 1).setWidth 16, eflags := s.top 2, esp := s.esp + 12 }

/-- The instructions that go on to the next one. -/
def Cpu.exec (upper : Segment → BitVec 16) (s : Cpu) : Instr → Option Cpu
  | .pushl imm => some (s.push imm)
  | .pushSegment seg => some (s.push (upper seg ++ s.segment seg))
  | .pushal => some (s.pushes [s.eax, s.ecx, s.edx, s.ebx, s.esp, s.ebp, s.esi, s.edi])
  | .movwAx imm => some { s with eax := s.eax.extractLsb' 16 16 ++ imm }
  | .movwSegment seg => some (s.setSegment seg (s.eax.setWidth 16))
  | .pushEsp => some (s.push s.esp)
  | .addlEsp imm => some { s with esp := s.esp + imm }
  | .popal => some s.popal
  | .popSegment seg => some (s.popSegment seg)
  | .callTrapHandler => none
  | .iret => none
  | .jmpAlltraps => none

/-- The state in which the handler is entered, and what is left to run then. -/
def runToCall (upper : Segment → BitVec 16) (returnAddress : BitVec 32) :
    List Instr → Cpu → Option (Cpu × List Instr)
  | [], _ => none
  | .callTrapHandler :: is, s => some (s.push returnAddress, is)
  | i :: is, s => (s.exec upper i).bind (runToCall upper returnAddress is)

/-- The state in which the interrupted program goes on. -/
def runToIret (upper : Segment → BitVec 16) : List Instr → Cpu → Option Cpu
  | [], _ => none
  | .iret :: _, s => some s.iret
  | i :: is, s => (s.exec upper i).bind (runToIret upper is)

/-- The vectors for which the processor pushes an error code. -/
def HasErrorCode (vector : ℕ) : Prop := vector ∈ [8, 10, 11, 12, 13, 14, 17]

instance (vector : ℕ) : Decidable (HasErrorCode vector) :=
  inferInstanceAs (Decidable (_ ∈ _))

/-- Delivery through an interrupt gate of the kernel's code segment: `IF`, `TF`,
`NT`, `RF` and `VM` are cleared after `eflags` is saved. -/
def deliver (vector : ℕ) (error : BitVec 32) (upper : BitVec 16) (s : Cpu) : Cpu :=
  let s := s.pushes ([s.eflags, upper ++ s.cs, s.eip] ++
    if HasErrorCode vector then [error] else [])
  { s with cs := 0x8, eflags := s.eflags &&& ~~~0x34300 }

/-- The named fields of `struct trapframe`. -/
structure Trapframe where
  edi : BitVec 32
  esi : BitVec 32
  ebp : BitVec 32
  oesp : BitVec 32
  ebx : BitVec 32
  edx : BitVec 32
  ecx : BitVec 32
  eax : BitVec 32
  gs : BitVec 16
  fs : BitVec 16
  es : BitVec 16
  ds : BitVec 16
  trapno : BitVec 32
  err : BitVec 32
  eip : BitVec 32
  cs : BitVec 16
  eflags : BitVec 32
  esp : BitVec 32
  ss : BitVec 16

/-- The structure at `tf`; every 16-bit member is followed by 16 bits of
padding. -/
def readTrapframe (m : Memory Addr) (tf : Addr) : Trapframe where
  edi := m.loadWord tf
  esi := m.loadWord (tf + 4)
  ebp := m.loadWord (tf + 8)
  oesp := m.loadWord (tf + 12)
  ebx := m.loadWord (tf + 16)
  edx := m.loadWord (tf + 20)
  ecx := m.loadWord (tf + 24)
  eax := m.loadWord (tf + 28)
  gs := m.loadHalf (tf + 32)
  fs := m.loadHalf (tf + 36)
  es := m.loadHalf (tf + 40)
  ds := m.loadHalf (tf + 44)
  trapno := m.loadWord (tf + 48)
  err := m.loadWord (tf + 52)
  eip := m.loadWord (tf + 56)
  cs := m.loadHalf (tf + 60)
  eflags := m.loadWord (tf + 64)
  esp := m.loadWord (tf + 68)
  ss := m.loadHalf (tf + 72)

/-- The part of the structure a trap of the same privilege level has. -/
def sameRingBytes : ℕ := 68

/-- The argument of the function entered in `s`. -/
def Cpu.argument (s : Cpu) : Addr := s.top 1

/-- What the handler finds in `tf` for a trap out of `s`. -/
structure Saves (vector : ℕ) (error : BitVec 32) (s : Cpu) (tf : Trapframe) : Prop where
  trapno : tf.trapno = BitVec.ofNat 32 vector
  err : tf.err = if HasErrorCode vector then error else 0
  eax : tf.eax = s.eax
  ebx : tf.ebx = s.ebx
  ecx : tf.ecx = s.ecx
  edx : tf.edx = s.edx
  esi : tf.esi = s.esi
  edi : tf.edi = s.edi
  ebp : tf.ebp = s.ebp
  ds : tf.ds = s.segment .ds
  es : tf.es = s.segment .es
  fs : tf.fs = s.segment .fs
  gs : tf.gs = s.segment .gs
  eip : tf.eip = s.eip
  cs : tf.cs = s.cs
  eflags : tf.eflags = s.eflags

/-- All registers of two states agree. -/
def SameRegisters (s s' : Cpu) : Prop := { s with mem := s'.mem } = s'

/-- A function of the C code entered in `s` may have returned in `s'`: it pops
its return address, keeps the registers cdecl makes it keep and the trap frame of
its argument, and leaves anything anywhere else. -/
structure CdeclReturn (s s' : Cpu) : Prop where
  esp : s'.esp = s.esp + 4
  ebx : s'.ebx = s.ebx
  esi : s'.esi = s.esi
  edi : s'.edi = s.edi
  ebp : s'.ebp = s.ebp
  frame : ∀ x, Within s.argument sameRingBytes x → s'.mem.byte x = s.mem.byte x

/-- The table is regular, and the error-code vectors are the shorter stubs. -/
theorem stubPushes_eq : stubPushes = (List.range 256).map fun vector =>
    if HasErrorCode vector then [BitVec.ofNat 32 vector] else [0, BitVec.ofNat 32 vector] := by
  decide +kernel

theorem trapHandlerArray_eq : trapHandlerArray = List.range 256 := by decide +kernel

theorem follow_pushes (ws : List (BitVec 32)) :
    follow (ws.map .pushl ++ [.jmpAlltraps]) = ws.map .pushl ++ alltraps := by
  induction ws with
  | nil => rfl
  | cons w ws ih =>
      rw [List.map_cons, List.cons_append, List.cons_append, ← ih]
      rfl

theorem trapPath_eq {vector : ℕ} (h : vector < 256) : trapPath vector =
    (if HasErrorCode vector then [BitVec.ofNat 32 vector] else [0, BitVec.ofNat 32 vector]).map
      Instr.pushl ++ alltraps := by
  have hlabel : trapHandlerArray.getD vector 0 = vector := by
    rw [trapHandlerArray_eq, List.getD_eq_getElem?_getD, List.getElem?_range h, Option.getD_some]
  rw [trapPath, hlabel, stub, stubPushes_eq, List.getD_eq_getElem?_getD, List.getElem?_map,
    List.getElem?_range h, Option.map_some, Option.getD_some, follow_pushes]

section Runs
variable {upper : Segment → BitVec 16} {returnAddress : BitVec 32} {s s' : Cpu}

theorem runToCall_pushes (ws : List (BitVec 32)) (is : List Instr) :
    runToCall upper returnAddress (ws.map .pushl ++ is) s =
      runToCall upper returnAddress is (s.pushes ws) := by
  induction ws generalizing s with
  | nil => rfl
  | cons w ws ih => exact @ih (s.push w)

theorem pushes_eq (s : Cpu) (ws : List (BitVec 32)) : s.pushes ws =
    { s with esp := slot s.esp ws.length, mem := pushWords s.mem s.esp ws } := by
  induction ws generalizing s with
  | nil =>
      rw [List.length_nil, slot_zero]
      rfl
  | cons w ws ih =>
      have hstep : s.pushes (w :: ws) = (s.push w).pushes ws := rfl
      rw [hstep, ih, Cpu.push, pushWords, List.length_cons]
      simp only [slot_next]

/-- A word at or above the stack pointer, counted from `sp` downwards. -/
theorem top_slot {sp : Addr} {n k : ℕ} (hesp : s.esp = slot sp n) (hk : k ≤ n) :
    s.top k = s.mem.loadWord (slot sp (n - k)) := by
  rw [Cpu.top, hesp, slot_add sp hk]

/-- `q` has popped the frame of `s` up to its last `n` words and has written
nothing. -/
structure Popped (s : Cpu) (sp : Addr) (n : ℕ) (q : Cpu) : Prop where
  esp : q.esp = slot sp n
  mem : q.mem = s.mem

theorem Popped.drop {sp : Addr} {n k : ℕ} {q : Cpu} (h : Popped s sp (n + k) q) :
    q.esp + BitVec.ofNat 32 (4 * k) = slot sp n := by
  rw [h.esp, slot_add sp (Nat.le_add_left k n), Nat.add_sub_cancel]

theorem Popped.popal {sp : Addr} {n : ℕ} {q : Cpu} (h : Popped s sp (n + 8) q) :
    Popped s sp n q.popal :=
  ⟨h.drop, h.mem⟩

theorem Popped.popSegment {sp : Addr} {n : ℕ} {q : Cpu} (h : Popped s sp (n + 1) q)
    (seg : Segment) : Popped s sp n (q.popSegment seg) :=
  ⟨@Popped.drop s sp n 1 q h, h.mem⟩

theorem Popped.top {sp : Addr} {n k : ℕ} {q : Cpu} (h : Popped s sp n q) (hk : k ≤ n) :
    q.top k = s.mem.loadWord (slot sp (n - k)) := by
  rw [top_slot h.esp hk, h.mem]

/-- `trapret` up to the last `popl`. -/
def restoreRegisters (s : Cpu) : Cpu :=
  (((s.popal.popSegment .gs).popSegment .fs).popSegment .es).popSegment .ds

theorem runToIret_trapret : runToIret upper trapret s =
    some ({ restoreRegisters s with esp := (restoreRegisters s).esp + 8 } : Cpu).iret :=
  rfl

theorem runToIret_addlEsp (imm : BitVec 32) (is : List Instr) :
    runToIret upper (.addlEsp imm :: is) s = runToIret upper is { s with esp := s.esp + imm } :=
  rfl

/-- `trapret` pops seventeen words, eleven of them into registers and four into
segment registers. -/
theorem trapret_pops {sp : Addr} {w : ℕ → BitVec 32} (hesp : s.esp = slot sp 17)
    (hmem : ∀ j < 17, s.mem.loadWord (slot sp (j + 1)) = w j) :
    runToIret upper trapret s = some { s with
      edi := w 16, esi := w 15, ebp := w 14, ebx := w 12, edx := w 11, ecx := w 10, eax := w 9
      segment := fun
        | .gs => (w 8).setWidth 16
        | .fs => (w 7).setWidth 16
        | .es => (w 6).setWidth 16
        | .ds => (w 5).setWidth 16
      eip := w 2, cs := (w 1).setWidth 16, eflags := w 0, esp := sp } := by
  have h17 : Popped s sp 17 s := ⟨hesp, rfl⟩
  have h9 : Popped s sp 9 s.popal := h17.popal
  have h8 : Popped s sp 8 (s.popal.popSegment .gs) := h9.popSegment .gs
  have h7 := h8.popSegment .fs
  have h6 := h7.popSegment .es
  have h5 : Popped s sp 5 (restoreRegisters s) := h6.popSegment .ds
  have h3 : Popped s sp 3 { restoreRegisters s with esp := (restoreRegisters s).esp + 8 } :=
    ⟨@Popped.drop s sp 3 2 _ h5, h5.mem⟩
  have hword : ∀ {n : ℕ} {q : Cpu} (k j : ℕ), Popped s sp n q → n - k = j + 1 → j < 17 →
      q.top k = w j := by
    intro n q k j hq hj hlt
    rw [hq.top (by omega), hj, hmem j hlt]
  rw [runToIret_trapret]
  apply congrArg some
  ext1
  · exact hword 7 9 h17 rfl (by decide)
  · exact hword 6 10 h17 rfl (by decide)
  · exact hword 5 11 h17 rfl (by decide)
  · exact hword 4 12 h17 rfl (by decide)
  · have hend := @Popped.drop s sp 0 3 _ h3
    rw [slot_zero] at hend
    exact hend
  · exact hword 2 14 h17 rfl (by decide)
  · exact hword 1 15 h17 rfl (by decide)
  · exact hword 0 16 h17 rfl (by decide)
  · have hgs := hword 0 8 h9 rfl (by decide)
    have hfs := hword 0 7 h8 rfl (by decide)
    have hes := hword 0 6 h7 rfl (by decide)
    have hds := hword 0 5 h6 rfl (by decide)
    rw [← hgs, ← hfs, ← hes, ← hds]
    funext seg
    cases seg <;> rfl
  · exact congrArg (BitVec.setWidth 16) (hword 1 1 h3 rfl (by decide))
  · exact hword 0 2 h3 rfl (by decide)
  · exact hword 2 0 h3 rfl (by decide)
  · rfl

/-- `alltraps` up to `pushal`. -/
def saveRegisters (upper : Segment → BitVec 16) (s : Cpu) : Cpu :=
  let s := s.pushes [upper .ds ++ s.segment .ds, upper .es ++ s.segment .es,
    upper .fs ++ s.segment .fs, upper .gs ++ s.segment .gs]
  s.pushes [s.eax, s.ecx, s.edx, s.ebx, s.esp, s.ebp, s.esi, s.edi]

/-- The state in which the handler is entered when the registers are saved. -/
def enterHandler (returnAddress : BitVec 32) (s : Cpu) : Cpu :=
  let s := { s with eax := s.eax.extractLsb' 16 16 ++ x86GdtSegDatak <<< 3 }
  let s := (s.setSegment .ds (s.eax.setWidth 16)).setSegment .es (s.eax.setWidth 16)
  (s.push s.esp).push returnAddress

theorem runToCall_alltraps : runToCall upper returnAddress alltraps s =
    some (enterHandler returnAddress (saveRegisters upper s), .addlEsp 4 :: trapret) :=
  rfl

end Runs

/-- The words of the trap frame, the highest first. -/
def frameWords (vector : ℕ) (error : BitVec 32) (upperCs : BitVec 16)
    (upper : Segment → BitVec 16) (s : Cpu) : List (BitVec 32) :=
  [s.eflags, upperCs ++ s.cs, s.eip, if HasErrorCode vector then error else 0,
    BitVec.ofNat 32 vector, upper .ds ++ s.segment .ds, upper .es ++ s.segment .es,
    upper .fs ++ s.segment .fs, upper .gs ++ s.segment .gs, s.eax, s.ecx, s.edx, s.ebx,
    slot s.esp 9, s.ebp, s.esi, s.edi]

/-- The state in which `trap_handler` is entered for a trap out of `s`. -/
structure Entered (words : List (BitVec 32)) (returnAddress : BitVec 32) (s sc : Cpu) : Prop where
  esp : sc.esp = slot s.esp 19
  mem : sc.mem = pushWords s.mem s.esp (words ++ [slot s.esp 17, returnAddress])

section Entry
variable (vector : ℕ) (error : BitVec 32) (upperCs : BitVec 16) (upper : Segment → BitVec 16)
  (returnAddress : BitVec 32) (s : Cpu)

/-- The processor and the stub together push five words for every vector. -/
theorem deliver_pushes : (deliver vector error upperCs s).pushes
      (if HasErrorCode vector then [BitVec.ofNat 32 vector] else [0, BitVec.ofNat 32 vector]) =
    { s.pushes [s.eflags, upperCs ++ s.cs, s.eip, if HasErrorCode vector then error else 0,
        BitVec.ofNat 32 vector] with cs := 0x8, eflags := s.eflags &&& ~~~0x34300 } := by
  by_cases h : HasErrorCode vector
  · simp only [deliver, if_pos h]
    rfl
  · simp only [deliver, if_neg h]
    rfl

theorem saveRegisters_eq : saveRegisters upper s =
    { s with
      esp := slot s.esp 12
      mem := pushWords s.mem s.esp [upper .ds ++ s.segment .ds, upper .es ++ s.segment .es,
        upper .fs ++ s.segment .fs, upper .gs ++ s.segment .gs, s.eax, s.ecx, s.edx, s.ebx,
        slot s.esp 4, s.ebp, s.esi, s.edi] } := by
  have hmem := pushWords_append s.mem s.esp [upper .ds ++ s.segment .ds,
    upper .es ++ s.segment .es, upper .fs ++ s.segment .fs, upper .gs ++ s.segment .gs]
    [s.eax, s.ecx, s.edx, s.ebx, slot s.esp 4, s.ebp, s.esi, s.edi]
  have hesp := slot_slot s.esp 4 8
  simp only [List.cons_append, List.nil_append, List.length_cons, List.length_nil] at hmem
  rw [saveRegisters, pushes_eq s, pushes_eq, hmem]
  simp only [List.length_cons, List.length_nil, hesp]

theorem enterHandler_eq : ∃ eax segment, enterHandler returnAddress s =
    { s with
      eax := eax, segment := segment
      esp := slot s.esp 2, mem := pushWords s.mem s.esp [s.esp, returnAddress] } := by
  have hesp : s.esp - 4 - 4 = slot s.esp 2 := by
    rw [← slot_slot s.esp 1 1]
    rfl
  exact ⟨_, _, by rw [← hesp]; rfl⟩

/-- The seventeen words of the frame are the interrupted registers. -/
theorem entered_trapPath (h : vector < 256) : ∃ sc,
    runToCall upper returnAddress (trapPath vector) (deliver vector error upperCs s) =
      some (sc, .addlEsp 4 :: trapret) ∧
    Entered (frameWords vector error upperCs upper s) returnAddress s sc := by
  rw [trapPath_eq h, runToCall_pushes, runToCall_alltraps, deliver_pushes]
  refine ⟨_, rfl, ?_⟩
  generalize hpushed : ({ s.pushes _ with cs := 0x8, eflags := _ } : Cpu) = p
  obtain ⟨eax, segment, henter⟩ := enterHandler_eq returnAddress (saveRegisters upper p)
  rw [henter, saveRegisters_eq, ← hpushed, pushes_eq]
  have hframe := pushWords_append s.mem s.esp
    [s.eflags, upperCs ++ s.cs, s.eip, if HasErrorCode vector then error else 0,
      BitVec.ofNat 32 vector]
    [upper .ds ++ s.segment .ds, upper .es ++ s.segment .es, upper .fs ++ s.segment .fs,
      upper .gs ++ s.segment .gs, s.eax, s.ecx, s.edx, s.ebx, slot s.esp 9, s.ebp, s.esi, s.edi]
  have hcall := pushWords_append s.mem s.esp
    (frameWords vector error upperCs upper s) [slot s.esp 17, returnAddress]
  constructor
  · exact (congrArg (slot · 2) (slot_slot s.esp 5 12)).trans (slot_slot s.esp 17 2)
  · simp only [List.length_cons, List.length_nil, slot_slot]
    rw [hcall]
    exact congrArg (pushWords · (slot s.esp 17) [slot s.esp 17, returnAddress]) hframe.symm

end Entry

section Frame
variable {words : List (BitVec 32)} {returnAddress : BitVec 32} {s sc : Cpu}

theorem Entered.word (h : Entered words returnAddress s sc) (hlen : words.length = 17) {k : ℕ}
    {w : BitVec 32} (hw : (words ++ [slot s.esp 17, returnAddress])[k]? = some w) :
    sc.mem.loadWord (slot s.esp (k + 1)) = w := by
  have hbound : 4 * (words ++ [slot s.esp 17, returnAddress]).length ≤ 2 ^ 32 := by
    simp [hlen]
  rw [h.mem]
  exact pushWords_load _ _ _ hbound hw

/-- The argument points to the last word of the frame. -/
theorem Entered.argument_eq (h : Entered words returnAddress s sc) (hlen : words.length = 17) :
    sc.argument = slot s.esp 17 := by
  have hword : (words ++ [slot s.esp 17, returnAddress])[17]? = some (slot s.esp 17) := by
    simp [hlen]
  have hslot : 19 - 1 = 17 + 1 := rfl
  rw [Cpu.argument, top_slot h.esp (by decide), hslot, h.word hlen hword]

/-- The word at an offset in `struct trapframe`. -/
theorem Entered.field (h : Entered words returnAddress s sc) (hlen : words.length = 17) {j : ℕ}
    (hj : j < 17) {w : BitVec 32} (hw : words[16 - j]? = some w) :
    sc.mem.loadWord (sc.argument + BitVec.ofNat 32 (4 * j)) = w := by
  have hword : (words ++ [slot s.esp 17, returnAddress])[16 - j]? = some w := by
    rw [List.getElem?_append_left (by omega), hw]
  have hslot : 17 - j = 16 - j + 1 := by omega
  rw [h.argument_eq hlen, slot_add _ (Nat.le_of_lt hj), hslot, h.word hlen hword]

end Frame

theorem setWidth_append_half (upper half : BitVec 16) : (upper ++ half).setWidth 16 = half := by
  rw [BitVec.setWidth_append]
  simp

/-- `alltraps` leaves the data segment of the kernel in `ds` and `es`. -/
theorem called_segments {vector : ℕ} {upper : Segment → BitVec 16} {returnAddress : BitVec 32}
    {s sc : Cpu} {rest : List Instr} (h : vector < 256)
    (hrun : runToCall upper returnAddress (trapPath vector) s = some (sc, rest)) :
    ∀ seg ∈ [Segment.ds, .es], sc.segment seg = x86GdtSegDatak <<< 3 := by
  rw [trapPath_eq h, runToCall_pushes, runToCall_alltraps] at hrun
  cases hrun
  intro seg hseg
  simp only [List.mem_cons, List.not_mem_nil, or_false] at hseg
  obtain rfl | rfl := hseg
  · exact setWidth_append_half _ _
  · exact setWidth_append_half _ _

/-- A half word is the lower half of the word. -/
theorem loadHalf_of_word {m : Memory Addr} {a : Addr} {upper half : BitVec 16}
    (h : m.loadWord a = upper ++ half) : m.loadHalf a = half := by
  have hlow : m.loadHalf a = (m.loadWord a).setWidth 16 := by
    unfold Memory.loadHalf Memory.loadWord
    apply BitVec.eq_of_getLsbD_eq
    intro i hi
    have hsecond : ¬ i < 8 → i - 8 < 8 := by omega
    simp only [BitVec.getLsbD_setWidth, BitVec.getLsbD_append]
    split <;> simp_all
  rw [hlow, h, setWidth_append_half]

theorem Entered.saves {vector : ℕ} {error : BitVec 32} {upperCs : BitVec 16}
    {upper : Segment → BitVec 16} {returnAddress : BitVec 32} {s sc : Cpu}
    (h : Entered (frameWords vector error upperCs upper s) returnAddress s sc) :
    Saves vector error s (readTrapframe sc.mem sc.argument) := by
  have hfield : ∀ j w, j < 17 → (frameWords vector error upperCs upper s)[16 - j]? = some w →
      sc.mem.loadWord (sc.argument + BitVec.ofNat 32 (4 * j)) = w :=
    fun j w hj hw => h.field rfl hj hw
  constructor
  · exact hfield 12 _ (by decide) rfl
  · exact hfield 13 _ (by decide) rfl
  · exact hfield 7 _ (by decide) rfl
  · exact hfield 4 _ (by decide) rfl
  · exact hfield 6 _ (by decide) rfl
  · exact hfield 5 _ (by decide) rfl
  · exact hfield 1 _ (by decide) rfl
  · rw [← hfield 0 _ (by decide) rfl]
    simp [readTrapframe]
  · exact hfield 2 _ (by decide) rfl
  · exact loadHalf_of_word (hfield 11 _ (by decide) rfl)
  · exact loadHalf_of_word (hfield 10 _ (by decide) rfl)
  · exact loadHalf_of_word (hfield 9 _ (by decide) rfl)
  · exact loadHalf_of_word (hfield 8 _ (by decide) rfl)
  · exact hfield 14 _ (by decide) rfl
  · exact loadHalf_of_word (hfield 15 _ (by decide) rfl)
  · exact hfield 16 _ (by decide) rfl

/-- The handler's return leaves the words of the frame where `trapret` reads
them. -/
theorem Entered.returned {words : List (BitVec 32)} {returnAddress : BitVec 32} {s sc s₁ : Cpu}
    (h : Entered words returnAddress s sc) (hlen : words.length = 17) (hret : CdeclReturn sc s₁) :
    s₁.esp + 4 = slot s.esp 17 ∧
    ∀ k < 17, s₁.mem.loadWord (slot s.esp (k + 1)) = words.getD k 0 := by
  constructor
  · have hslot := @slot_add s.esp 19 2 (by decide)
    rw [hret.esp, h.esp, BitVec.add_assoc]
    exact hslot
  · intro k hk
    have hword : (words ++ [slot s.esp 17, returnAddress])[k]? = some (words.getD k 0) := by
      rw [List.getElem?_append_left (by omega), List.getD_eq_getElem?_getD,
        List.getElem?_eq_getElem (by omega), Option.getD_some]
    have hframe : ∀ x, Within (slot s.esp (k + 1)) 4 x → Within sc.argument sameRingBytes x := by
      intro x hx
      rw [h.argument_eq hlen]
      exact within_slot hk hx
    rw [← h.word hlen hword]
    exact Memory.loadWord_congr fun x hx => hret.frame x (hframe x hx)

/-- A trap of any vector saves every register in the field of its name, and after
the handler the interrupted program goes on with all of them. -/
theorem trap_is_transparent {vector : ℕ} (h : vector < 256) (error : BitVec 32)
    (upperCs : BitVec 16) (upper : Segment → BitVec 16) (returnAddress : BitVec 32) (s : Cpu) :
    ∃ sc rest, runToCall upper returnAddress (trapPath vector)
        (deliver vector error upperCs s) = some (sc, rest) ∧
      Saves vector error s (readTrapframe sc.mem sc.argument) ∧
      ∀ s₁, CdeclReturn sc s₁ → ∃ s', runToIret upper rest s₁ = some s' ∧ SameRegisters s s' := by
  obtain ⟨sc, hcall, hentered⟩ := entered_trapPath vector error upperCs upper returnAddress s h
  refine ⟨sc, .addlEsp 4 :: trapret, hcall, hentered.saves, fun s₁ hret => ?_⟩
  obtain ⟨hesp, hwords⟩ := hentered.returned rfl hret
  have hrun := @trapret_pops upper { s₁ with esp := s₁.esp + 4 } s.esp _ hesp hwords
  rw [← runToIret_addlEsp] at hrun
  refine ⟨_, hrun, ?_⟩
  ext1
  · rfl
  · rfl
  · rfl
  · rfl
  · rfl
  · rfl
  · rfl
  · rfl
  · funext seg
    cases seg with
    | ds => exact (setWidth_append_half _ _).symm
    | es => exact (setWidth_append_half _ _).symm
    | fs => exact (setWidth_append_half _ _).symm
    | gs => exact (setWidth_append_half _ _).symm
  · exact (setWidth_append_half _ _).symm
  · rfl
  · rfl
  · rfl

/-- A page fault whose handler clobbers `eax` and the data segments. -/
theorem trap_is_transparent_page_fault :
    let s : Cpu :=
      { eax := 1, ecx := 2, edx := 3, ebx := 4, esp := 0x9000, ebp := 5, esi := 6, edi := 7
        segment := fun _ => 0x10, cs := 0x8, eip := 0x100000, eflags := 0x202
        mem := { byte := fun _ => 0, written := [] } }
    ∃ sc rest s₁ s', runToCall (fun _ => 0) 0x100020 (trapPath 14) (deliver 14 2 0 s) =
        some (sc, rest) ∧
      Saves 14 2 s (readTrapframe sc.mem sc.argument) ∧
      s₁ = { sc with esp := sc.esp + 4, eax := 8, segment := fun _ => 0 } ∧
      runToIret (fun _ => 0) rest s₁ = some s' ∧ SameRegisters s s' := by
  intro s
  obtain ⟨sc, rest, hcall, hsaves, hreturn⟩ :=
    trap_is_transparent (show 14 < 256 by decide) 2 0 (fun _ => 0) 0x100020 s
  have hcdecl : CdeclReturn sc { sc with esp := sc.esp + 4, eax := 8, segment := fun _ => 0 } :=
    ⟨rfl, rfl, rfl, rfl, rfl, fun _ _ => rfl⟩
  obtain ⟨s', hrun, hsame⟩ := hreturn _ hcdecl
  exact ⟨sc, rest, _, s', hcall, hsaves, rfl, hrun, hsame⟩

end Yack.TrapEntry
