import Yack.Memop
import Yack.MemoryLayout
import Yack.SerialPort

/-!
# The console of `kernel/io/write.c`

Video memory is the part of memory behind `buffer`, two bytes a cell. The cursor
registers of the display controller are behind a pair of ports. A trace next to
them says when the screen was cleared and which bytes were put, newest first.

What the driver is for is a sheet of 80 columns without an end: a byte goes to
the cursor, and the last 25 rows are on the screen. The driver keeps only these
rows, and clears the screen by noticing that the cursor is at the origin, so the
simulation has to know that the cursor never comes back there.
-/
namespace Yack.VgaConsole
open ByteMemory MemoryLayout Memop SerialPort

def maxRows : ℕ := 25
def maxCols : ℕ := 80
def vgaMemoryAddress : Addr := 0xB8000
def vgaColorLightGrey : BitVec 16 := 7
def vgaColorBlack : BitVec 16 := 0

/-- `TO_VGA`; `char` is signed. -/
def toVga (c : Byte) : BitVec 16 :=
  c.signExtend 16 ||| (vgaColorLightGrey ||| vgaColorBlack <<< 4) <<< 8

def buffer : Addr := mmVirtaddr vgaMemoryAddress

/-- `&buffer[i]`. -/
def cellAddr (i : ℕ) : Addr := buffer + BitVec.ofNat 32 (2 * i)

def space : Byte := 0x20
def newline : Byte := 0x0A

/-- The index register and the registers of the display controller. -/
structure Crtc where
  command : Byte
  registers : Byte → Byte

def fbCommandPort : BitVec 16 := 0x3D4
def fbDataPort : BitVec 16 := 0x3D5
def fbHighByteCommand : Byte := 14
def fbLowByteCommand : Byte := 15

def Crtc.outb (crtc : Crtc) (port : BitVec 16) (value : Byte) : Crtc :=
  if port = fbCommandPort then { crtc with command := value }
  else if port = fbDataPort then
    { crtc with registers := Function.update crtc.registers crtc.command value }
  else crtc

def Crtc.cursor (crtc : Crtc) : BitVec 16 :=
  crtc.registers fbHighByteCommand ++ crtc.registers fbLowByteCommand

inductive Event where
  | cleared
  | put (c : Byte)
  deriving DecidableEq, Repr

structure Console where
  mem : Memory Addr
  col : ℕ
  row : ℕ
  crtc : Crtc
  trace : List Event

def moveCursor_ (pos : BitVec 16) (crtc : Crtc) : Crtc :=
  let crtc := crtc.outb fbCommandPort fbHighByteCommand
  let crtc := crtc.outb fbDataPort (((pos >>> 8) &&& 0x00FF).setWidth 8)
  let crtc := crtc.outb fbCommandPort fbLowByteCommand
  crtc.outb fbDataPort ((pos &&& 0x00FF).setWidth 8)

/-- `for (...; i++) buffer[i] = TO_VGA(' ')`, `count` times. -/
def fillCells : ℕ → ℕ → Memory Addr → Memory Addr
  | 0, _, m => m
  | count + 1, i, m => fillCells count (i + 1) (m.storeHalf (cellAddr i) (toVga space))

def initBuffer_ (con : Console) : Console :=
  { con with
    mem := fillCells (maxCols * maxRows) 0 con.mem
    col := 0
    row := 0
    trace := .cleared :: con.trace }

def newLine_ (con : Console) : Console :=
  let con := { con with col := 0, row := con.row + 1 }
  if con.row = maxRows then
    let mem := (memmove con.mem buffer (cellAddr maxCols) (2 * (maxCols * (maxRows - 1)))).2
    let con := { con with mem, row := con.row - 1 }
    { con with mem := fillCells maxCols (con.row * maxCols) con.mem }
  else con

def advance_ (con : Console) : Console :=
  let con := { con with col := con.col + 1 }
  if con.col = maxCols then newLine_ con else con

def putchar (c : Byte) (con : Console) : Console :=
  let con := if con.col = 0 ∧ con.row = 0 then initBuffer_ con else con
  let con := { con with trace := .put c :: con.trace }
  let con :=
    if c = newline then newLine_ con
    else advance_ { con with
      mem := con.mem.storeHalf (cellAddr (con.row * maxCols + con.col)) (toVga c) }
  { con with crtc := moveCursor_ (BitVec.ofNat 16 (con.row * maxCols + con.col)) con.crtc }

/-- The console and the serial port `write` goes to. -/
structure Io where
  console : Console
  serial : Serial

def write (str : List Byte) (io : Io) : Option (ℤ × Io) := do
  let (_, serial) ← serialWrite str io.serial
  return (str.length, { console := str.foldl (fun con c => putchar c con) io.console, serial })

/-- Calls of `write`, one after the other. -/
def writeAll : List (List Byte) → Io → Option Io
  | [], io => some io
  | str :: strs, io => do
      let (_, io) ← write str io
      writeAll strs io

/-- An unbounded terminal: its text and its cursor. -/
structure Sheet where
  text : ℕ → ℕ → Byte
  row : ℕ
  col : ℕ

def Sheet.blank : Sheet := ⟨fun _ _ => space, 0, 0⟩

def Sheet.put (sheet : Sheet) (c : Byte) : Sheet :=
  if c = newline then { sheet with row := sheet.row + 1, col := 0 }
  else
    let text := fun r j => if r = sheet.row ∧ j = sheet.col then c else sheet.text r j
    if sheet.col + 1 = 80 then ⟨text, sheet.row + 1, 0⟩ else ⟨text, sheet.row, sheet.col + 1⟩

def Sheet.layout (bytes : List Byte) : Sheet := bytes.foldl Sheet.put .blank

/-- The cursor is in a column and nothing is written at it or behind it. -/
structure Sheet.Tidy (sheet : Sheet) : Prop where
  col : sheet.col < 80
  blank : ∀ r j, sheet.row < r ∨ r = sheet.row ∧ sheet.col ≤ j → sheet.text r j = space

theorem Sheet.blank_tidy : Sheet.blank.Tidy := ⟨by decide, fun _ _ _ => rfl⟩

theorem Sheet.Tidy.put {sheet : Sheet} (h : sheet.Tidy) (c : Byte) : (sheet.put c).Tidy := by
  have hcol := h.col
  rw [Sheet.put]
  split_ifs with hc hlast
  · refine ⟨Nat.zero_lt_succ 79, ?_⟩
    intro r j hr
    exact h.blank r j (.inl (by simp only at hr; omega))
  · refine ⟨Nat.zero_lt_succ 79, ?_⟩
    intro r j hr
    simp only at hr ⊢
    rw [if_neg (by omega)]
    exact h.blank r j (.inl (by omega))
  · refine ⟨by simp only; omega, ?_⟩
    intro r j hr
    simp only at hr ⊢
    rw [if_neg (by omega)]
    exact h.blank r j (by omega)

/-- Once a byte is laid out the cursor has left the origin. -/
theorem Sheet.put_started (sheet : Sheet) (c : Byte) :
    (sheet.put c).row ≠ 0 ∨ (sheet.put c).col ≠ 0 := by
  rw [Sheet.put]
  split_ifs
  · exact .inl (Nat.succ_ne_zero _)
  · exact .inl (Nat.succ_ne_zero _)
  · exact .inr (Nat.succ_ne_zero _)

/-- What a cell holds: a character and its attribute byte. -/
def cell (m : Memory Addr) (i : ℕ) : BitVec 16 := m.loadHalf (cellAddr i)

/-- The character of a cell: its low byte. -/
def character (m : Memory Addr) (i : ℕ) : Byte := (m.loadHalf (cellAddr i)).extractLsb' 0 8

theorem cellAddr_toNat {i : ℕ} (hi : i < 2000) : (cellAddr i).toNat = 0x800B8000 + 2 * i := by
  have hbase : buffer.toNat = 0x800B8000 := by decide
  rw [cellAddr, BitVec.toNat_add, BitVec.toNat_ofNat, hbase]
  omega

theorem toVga_character (c : Byte) : (toVga c).extractLsb' 0 8 = c := by
  revert c
  decide

theorem cell_storeHalf (m : Memory Addr) {i j : ℕ} (hi : i < 2000) (hj : j < 2000)
    (h : BitVec 16) : cell (m.storeHalf (cellAddr i) h) j = if j = i then h else cell m j := by
  by_cases heq : j = i
  · subst j
    rw [if_pos rfl]
    exact m.loadHalf_storeHalf _ h
  · rw [if_neg heq]
    refine Memory.loadHalf_congr fun x hx => (m.frame_storeHalf (cellAddr i) h).1 x fun hx' => ?_
    have hi' := cellAddr_toNat hi
    have hj' := cellAddr_toNat hj
    unfold Within at hx hx'
    bv_omega

theorem character_storeHalf (m : Memory Addr) {i j : ℕ} (hi : i < 2000) (hj : j < 2000)
    (h : BitVec 16) : character (m.storeHalf (cellAddr i) h) j =
      if j = i then h.extractLsb' 0 8 else character m j := by
  have hcell := congrArg (BitVec.extractLsb' 0 8) (cell_storeHalf m hi hj h)
  rwa [apply_ite (BitVec.extractLsb' 0 8)] at hcell

/-- The bytes of video memory. -/
def VideoMemory (x : Addr) : Prop := Within buffer 4000 x

theorem within_cell {i : ℕ} (hi : i < 2000) {x : Addr} (hx : Within (cellAddr i) 2 x) :
    VideoMemory x := by
  have hbase : buffer.toNat = 0x800B8000 := by decide
  have hi' := cellAddr_toNat hi
  unfold VideoMemory Within at *
  bv_omega

theorem fillCells_cell (count i : ℕ) (m : Memory Addr) (hi : i + count ≤ 2000) {j : ℕ}
    (hj : j < 2000) : cell (fillCells count i m) j =
      if i ≤ j ∧ j < i + count then toVga space else cell m j := by
  induction count generalizing i m with
  | zero => rw [fillCells, if_neg (by omega)]
  | succ count ih =>
      rw [fillCells, ih (i + 1) _ (by omega), cell_storeHalf _ (by omega) hj]
      by_cases heq : j = i
      · rw [if_neg (by omega), if_pos heq, if_pos (by omega)]
      · rw [if_neg heq]
        exact if_congr (by omega) rfl rfl

theorem fillCells_character (count i : ℕ) (m : Memory Addr) (hi : i + count ≤ 2000) {j : ℕ}
    (hj : j < 2000) : character (fillCells count i m) j =
      if i ≤ j ∧ j < i + count then space else character m j := by
  have hcell := congrArg (BitVec.extractLsb' 0 8) (fillCells_cell count i m hi hj)
  rwa [apply_ite (BitVec.extractLsb' 0 8), toVga_character] at hcell

theorem fillCells_frame (count i : ℕ) (m : Memory Addr) (hi : i + count ≤ 2000) :
    m.Frame (fillCells count i m) VideoMemory := by
  induction count generalizing i m with
  | zero => exact Memory.Frame.refl m _
  | succ count ih =>
      have hfirst := (m.frame_storeHalf (cellAddr i) (toVga space)).mono
        fun x hx => within_cell (show i < 2000 by omega) hx
      exact hfirst.trans (ih (i + 1) _ (by omega))

/-- The scroll of `new_line_`. -/
def scrolled (m : Memory Addr) : Memory Addr :=
  (memmove m buffer (cellAddr maxCols) (2 * (maxCols * (maxRows - 1)))).2

theorem scrolled_eq (m : Memory Addr) :
    scrolled m = memcpyLoop 3840 buffer (cellAddr 80) m := by
  have hlt : buffer < cellAddr 80 := by decide
  have hsize : 2 * (maxCols * (maxRows - 1)) = 3840 := by decide
  rw [scrolled, hsize, maxCols, memmove, if_pos hlt, memcpy]

/-- Every row but the last holds the row below it. -/
theorem scrolled_cell (m : Memory Addr) {j : ℕ} (hj : j < 1920) :
    cell (scrolled m) j = cell m (j + 80) := by
  have hbase : buffer.toNat = 0x800B8000 := by decide
  have hsrc : (cellAddr 80).toNat = 0x800B8000 + 160 := cellAddr_toNat (by decide)
  have hdst : ∀ k, cellAddr j + BitVec.ofNat 32 k = buffer + BitVec.ofNat 32 (2 * j + k) := by
    intro k
    rw [cellAddr, BitVec.ofNat_add, BitVec.add_assoc]
  have hnext : ∀ k, cellAddr (j + 80) + BitVec.ofNat 32 k =
      cellAddr 80 + BitVec.ofNat 32 (2 * j + k) := by
    intro k
    rw [cellAddr, cellAddr, Nat.mul_add, Nat.add_comm (2 * j), BitVec.ofNat_add, BitVec.ofNat_add]
    simp only [BitVec.add_assoc]
  have hbyte : ∀ k < 2, ∀ x y, cellAddr j + BitVec.ofNat 32 k = x →
      cellAddr (j + 80) + BitVec.ofNat 32 k = y → (scrolled m).byte x = m.byte y := by
    rintro k hk x y rfl rfl
    rw [hdst k, hnext k, scrolled_eq]
    exact memcpyLoop_byte 3840 buffer (cellAddr 80) m (by omega) (by omega) (2 * j + k) (by omega)
  have hlow : (scrolled m).byte (cellAddr j) = m.byte (cellAddr (j + 80)) :=
    hbyte 0 Nat.zero_lt_two _ _ (BitVec.add_zero (cellAddr j)) (BitVec.add_zero (cellAddr (j + 80)))
  have hhigh : (scrolled m).byte (cellAddr j + 1) = m.byte (cellAddr (j + 80) + 1) :=
    hbyte 1 Nat.one_lt_two _ _ rfl rfl
  rw [cell, Memory.loadHalf, hlow, hhigh]
  rfl

theorem scrolled_character (m : Memory Addr) {j : ℕ} (hj : j < 1920) :
    character (scrolled m) j = character m (j + 80) :=
  congrArg (BitVec.extractLsb' 0 8) (scrolled_cell m hj)

theorem scrolled_frame (m : Memory Addr) : m.Frame (scrolled m) VideoMemory := by
  rw [scrolled_eq]
  refine (memcpyLoop_frame 3840 buffer (cellAddr 80) m (by decide)).mono ?_
  intro x hx
  unfold VideoMemory Within at *
  omega

/-- The driver's cursor and cells show the end of the sheet. -/
structure Shows (con : Console) (sheet : Sheet) : Prop where
  col : con.col = sheet.col
  row : con.row = min sheet.row 24
  cells : ∀ k < 25, ∀ j < 80,
    character con.mem (k * 80 + j) = sheet.text (k + (sheet.row - 24)) j

section Steps
variable {con : Console} {sheet : Sheet}

/-- `new_line_` only needs the row: it does not look at the column. -/
theorem newLine_shows (htidy : ∀ r j, sheet.row < r → sheet.text r j = space)
    (hrow : con.row = min sheet.row 24)
    (hcells : ∀ k < 25, ∀ j < 80,
      character con.mem (k * 80 + j) = sheet.text (k + (sheet.row - 24)) j) :
    Shows (newLine_ con) { sheet with row := sheet.row + 1, col := 0 } := by
  by_cases hfull : con.row + 1 = 25
  · have hrun : newLine_ con = { con with
        mem := fillCells 80 (24 * 80) (scrolled con.mem), col := 0, row := con.row } := by
      have hrow' : con.row = 24 := by omega
      simp only [newLine_, maxRows, if_true, Nat.add_sub_cancel, hrow']
      rfl
    rw [hrun]
    refine ⟨rfl, by simp only; omega, ?_⟩
    intro k hk j hj
    simp only
    rw [fillCells_character 80 (24 * 80) _ (by omega) (by omega)]
    by_cases hlast : k = 24
    · rw [if_pos (by omega), htidy _ _ (by omega)]
    · rw [if_neg (by omega), scrolled_character _ (by omega),
        show k * 80 + j + 80 = (k + 1) * 80 + j by omega, hcells (k + 1) (by omega) j hj]
      congr 1
      omega
  · have hrun : newLine_ con = { con with col := 0, row := con.row + 1 } := by
      simp only [newLine_, maxRows, hfull, if_false]
    rw [hrun]
    refine ⟨rfl, by simp only; omega, ?_⟩
    intro k hk j hj
    simp only
    rw [hcells k hk j hj]
    congr 1
    omega

theorem newLine_frame (con : Console) :
    con.mem.Frame (newLine_ con).mem VideoMemory ∧ (newLine_ con).trace = con.trace := by
  by_cases hfull : con.row + 1 = 25
  · simp only [newLine_, maxRows, hfull, if_true, and_true]
    exact (scrolled_frame con.mem).trans (fillCells_frame 80 _ _ (by simp only [maxCols]; omega))
  · simp only [newLine_, maxRows, hfull, if_false, and_true]
    exact Memory.Frame.refl _ _

theorem shows_row_le (h : Shows con sheet) : con.row ≤ 24 := by
  have := h.row
  omega

/-- `buffer[row * MAX_COLS + col] = TO_VGA(c)`. -/
def placed (c : Byte) (con : Console) : Console :=
  { con with mem := con.mem.storeHalf (cellAddr (con.row * maxCols + con.col)) (toVga c) }

/-- Placing a byte at the cursor is placing it on the sheet. -/
theorem placed_cells (h : Shows con sheet) (htidy : sheet.Tidy) (c : Byte) :
    ∀ k < 25, ∀ j < 80, character (placed c con).mem (k * 80 + j) =
      if k + (sheet.row - 24) = sheet.row ∧ j = sheet.col then c
      else sheet.text (k + (sheet.row - 24)) j := by
  intro k hk j hj
  have hrow := h.row
  have hcol := htidy.col
  simp only [placed, maxCols]
  rw [character_storeHalf _ (by rw [h.col]; omega) (by omega), toVga_character, h.col,
    h.cells k hk j hj]
  refine if_congr ?_ rfl rfl
  constructor <;> intro heq <;> omega

theorem advance_shows (h : Shows con sheet) (htidy : sheet.Tidy) {c : Byte} (hc : c ≠ newline) :
    Shows (advance_ (placed c con)) (sheet.put c) := by
  have hplaced := placed_cells h htidy c
  have hcol : (placed c con).col = sheet.col := h.col
  rw [Sheet.put, if_neg hc]
  by_cases hlast : sheet.col + 1 = 80
  · have hrun : advance_ (placed c con) =
        newLine_ { placed c con with col := (placed c con).col + 1 } := by
      simp only [advance_, maxCols, hcol, hlast, if_true]
    rw [hrun, if_pos hlast]
    have hblank : ∀ r j, sheet.row < r →
        (if r = sheet.row ∧ j = sheet.col then c else sheet.text r j) = space := by
      intro r j hr
      rw [if_neg (by omega), htidy.blank r j (.inl hr)]
    exact @newLine_shows { placed c con with col := (placed c con).col + 1 }
      ⟨fun r j => if r = sheet.row ∧ j = sheet.col then c else sheet.text r j, sheet.row,
        sheet.col⟩ hblank h.row hplaced
  · have hrun : advance_ (placed c con) =
        { placed c con with col := (placed c con).col + 1 } := by
      simp only [advance_, maxCols, hcol, hlast, if_false]
    rw [hrun, if_neg hlast]
    exact ⟨by simp only [hcol], h.row, hplaced⟩

theorem placed_frame (h : Shows con sheet) (htidy : sheet.Tidy) (c : Byte) :
    con.mem.Frame (placed c con).mem VideoMemory := by
  have hrow := shows_row_le h
  have hcol := htidy.col
  refine (con.mem.frame_storeHalf _ _).mono fun x hx => within_cell ?_ hx
  rw [h.col, maxCols]
  omega

theorem advance_frame (con : Console) :
    con.mem.Frame (advance_ con).mem VideoMemory ∧ (advance_ con).trace = con.trace := by
  rw [advance_]
  split_ifs
  · exact newLine_frame { con with col := con.col + 1 }
  · exact ⟨Memory.Frame.refl _ _, rfl⟩

end Steps

theorem low_byte (x : BitVec 16) : (x &&& 0x00FF).setWidth 8 = x.setWidth 8 := by
  apply BitVec.eq_of_getLsbD_eq
  intro k hk
  have hmask : (0x00FF : BitVec 16).getLsbD k = decide (k < 8) := mask_getLsbD 16 8 k (by decide)
  rw [BitVec.getLsbD_setWidth, BitVec.getLsbD_setWidth, BitVec.getLsbD_and, hmask]
  simp [hk]

theorem moveCursor_cursor (pos : BitVec 16) (crtc : Crtc) :
    (moveCursor_ pos crtc).cursor = pos := by
  have hregisters : (moveCursor_ pos crtc).cursor =
      ((pos >>> 8) &&& 0x00FF).setWidth 8 ++ (pos &&& 0x00FF).setWidth 8 := by
    simp [moveCursor_, Crtc.cursor, Crtc.outb, fbCommandPort, fbDataPort, fbHighByteCommand,
      fbLowByteCommand]
  rw [hregisters, low_byte, low_byte]
  apply BitVec.eq_of_getLsbD_eq
  intro k hk
  rw [BitVec.getLsbD_append, BitVec.getLsbD_setWidth, BitVec.getLsbD_setWidth,
    BitVec.getLsbD_ushiftRight]
  by_cases hlow : k < 8
  · simp [hlow]
  · simp [hlow, show k - 8 < 8 by omega, show 8 + (k - 8) = k by omega]

/-- The console once the test for the origin is done. -/
def afterTest (con : Console) : Console :=
  if con.col = 0 ∧ con.row = 0 then initBuffer_ con else con

section Putchar
variable {con : Console} {sheet : Sheet}

theorem initBuffer_mem (con : Console) : (initBuffer_ con).mem = fillCells 2000 0 con.mem := by
  have hcount : maxCols * maxRows = 2000 := by decide
  simp only [initBuffer_, hcount]

theorem initBuffer_shows (con : Console) : Shows (initBuffer_ con) .blank := by
  refine ⟨rfl, rfl, ?_⟩
  intro k hk j hj
  rw [initBuffer_mem, fillCells_character 2000 0 con.mem (by decide) (by omega),
    if_pos (by omega), Sheet.blank]

theorem initBuffer_frame (con : Console) :
    con.mem.Frame (initBuffer_ con).mem VideoMemory := by
  rw [initBuffer_mem]
  exact fillCells_frame 2000 0 con.mem (by decide)

theorem putchar_eq (c : Byte) (con : Console) : putchar c con =
    let con₁ := { afterTest con with trace := .put c :: (afterTest con).trace }
    let con₂ := if c = newline then newLine_ con₁ else advance_ (placed c con₁)
    { con₂ with
      crtc := moveCursor_ (BitVec.ofNat 16 (con₂.row * maxCols + con₂.col)) con₂.crtc } := rfl

/-- The step lemma, behind the test for the origin. -/
theorem putchar_shows (h : Shows (afterTest con) sheet) (htidy : sheet.Tidy) (c : Byte) :
    Shows (putchar c con) (sheet.put c) ∧
      (afterTest con).mem.Frame (putchar c con).mem VideoMemory ∧
      (putchar c con).trace = .put c :: (afterTest con).trace ∧
      (putchar c con).crtc.cursor =
        BitVec.ofNat 16 ((putchar c con).row * maxCols + (putchar c con).col) := by
  rw [putchar_eq]
  generalize hcon : ({ afterTest con with trace := .put c :: (afterTest con).trace } : Console) =
    con₁
  have hmem : con₁.mem = (afterTest con).mem := by rw [← hcon]
  have htrace : con₁.trace = .put c :: (afterTest con).trace := by rw [← hcon]
  have h₁ : Shows con₁ sheet := by
    rw [← hcon]
    exact ⟨h.col, h.row, h.cells⟩
  rw [← hmem, ← htrace]
  by_cases hc : c = newline
  · have hshows := newLine_shows (fun r j hr => htidy.blank r j (.inl hr)) h₁.row h₁.cells
    have hframe := newLine_frame con₁
    simp only [hc, if_true]
    refine ⟨?_, hframe.1, hframe.2, moveCursor_cursor _ _⟩
    rw [Sheet.put, if_pos rfl]
    exact ⟨hshows.col, hshows.row, hshows.cells⟩
  · have hshows := advance_shows h₁ htidy hc
    have hplaced := placed_frame h₁ htidy c
    have hframe := advance_frame (placed c con₁)
    simp only [hc, if_false]
    exact ⟨⟨hshows.col, hshows.row, hshows.cells⟩, hplaced.trans hframe.1, hframe.2,
      moveCursor_cursor _ _⟩

end Putchar

/-- The console after `bytes`, at least one: what it shows, where its cursor
is, what it wrote, and that it cleared the screen once, before them. -/
structure Refines (bytes : List Byte) (con : Console) : Prop where
  shows : Shows con (.layout bytes)
  tidy : (Sheet.layout bytes).Tidy
  started : (Sheet.layout bytes).row ≠ 0 ∨ (Sheet.layout bytes).col ≠ 0
  cursor : con.crtc.cursor = BitVec.ofNat 16 (con.row * maxCols + con.col)
  written : ∀ x ∈ con.mem.written, VideoMemory x
  trace : con.trace = (bytes.map Event.put).reverse ++ [.cleared]

section Runs
variable {con : Console}

theorem layout_append (bytes : List Byte) (c : Byte) :
    Sheet.layout (bytes ++ [c]) = (Sheet.layout bytes).put c := by
  rw [Sheet.layout, List.foldl_append]
  rfl

/-- The first byte finds the cursor at the origin, and clears. -/
theorem putchar_first (c : Byte) (hcol : con.col = 0) (hrow : con.row = 0)
    (hwritten : ∀ x ∈ con.mem.written, VideoMemory x) (htrace : con.trace = []) :
    Refines [c] (putchar c con) := by
  have htest : afterTest con = initBuffer_ con := if_pos ⟨hcol, hrow⟩
  obtain ⟨hshows, hframe, htrace', hcursor⟩ :=
    putchar_shows (htest ▸ initBuffer_shows con) Sheet.blank_tidy c
  rw [htest] at hframe htrace'
  refine ⟨hshows, Sheet.blank_tidy.put c, Sheet.put_started _ c, hcursor, ?_, ?_⟩
  · intro x hx
    obtain hx | hx := ((initBuffer_frame con).trans hframe).2 x hx
    · exact hwritten x hx
    · exact hx
  · rw [htrace', initBuffer_, htrace]
    rfl

/-- A later byte finds the cursor elsewhere, and does not. -/
theorem Refines.afterTest {bytes : List Byte} (h : Refines bytes con) : afterTest con = con := by
  apply if_neg
  intro horigin
  have hcol := h.shows.col
  have hrow := h.shows.row
  have hstarted := h.started
  omega

theorem putchar_next {bytes : List Byte} (h : Refines bytes con) (c : Byte) :
    Refines (bytes ++ [c]) (putchar c con) := by
  have htest := h.afterTest
  obtain ⟨hshows, hframe, htrace, hcursor⟩ := putchar_shows (htest.symm ▸ h.shows) h.tidy c
  rw [htest] at hframe htrace
  rw [← layout_append] at hshows
  refine ⟨hshows, ?_, ?_, hcursor, ?_, ?_⟩
  · rw [layout_append]
    exact h.tidy.put c
  · rw [layout_append]
    exact Sheet.put_started _ c
  · intro x hx
    obtain hx | hx := hframe.2 x hx
    · exact h.written x hx
    · exact hx
  · rw [htrace, h.trace, List.map_append, List.reverse_append]
    rfl

theorem putchars_refine {bytes : List Byte} (h : Refines bytes con) (more : List Byte) :
    Refines (bytes ++ more) (more.foldl (fun con c => putchar c con) con) := by
  induction more generalizing bytes con with
  | nil => rwa [List.append_nil]
  | cons c more ih =>
      rw [List.foldl_cons, List.append_cons]
      exact ih (putchar_next h c)

/-- The calls return, and together they put all their bytes. -/
theorem writeAll_returns (strs : List (List Byte)) {io : Io}
    (h : io.serial.Responds strs.flatten.length) :
    ∃ io', writeAll strs io = some io' ∧
      io'.console = strs.flatten.foldl (fun con c => putchar c con) io.console := by
  induction strs generalizing io with
  | nil => exact ⟨io, rfl, rfl⟩
  | cons str strs ih =>
      rw [List.flatten_cons, List.length_append] at h
      obtain ⟨n, serial, hserial, hresponds⟩ := serialWrite_returns str h
      obtain ⟨io', hrun, hcon⟩ := @ih ⟨str.foldl (fun con c => putchar c con) io.console, serial⟩
        hresponds
      refine ⟨io', ?_, ?_⟩
      · simp only [writeAll, write, hserial]
        exact hrun
      · rw [hcon, List.flatten_cons, List.foldl_append]

end Runs

/-- The state before any output: the driver's variables are zero, and video
memory, the display controller and the serial port are as they are. -/
def Io.boot (video : Addr → Byte) (crtc : Crtc) (serial : Serial) : Io :=
  ⟨⟨⟨video, []⟩, 0, 0, crtc, []⟩, serial⟩

/-- The console refines the unbounded terminal. -/
theorem console_refines_terminal (video : Addr → Byte) (crtc : Crtc) (serial : Serial)
    (strs : List (List Byte)) (hbytes : strs.flatten ≠ [])
    (hserial : serial.Responds strs.flatten.length) :
    ∃ io, writeAll strs (.boot video crtc serial) = some io ∧
      io.console.col = (Sheet.layout strs.flatten).col ∧ io.console.col < 80 ∧
      io.console.row = min (Sheet.layout strs.flatten).row 24 ∧
      (∀ k < 25, ∀ j < 80, character io.console.mem (k * 80 + j) =
        (Sheet.layout strs.flatten).text (k + ((Sheet.layout strs.flatten).row - 24)) j) ∧
      io.console.crtc.cursor.toNat = io.console.row * 80 + io.console.col ∧
      (∀ x ∈ io.console.mem.written, ∃ i < 2000, Within (cellAddr i) 2 x) ∧
      io.console.trace.reverse = .cleared :: strs.flatten.map .put := by
  obtain ⟨io, hrun, hcon⟩ := @writeAll_returns strs (.boot video crtc serial) hserial
  obtain ⟨c, bytes, hsplit⟩ := List.exists_cons_of_ne_nil hbytes
  have hfirst : Refines [c] (putchar c (Io.boot video crtc serial).console) :=
    putchar_first c rfl rfl (by simp [Io.boot]) rfl
  have hall := putchars_refine hfirst bytes
  rw [List.singleton_append, ← hsplit] at hall
  rw [hsplit, List.foldl_cons] at hcon
  rw [← hcon] at hall
  have hrow := hall.shows.row
  have hcol := hall.shows.col
  have hlt := hall.tidy.col
  refine ⟨io, hrun, hcol, by omega, hrow, hall.shows.cells, ?_, ?_, ?_⟩
  · rw [hall.cursor, BitVec.toNat_ofNat, maxCols]
    omega
  · intro x hx
    have hvideo := hall.written x hx
    unfold VideoMemory Within at hvideo
    refine ⟨(x - buffer).toNat / 2, by omega, ?_⟩
    have hcell := cellAddr_toNat (show (x - buffer).toNat / 2 < 2000 by omega)
    have hbase : buffer.toNat = 0x800B8000 := by decide
    unfold Within
    bv_omega
  · rw [hall.trace, List.reverse_append, List.reverse_reverse]
    rfl

/-- `"h\n"`, nothing and `"i"`, with the transmitter busy once. -/
theorem console_refines_terminal_hi : ∃ io,
    writeAll [[0x68, newline], [], [0x69]]
      (.boot (fun _ => 0xFF) ⟨0, fun _ => 0⟩ ⟨0x3F8, [0x20, 0x60, 0x60, 0x60], []⟩) = some io ∧
    io.console.row = 1 ∧ io.console.col = 1 ∧ character io.console.mem 0 = 0x68 ∧
    character io.console.mem 80 = 0x69 ∧
    io.console.trace.reverse = [.cleared, .put 0x68, .put newline, .put 0x69] := by
  obtain ⟨io, hrun, hcol, -, hrow, hcells, -, -, htrace⟩ := console_refines_terminal
    (fun _ => 0xFF) ⟨0, fun _ => 0⟩ ⟨0x3F8, [0x20, 0x60, 0x60, 0x60], []⟩
    [[0x68, newline], [], [0x69]] (by decide) (.inr (by decide))
  exact ⟨io, hrun, hrow, hcol, hcells 0 (by decide) 0 (by decide),
    hcells 1 (by decide) 0 (by decide), htrace⟩

end Yack.VgaConsole
