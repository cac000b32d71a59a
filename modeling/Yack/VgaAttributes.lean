import Yack.VgaConsole
import Mathlib.Data.List.Induction

/-!
# The attribute bytes of the screen

`TO_VGA` widens a `char` to 16 bits before it adds the attribute, and a `char`
is signed: from `0x80` on the sign fills the attribute byte. Whatever happens to
the screen, each cell is `TO_VGA` of its character, because cells are only ever
written whole or copied whole. So the attributes follow from the characters,
and these from the sheet.
-/
namespace Yack.VgaAttributes
open ByteMemory SerialPort VgaConsole

/-- `0x0700 | b`. -/
def greyOnBlack (b : Byte) : BitVec 16 := 0x0700 ||| b.setWidth 16

/-- Every cell is what the driver makes of its character. -/
def Coloured (m : Memory Addr) : Prop := ∀ i < 2000, cell m i = toVga (character m i)

/-- After `bytes`, at least one: all cells are light grey on black, and the last
byte, if it is none that ends a row, is in the cell where it was put. That cell
is a row higher by now if the screen was scrolled for it. -/
structure LightGrey (bytes : List Byte) (con : Console) : Prop where
  cells : ∀ i < 2000, ∃ b, cell con.mem i = greyOnBlack b
  last : ∀ before c, bytes = before ++ [c] → c ≠ newline →
    cell con.mem (((Sheet.layout before).row - ((Sheet.layout bytes).row - 24)) * 80 +
      (Sheet.layout before).col) = greyOnBlack c

/-- No byte from `0x80` on among the last 25 rows. -/
def VisibleAscii (sheet : Sheet) : Prop :=
  ∀ k < 25, ∀ j < 80, (sheet.text (k + (sheet.row - 24)) j).getLsbD 7 = false

theorem toVga_greyOnBlack (c : Byte) : toVga c = greyOnBlack c ↔ c.getLsbD 7 = false := by
  revert c
  decide

theorem greyOnBlack_character (b : Byte) : (greyOnBlack b).extractLsb' 0 8 = b := by
  revert b
  decide

/-- A cell of the driver that is light grey on black holds its own character. -/
theorem toVga_grey {b c : Byte} (h : toVga c = greyOnBlack b) : c.getLsbD 7 = false := by
  have hchar := congrArg (BitVec.extractLsb' 0 8) h
  rw [toVga_character, greyOnBlack_character] at hchar
  exact (toVga_greyOnBlack c).mp (hchar ▸ h)

section Steps
variable {m : Memory Addr} {con : Console}

theorem Coloured.store (h : Coloured m) {i : ℕ} (hi : i < 2000) (c : Byte) :
    Coloured (m.storeHalf (cellAddr i) (toVga c)) := by
  intro j hj
  rw [cell_storeHalf m hi hj, character_storeHalf m hi hj, toVga_character]
  split_ifs
  · rfl
  · exact h j hj

theorem fillCells_coloured {count i : ℕ} (hi : i + count ≤ 2000)
    (h : ∀ j < 2000, ¬ (i ≤ j ∧ j < i + count) → cell m j = toVga (character m j)) :
    Coloured (fillCells count i m) := by
  intro j hj
  rw [fillCells_cell count i m hi hj, fillCells_character count i m hi hj]
  split_ifs with hin
  · rfl
  · exact h j hj hin

theorem initBuffer_coloured (con : Console) : Coloured (initBuffer_ con).mem := by
  rw [initBuffer_mem]
  exact fillCells_coloured (by decide) fun j hj hout => absurd ⟨by omega, by omega⟩ hout

/-- The rows that move up keep their cells, and the last one is filled. -/
theorem newLine_coloured (h : Coloured con.mem) : Coloured (newLine_ con).mem := by
  by_cases hfull : con.row + 1 = 25
  · have hrun : (newLine_ con).mem = fillCells 80 (24 * 80) (scrolled con.mem) := by
      have hrow : con.row = 24 := by omega
      simp only [newLine_, maxRows, if_true, Nat.add_sub_cancel, hrow]
      rfl
    rw [hrun]
    refine fillCells_coloured (by decide) fun j hj hout => ?_
    rw [scrolled_cell con.mem (by omega), scrolled_character con.mem (by omega)]
    exact h (j + 80) (by omega)
  · simp only [newLine_, maxRows, hfull, if_false]
    exact h

theorem advance_coloured (h : Coloured con.mem) : Coloured (advance_ con).mem := by
  rw [advance_]
  split_ifs
  · exact @newLine_coloured { con with col := con.col + 1 } h
  · exact h

theorem putchar_coloured (h : Coloured (afterTest con).mem) (hrow : (afterTest con).row ≤ 24)
    (hcol : (afterTest con).col < 80) (c : Byte) : Coloured (putchar c con).mem := by
  rw [putchar_eq]
  simp only
  split_ifs
  · exact @newLine_coloured { afterTest con with trace := .put c :: (afterTest con).trace } h
  · refine advance_coloured (h.store ?_ c)
    simp only [maxCols]
    omega

end Steps

section Runs
variable {con : Console} {bytes : List Byte}

theorem putchars_coloured (h : Refines bytes con) (hcoloured : Coloured con.mem)
    (more : List Byte) : Coloured (more.foldl (fun con c => putchar c con) con).mem := by
  induction more generalizing bytes con with
  | nil => exact hcoloured
  | cons c more ih =>
      have htest := h.afterTest
      have hcol : (afterTest con).col < 80 := by
        rw [htest, h.shows.col]
        exact h.tidy.col
      exact ih (putchar_next h c) (putchar_coloured (htest.symm ▸ hcoloured)
        (htest.symm ▸ shows_row_le h.shows) hcol c)

/-- The run lemma: cells and characters after any calls that write a byte. -/
theorem writeAll_coloured (video : Addr → Byte) (crtc : Crtc) (serial : Serial)
    (strs : List (List Byte)) (hbytes : strs.flatten ≠ [])
    (hserial : serial.Responds strs.flatten.length) :
    ∃ io, writeAll strs (.boot video crtc serial) = some io ∧
      Refines strs.flatten io.console ∧ Coloured io.console.mem := by
  obtain ⟨io, hrun, hcon⟩ := @writeAll_returns strs (.boot video crtc serial) hserial
  obtain ⟨c, bytes, hsplit⟩ := List.exists_cons_of_ne_nil hbytes
  have hfirst : Refines [c] (putchar c (Io.boot video crtc serial).console) :=
    putchar_first c rfl rfl (by simp [Io.boot]) rfl
  have htest : afterTest (Io.boot video crtc serial).console =
      initBuffer_ (Io.boot video crtc serial).console := if_pos ⟨rfl, rfl⟩
  have hcoloured : Coloured (putchar c (Io.boot video crtc serial).console).mem := by
    apply putchar_coloured <;> rw [htest]
    · exact initBuffer_coloured _
    · exact Nat.zero_le 24
    · exact Nat.zero_lt_succ 79
  rw [hsplit, List.foldl_cons] at hcon
  refine ⟨io, hrun, ?_, hcon ▸ putchars_coloured hfirst hcoloured bytes⟩
  have hall := putchars_refine hfirst bytes
  rwa [List.singleton_append, ← hsplit, ← hcon] at hall

/-- The cells of the screen are those of the sheet. -/
theorem cell_eq (h : Refines bytes con) (hcoloured : Coloured con.mem) {k j : ℕ} (hk : k < 25)
    (hj : j < 80) : cell con.mem (k * 80 + j) =
      toVga ((Sheet.layout bytes).text (k + ((Sheet.layout bytes).row - 24)) j) := by
  rw [hcoloured _ (by omega), h.shows.cells k hk j hj]

theorem layout_tidy (bytes : List Byte) : (Sheet.layout bytes).Tidy := by
  induction bytes using List.reverseRecOn with
  | nil => exact Sheet.blank_tidy
  | append_singleton bytes c ih =>
      rw [layout_append]
      exact ih.put c

/-- The sheet holds nothing but what was laid out on it. -/
theorem layout_text (bytes : List Byte) (r j : ℕ) :
    (Sheet.layout bytes).text r j = space ∨ (Sheet.layout bytes).text r j ∈ bytes := by
  induction bytes using List.reverseRecOn with
  | nil => exact .inl rfl
  | append_singleton bytes c ih =>
      have hold : (Sheet.layout bytes).text r j = space ∨
          (Sheet.layout bytes).text r j ∈ bytes ++ [c] :=
        ih.imp_right fun h => List.mem_append_left _ h
      have hnew : c = space ∨ c ∈ bytes ++ [c] := .inr (by simp)
      rw [layout_append, Sheet.put]
      split_ifs
      · exact hold
      · simp only
        split_ifs
        · exact hnew
        · exact hold
      · simp only
        split_ifs
        · exact hnew
        · exact hold

theorem put_here (sheet : Sheet) {c : Byte} (hc : c ≠ newline) :
    (sheet.put c).text sheet.row sheet.col = c ∧
      sheet.row ≤ (sheet.put c).row ∧ (sheet.put c).row ≤ sheet.row + 1 := by
  rw [Sheet.put, if_neg hc]
  split_ifs <;> simp

theorem lightGrey_iff (h : Refines bytes con) (hcoloured : Coloured con.mem) :
    LightGrey bytes con ↔ VisibleAscii (Sheet.layout bytes) := by
  constructor
  · intro hgrey k hk j hj
    obtain ⟨b, hb⟩ := hgrey.cells (k * 80 + j) (by omega)
    rw [cell_eq h hcoloured hk hj] at hb
    exact toVga_grey hb
  · intro hascii
    have hcell : ∀ k < 25, ∀ j < 80, cell con.mem (k * 80 + j) =
        greyOnBlack ((Sheet.layout bytes).text (k + ((Sheet.layout bytes).row - 24)) j) := by
      intro k hk j hj
      rw [cell_eq h hcoloured hk hj]
      exact (toVga_greyOnBlack _).mpr (hascii k hk j hj)
    constructor
    · intro i hi
      have hsplit : i / 80 * 80 + i % 80 = i := by omega
      exact ⟨_, hsplit ▸ hcell (i / 80) (by omega) (i % 80) (by omega)⟩
    · rintro before c rfl hc
      obtain ⟨hhere, hlow, hhigh⟩ := put_here (Sheet.layout before) hc
      rw [layout_append] at hcell ⊢
      rw [hcell _ (by omega) _ (layout_tidy before).col, Nat.sub_add_cancel (by omega), hhere]

theorem visibleAscii_of_bytes (h : ∀ c ∈ bytes, c.getLsbD 7 = false) :
    VisibleAscii (Sheet.layout bytes) := by
  intro k hk j hj
  obtain hspace | hmem := layout_text bytes (k + ((Sheet.layout bytes).row - 24)) j
  · rw [hspace]
    rfl
  · exact h _ hmem

end Runs

/-- After any calls that write a byte, the screen is light grey on black exactly
if it shows no byte from `0x80` on; so it is in every state of a run that writes
none. -/
theorem write_light_grey_iff (video : Addr → Byte) (crtc : Crtc) (serial : Serial)
    (strs : List (List Byte)) (hbytes : strs.flatten ≠ [])
    (hserial : serial.Responds strs.flatten.length) :
    ∃ io, writeAll strs (.boot video crtc serial) = some io ∧
      (LightGrey strs.flatten io.console ↔ VisibleAscii (Sheet.layout strs.flatten)) ∧
      ((∀ c ∈ strs.flatten, c.getLsbD 7 = false) → LightGrey strs.flatten io.console) := by
  obtain ⟨io, hrun, hrefines, hcoloured⟩ := writeAll_coloured video crtc serial strs hbytes hserial
  have hiff := lightGrey_iff hrefines hcoloured
  exact ⟨io, hrun, hiff, fun h => hiff.mpr (visibleAscii_of_bytes h)⟩

/-- `"h\n"`, nothing and `"i"`, without a serial port. -/
theorem write_light_grey_hi : ∃ io,
    writeAll [[0x68, newline], [], [0x69]] (.boot (fun _ => 0xFF) ⟨0, fun _ => 0⟩ ⟨0, [], []⟩) =
      some io ∧ LightGrey [0x68, newline, 0x69] io.console := by
  obtain ⟨io, hrun, -, hgrey⟩ := write_light_grey_iff (fun _ => 0xFF) ⟨0, fun _ => 0⟩ ⟨0, [], []⟩
    [[0x68, newline], [], [0x69]] (by decide) (.inl rfl)
  exact ⟨io, hrun, hgrey (by decide)⟩

/-- The byte `0xE9` is put in a blinking white cell on white. -/
theorem write_extends_sign : ∃ io,
    writeAll [[0xE9]] (.boot (fun _ => 0) ⟨0, fun _ => 0⟩ ⟨0, [], []⟩) = some io ∧
      cell io.console.mem 0 = 0xFFE9 ∧ ¬ LightGrey [0xE9] io.console := by
  obtain ⟨io, hrun, hrefines, hcoloured⟩ := writeAll_coloured (fun _ => 0) ⟨0, fun _ => 0⟩
    ⟨0, [], []⟩ [[0xE9]] (by decide) (.inl rfl)
  have hcell := cell_eq hrefines hcoloured (Nat.zero_lt_succ 24) (Nat.zero_lt_succ 79)
  have htext : (Sheet.layout [[0xE9]].flatten).text
      (0 + ((Sheet.layout [[0xE9]].flatten).row - 24)) 0 = 0xE9 := rfl
  have hword : toVga 0xE9 = 0xFFE9 := by decide
  rw [htext, hword] at hcell
  refine ⟨io, hrun, hcell, fun h => ?_⟩
  have hascii := (lightGrey_iff hrefines hcoloured).mp h 0 (Nat.zero_lt_succ 24) 0
    (Nat.zero_lt_succ 79)
  rw [htext] at hascii
  exact absurd hascii (by decide)

end Yack.VgaAttributes
