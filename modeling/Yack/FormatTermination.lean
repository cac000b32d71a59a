import Yack.FormatText

/-!
# Where a format ends

A directive takes the byte behind its `'%'` and flags whatever it is, and the
format pointer is moved past it. When that byte is the terminator, the loop
test reads the memory behind the format. The items of a format that ends inside
a directive are those of its complete directives.
-/
namespace Yack.FormatTermination
open ByteMemory TextFormatter FormatText

/-- Where the scan stands behind the last byte of a format. -/
def endPosition : List Byte → Position → Position
  | [], pos => pos
  | c :: fmt, .top => if c ≠ ascii '%' then endPosition fmt .top else endPosition fmt (.again false)
  | c :: fmt, .again _ =>
      if c = ascii '0' then endPosition fmt (.again true) else endPosition fmt .top

/-- The literal bytes and complete directives of a format, without terminator. -/
def completeItems : List Byte → Position → List Item
  | [], _ => []
  | c :: fmt, .top =>
      if c ≠ ascii '%' then .literal c :: completeItems fmt .top
      else completeItems fmt (.again false)
  | c :: fmt, .again fillZeroes =>
      if c = ascii '0' then completeItems fmt (.again true)
      else .conversion fillZeroes c :: completeItems fmt .top

/-- The bytes behind the terminator change nothing of the result, the arguments
left or the memory, not even when the format's object ends there. -/
def StopsAtTerminator (buf : ℕ → Byte) (bufsz : ℕ) (fmt : List Byte) (ap : List Arg)
    (digits : Memory ℤ) : Prop :=
  ∃ result, ∀ tail, kvsnprintf ⟨buf, []⟩ bufsz (fmt ++ 0 :: tail) ap digits = some result

section Prefix
variable {bufsz : ℕ} {fmt text : List Byte} {pos : Position} {st : Formatter}

/-- The loop over the bytes of a format, whatever comes behind them. -/
theorem loop_over (h0 : 0 ∉ fmt)
    (htext : expand (completeItems fmt pos) st.ap st.digits = some text)
    (hroom : st.ptr + text.length < bufsz) :
    ∃ st', st'.ptr = st.ptr + text.length ∧ ∀ tail,
      kvsnprintfLoop bufsz (fmt ++ tail) pos st =
        kvsnprintfLoop bufsz tail (endPosition fmt pos) st' := by
  induction fmt generalizing pos st text with
  | nil =>
      cases htext
      exact ⟨st, rfl, fun _ => rfl⟩
  | cons c fmt ih =>
      have hc0 : c ≠ 0 := fun e => h0 (by simp [e])
      have h0' : 0 ∉ fmt := fun hmem => h0 (List.mem_cons_of_mem _ hmem)
      have hptr : st.ptr < bufsz := by omega
      cases pos with
      | top =>
          by_cases hc : c = ascii '%'
          · subst c
            rw [completeItems, if_neg (not_not_intro rfl)] at htext
            obtain ⟨st', hptr', hrun⟩ := ih h0' htext hroom
            refine ⟨st', hptr', fun tail => ?_⟩
            rw [List.cons_append, loop_percent hptr, hrun tail, endPosition,
              if_neg (not_not_intro rfl)]
          · rw [completeItems, if_pos hc, expand, Option.map_eq_some_iff] at htext
            obtain ⟨rest, hrest, rfl⟩ := htext
            rw [List.length_cons] at hroom
            have hput : (st.put c).ptr = st.ptr + 1 := rfl
            obtain ⟨st', hptr', hrun⟩ := @ih rest .top (st.put c) h0' hrest (by omega)
            refine ⟨st', by rw [hptr', List.length_cons, hput]; omega, fun tail => ?_⟩
            rw [List.cons_append, loop_literal hc0 hc hptr, hrun tail, endPosition, if_pos hc]
      | again fillZeroes =>
          by_cases hzero : c = ascii '0'
          · subst c
            rw [completeItems, if_pos rfl] at htext
            obtain ⟨st', hptr', hrun⟩ := ih h0' htext hroom
            refine ⟨st', hptr', fun tail => ?_⟩
            rw [List.cons_append, loop_zero, hrun tail, endPosition, if_pos rfl]
          · rw [completeItems, if_neg hzero, expand] at htext
            obtain ⟨e, he, htext⟩ := Option.bind_eq_some_iff.mp htext
            obtain ⟨rest, hrest, htext⟩ := Option.bind_eq_some_iff.mp htext
            cases htext
            rw [List.length_append] at hroom
            have happend : (Formatter.append st e).ptr = st.ptr + e.1.length := rfl
            obtain ⟨st', hptr', hrun⟩ := @ih rest .top (Formatter.append st e) h0' hrest (by omega)
            refine ⟨st', by rw [hptr', List.length_append, happend]; omega, fun tail => ?_⟩
            rw [List.cons_append, loop_conversion hzero, he, Option.bind_some, hrun tail,
              endPosition, if_neg hzero]

/-- A directive cut short takes the terminator for its character. -/
theorem loop_terminator (fillZeroes : Bool) (tail : List Byte) :
    kvsnprintfLoop bufsz (0 :: tail) (.again fillZeroes) st =
      kvsnprintfLoop bufsz tail .top (Formatter.append st ([], st.ap, st.digits)) := by
  rw [loop_conversion (by decide)]
  rfl

end Prefix

/-- With its arguments and the room for what its directives spell, the call
stops at the terminator exactly when no directive is cut short by it. -/
theorem kvsnprintf_stops_at_terminator_iff (buf : ℕ → Byte) (bufsz : ℕ) (fmt : List Byte)
    (hfmt : 0 ∉ fmt) (ap : List Arg) (digits : Memory ℤ) (text : List Byte)
    (hargs : expand (completeItems fmt .top) ap digits = some text) (hroom : text.length < bufsz) :
    StopsAtTerminator buf bufsz fmt ap digits ↔ endPosition fmt .top = .top := by
  obtain ⟨st, -, hrun⟩ := @loop_over bufsz fmt text .top ⟨⟨buf, []⟩, 0, digits, ap⟩ hfmt hargs
    (by simpa using hroom)
  constructor
  · rintro ⟨result, hstops⟩
    cases hend : endPosition fmt .top with
    | top => rfl
    | again fillZeroes =>
        have hnone : kvsnprintf ⟨buf, []⟩ bufsz (fmt ++ [0]) ap digits = none := by
          rw [kvsnprintf, hrun [0], hend, loop_terminator]
          rfl
        have hsome := hstops []
        rw [hnone] at hsome
        cases hsome
  · intro hend
    refine ⟨(st.ptr, { st with buf := st.buf.store st.ptr 0 }), fun tail => ?_⟩
    rw [kvsnprintf, hrun (0 :: tail), hend, loop_end]
    rfl

/-- `"%d%%"` with room for two bytes and the terminator. -/
theorem kvsnprintf_stops_at_terminator_number :
    StopsAtTerminator (fun _ => 0xFF) 3 [ascii '%', ascii 'd', ascii '%', ascii '%'] [.int 5]
      ⟨fun _ => 0, []⟩ :=
  (kvsnprintf_stops_at_terminator_iff _ 3 _ (by decide) _ _ [ascii '5', ascii '%'] (by decide)
    (by decide)).mpr (by decide)

/-- `"%"`: what lies behind the terminator is printed. -/
theorem kvsnprintf_passes_terminator :
    (∃ st, kvsnprintf ⟨fun _ => 0xFF, []⟩ 64 [ascii '%', 0, ascii 'X', 0] [] ⟨fun _ => 0, []⟩ =
      some (1, st) ∧ st.buf.byte 0 = ascii 'X') ∧
    kvsnprintf ⟨fun _ => 0xFF, []⟩ 64 [ascii '%', 0] [] ⟨fun _ => 0, []⟩ = none ∧
    ¬ StopsAtTerminator (fun _ => 0xFF) 64 [ascii '%'] [] ⟨fun _ => 0, []⟩ := by
  refine ⟨⟨_, rfl, rfl⟩, rfl, ?_⟩
  rintro ⟨result, hstops⟩
  cases hstops []

end Yack.FormatTermination
