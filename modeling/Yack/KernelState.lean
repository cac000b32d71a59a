import Yack.MemoryLayout
import Mathlib.Data.List.Nodup

/-!
# Kernel state, assertions and the page loop

The memory manager runs on one memory. Next to it the state keeps what can be
observed of a run and is not memory: the log lines and the pages `kpalloc` has
handed out, newest first. A failed `kassert` prints its line and spins, so it
is an error of the run and carries what it prints.

Both loops of the memory manager step a pointer by a page up to an aligned
bound. They are one combinator here, with the break of `vm_map_pages` as a
finished step and fuel for more pages than the address space has.
-/
namespace Yack.KernelState
open ByteMemory MemoryLayout

inductive Event where
  | klog (level fmt : String) (args : List (BitVec 32))
  | handedOut (page : Addr)
  deriving DecidableEq, Repr

structure Kernel where
  mem : Memory Addr
  events : List Event

/-- Why a run does not continue: a spinning `kassert`, or exhausted fuel. -/
inductive Halt where
  | kassert (file : String) (line : ℕ) (expr : String)
  | fuel
  deriving DecidableEq, Repr

abbrev Outcome := Except Halt

def kassert (cond : Bool) (file : String) (line : ℕ) (expr : String) : Outcome Unit :=
  if cond then .ok () else .error (.kassert file line expr)

/-- Only the message is recorded: what printing it writes (the video memory, `row` and
`col`, the buffer of `utoa`, that of `kprintf` on the stack) is not in this memory. -/
def klog (level fmt : String) (args : List (BitVec 32)) (s : Kernel) : Kernel :=
  { s with events := .klog level fmt args :: s.events }

/-- Pages handed out in a run that started with the events `before`. -/
def Kernel.granted (s : Kernel) : List Addr :=
  s.events.filterMap fun | .handedOut p => some p | .klog .. => none

section Loop
variable {σ : Type}

/-- `for (curr = first; curr < last; curr += MM_PGSIZE) body`. -/
def forPages (body : Addr → σ → Outcome (ForInStep σ)) (last : Addr) :
    ℕ → Addr → σ → Outcome σ
  | 0, _, _ => .error .fuel
  | fuel + 1, curr, s =>
      if curr < last then
        match body curr s with
        | .error e => .error e
        | .ok (.done s) => .ok s
        | .ok (.yield s) => forPages body last fuel (curr + x86Pagesz) s
      else .ok s

/-- One more than the number of pages of a 32-bit address space. -/
def pageFuel : ℕ := 2 ^ 20 + 1

/-- The pointers the loop visits. -/
def pagesBetween (first last : Addr) : List Addr :=
  (List.range ((last.toNat - first.toNat + 4095) / 4096)).map
    fun i => first + BitVec.ofNat 32 (4096 * i)

theorem pagesBetween_of_le {first last : Addr} (h : last ≤ first) :
    pagesBetween first last = [] := by
  have hzero : (last.toNat - first.toNat + 4095) / 4096 = 0 := by
    have : last.toNat ≤ first.toNat := h
    omega
  rw [pagesBetween, hzero]
  rfl

theorem pagesBetween_of_lt {first last : Addr} (hf : PageAligned first) (hl : PageAligned last)
    (h : first < last) :
    pagesBetween first last = first :: pagesBetween (first + x86Pagesz) last := by
  unfold PageAligned at hf hl
  have hlt : first.toNat < last.toNat := h
  have hnext : (first + x86Pagesz).toNat = first.toNat + 4096 := by
    unfold x86Pagesz
    bv_omega
  have hcount : (last.toNat - first.toNat + 4095) / 4096 =
      (last.toNat - (first + x86Pagesz).toNat + 4095) / 4096 + 1 := by omega
  unfold pagesBetween
  rw [hcount, List.range_succ_eq_map, List.map_cons, List.map_map]
  refine congrArg₂ List.cons ?_ ?_
  · rw [Nat.mul_zero]
    exact BitVec.add_zero _
  · apply List.map_congr_left
    intro i _
    simp only [Function.comp_apply, x86Pagesz, Nat.succ_eq_add_one, Nat.mul_add, BitVec.ofNat_add,
      Nat.mul_one]
    rw [BitVec.add_comm (BitVec.ofNat 32 (4096 * i)), ← BitVec.add_assoc]
    rfl

theorem visited_toNat {first last : Addr} {i : ℕ}
    (hi : i < (last.toNat - first.toNat + 4095) / 4096) :
    (first + BitVec.ofNat 32 (4096 * i)).toNat = first.toNat + 4096 * i := by
  have := last.isLt
  rw [BitVec.toNat_add, BitVec.toNat_ofNat]
  omega

theorem mem_pagesBetween {first last p : Addr} (hf : PageAligned first) :
    p ∈ pagesBetween first last ↔ PageAligned p ∧ first ≤ p ∧ p < last := by
  unfold PageAligned at *
  simp only [pagesBetween, List.mem_map, List.mem_range]
  constructor
  · rintro ⟨i, hi, rfl⟩
    have hval := visited_toNat hi
    refine ⟨by omega, ?_, ?_⟩
    · rw [BitVec.le_def, hval]; omega
    · rw [BitVec.lt_def, hval]; omega
  · rintro ⟨hp, hle, hlt⟩
    rw [BitVec.le_def] at hle
    rw [BitVec.lt_def] at hlt
    refine ⟨(p.toNat - first.toNat) / 4096, by omega, ?_⟩
    apply BitVec.eq_of_toNat_eq
    rw [BitVec.toNat_add, BitVec.toNat_ofNat]
    have := p.isLt
    omega

theorem pagesBetween_nodup (first last : Addr) : (pagesBetween first last).Nodup := by
  refine List.Nodup.map_on ?_ List.nodup_range
  intro i hi j hj h
  rw [List.mem_range] at hi hj
  have hval := congrArg BitVec.toNat h
  rw [visited_toNat hi, visited_toNat hj] at hval
  omega

/-- The pointers are visited in ascending order. -/
theorem pagesBetween_sorted (first last : Addr) :
    (pagesBetween first last).Pairwise (· < ·) := by
  rw [pagesBetween, List.pairwise_map]
  refine List.pairwise_lt_range.imp_of_mem ?_
  intro i j hi hj hlt
  rw [List.mem_range] at hi hj
  rw [BitVec.lt_def, visited_toNat hi, visited_toNat hj]
  omega

/-- A body that never breaks makes the loop a fold over the visited pointers. -/
theorem forPages_eq_foldlM {body : Addr → σ → Outcome (ForInStep σ)} {f : σ → Addr → Outcome σ}
    (hbody : ∀ p s, body p s = (f s p).map .yield) {first last : Addr}
    (hf : PageAligned first) (hl : PageAligned last) (s : σ) :
    forPages body last pageFuel first s = (pagesBetween first last).foldlM f s := by
  suffices h : ∀ (fuel : ℕ) (first : Addr) (s : σ), PageAligned first →
      (last.toNat - first.toNat) / 4096 < fuel →
      forPages body last fuel first s = (pagesBetween first last).foldlM f s from
    h pageFuel first s hf (by have := last.isLt; unfold pageFuel; omega)
  intro fuel
  induction fuel with
  | zero => intro _ _ _ h; omega
  | succ fuel ih =>
      intro first s hf hfuel
      rw [forPages]
      split
      · rename_i hlt
        have hlt' : first.toNat < last.toNat := hlt
        have hnext : (first + x86Pagesz).toNat = first.toNat + 4096 := by
          unfold PageAligned at hf hl
          unfold x86Pagesz
          bv_omega
        rw [pagesBetween_of_lt hf hl hlt, List.foldlM_cons, hbody]
        cases f s first with
        | error e => rfl
        | ok s' =>
            unfold PageAligned at *
            exact ih _ s' (by omega) (by omega)
      · rename_i hlt
        rw [pagesBetween_of_le (BitVec.not_lt.mp hlt)]
        rfl

/-- Invariant rule for the fold: the invariant sees the pages already done. -/
theorem foldlM_invariant {α : Type} {f : σ → α → Outcome σ} {Inv : List α → σ → Prop}
    (pages : List α)
    (hstep : ∀ done p rest s, done ++ p :: rest = pages → Inv done s →
      ∃ s', f s p = .ok s' ∧ Inv (done ++ [p]) s') {s : σ} (hinit : Inv [] s) :
    ∃ s', pages.foldlM f s = .ok s' ∧ Inv pages s' := by
  suffices h : ∀ (rest done : List α) (s : σ), done ++ rest = pages → Inv done s →
      ∃ s', rest.foldlM f s = .ok s' ∧ Inv pages s' from h pages [] s rfl hinit
  intro rest
  induction rest with
  | nil =>
      intro done s hpages hinv
      exact ⟨s, rfl, by rwa [← hpages, List.append_nil]⟩
  | cons p rest ih =>
      intro done s hpages hinv
      obtain ⟨s', hs', hinv'⟩ := hstep done p rest s hpages hinv
      obtain ⟨s'', hs'', hinv''⟩ := ih (done ++ [p]) s' (by simpa using hpages) hinv'
      refine ⟨s'', ?_, hinv''⟩
      rw [List.foldlM_cons, hs']
      exact hs''

end Loop
end Yack.KernelState
