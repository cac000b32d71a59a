import Yack.ByteMemory
import Mathlib.Tactic.IntervalCases

/-!
# The interrupt descriptor table of `trap.c`

`trap_table` holds a gate of eight packed bytes for each vector, over which the
address of its handler is spread, and `trap_callback_table` a pointer. Three
functions store to them: `x86_set_idt_gate`, `x86_idt_enable` and
`x86_idt_disable`. To the processor and to `trap_handler` the two tables together
are one map from vectors to entries, and each call is a point update of it.
-/
namespace Yack.InterruptTable
open ByteMemory

def idtFlagGate32bitInt : Byte := 0xE
def idtFlagRing0 : Byte := 0 <<< 5
def idtFlagPresent : Byte := 0x80

/-- Offsets of the fields of the packed `struct trap_handler`. -/
def thBaseLow : Addr := 0
def thSegment : Addr := 2
def thReserved : Addr := 4
def thFlags : Addr := 5
def thBaseHigh : Addr := 6

/-- Where the linker put the two tables. -/
structure Tables where
  trapTable : Addr
  trapCallbackTable : Addr
  apart : ∀ x, Within trapTable 2048 x → ¬ Within trapCallbackTable 1024 x

/-- `&trap_table[interrupt]`. -/
def Tables.gate (t : Tables) (interrupt : ℕ) : Addr :=
  t.trapTable + BitVec.ofNat 32 (8 * interrupt)

/-- `&trap_callback_table[interrupt]`. -/
def Tables.callback (t : Tables) (interrupt : ℕ) : Addr :=
  t.trapCallbackTable + BitVec.ofNat 32 (4 * interrupt)

def x86SetIdtGate (t : Tables) (interrupt : ℕ) (base : Addr) (segDesc : BitVec 16) (flags : Byte)
    (m : Memory Addr) : Memory Addr :=
  let m := m.storeHalf (t.gate interrupt + thBaseLow) ((base &&& 0xFFFF).setWidth 16)
  let m := m.storeHalf (t.gate interrupt + thSegment) segDesc
  let m := m.store (t.gate interrupt + thReserved) 0
  let m := m.store (t.gate interrupt + thFlags) flags
  m.storeHalf (t.gate interrupt + thBaseHigh) (((base >>> 16) &&& 0xFFFF).setWidth 16)

def x86IdtEnable (t : Tables) (interrupt : ℕ) (callback : Addr) (m : Memory Addr) : Memory Addr :=
  let m := m.storeWord (t.callback interrupt) callback
  m.store (t.gate interrupt + thFlags) (m.byte (t.gate interrupt + thFlags) ||| idtFlagPresent)

def x86IdtDisable (t : Tables) (interrupt : ℕ) (m : Memory Addr) : Memory Addr :=
  let m := m.storeWord (t.callback interrupt) 0
  m.store (t.gate interrupt + thFlags) (m.byte (t.gate interrupt + thFlags) &&& ~~~idtFlagPresent)

/-- `kind` is the type and the bit that is zero for gates. -/
structure Gate where
  offset : Addr
  selector : BitVec 16
  present : Bool
  dpl : BitVec 2
  kind : BitVec 5
  deriving DecidableEq, Repr

def decodeGate (m : Memory Addr) (gate : Addr) : Gate where
  offset := m.loadHalf (gate + 6) ++ m.loadHalf gate
  selector := m.loadHalf (gate + 2)
  present := (m.byte (gate + 5)).getLsbD 7
  dpl := (m.byte (gate + 5)).extractLsb' 5 2
  kind := (m.byte (gate + 5)).extractLsb' 0 5

/-- A vector's gate and the function `trap_handler` calls for it. -/
structure Entry where
  gate : Gate
  callback : Addr
  deriving DecidableEq, Repr

inductive Operation where
  | setGate (interrupt : ℕ) (base : Addr) (segDesc : BitVec 16) (flags : Byte)
  | enable (interrupt : ℕ) (callback : Addr)
  | disable (interrupt : ℕ)
  deriving DecidableEq, Repr

def Operation.interrupt : Operation → ℕ
  | .setGate interrupt .. => interrupt
  | .enable interrupt _ => interrupt
  | .disable interrupt => interrupt

def Operation.run (t : Tables) (m : Memory Addr) : Operation → Memory Addr
  | .setGate interrupt base segDesc flags => x86SetIdtGate t interrupt base segDesc flags m
  | .enable interrupt callback => x86IdtEnable t interrupt callback m
  | .disable interrupt => x86IdtDisable t interrupt m

/-- What a call does to the entry of its vector. -/
def Operation.update (e : Entry) : Operation → Entry
  | .setGate _ base segDesc flags =>
      { e with
        gate :=
          { offset := base, selector := segDesc, present := flags.getLsbD 7
            dpl := flags.extractLsb' 5 2, kind := flags.extractLsb' 0 5 } }
  | .enable _ callback => { gate := { e.gate with present := true }, callback }
  | .disable _ => { gate := { e.gate with present := false }, callback := 0 }

def step (vectors : ℕ → Entry) (o : Operation) : ℕ → Entry :=
  Function.update vectors o.interrupt (o.update (vectors o.interrupt))

def Tables.entry (t : Tables) (m : Memory Addr) (interrupt : ℕ) : Entry where
  gate := decodeGate m (t.gate interrupt)
  callback := m.loadWord (t.callback interrupt)

def Tables.Holds (t : Tables) (m : Memory Addr) (vectors : ℕ → Entry) : Prop :=
  ∀ i < 256, t.entry m i = vectors i

/-- The bytes of the two tables. -/
def Tables.Bytes (t : Tables) (x : Addr) : Prop :=
  Within t.trapTable 2048 x ∨ Within t.trapCallbackTable 1024 x

section OneGate
variable {t : Tables} {m m' : Memory Addr} {i j : ℕ} {gate : Addr}

theorem within_gate (hi : i < 256) {x : Addr} (hx : Within (t.gate i) 8 x) :
    Within t.trapTable 2048 x := by
  unfold Within Tables.gate at *
  bv_omega

theorem within_callback (hi : i < 256) {x : Addr} (hx : Within (t.callback i) 4 x) :
    Within t.trapCallbackTable 1024 x := by
  unfold Within Tables.callback at *
  bv_omega

theorem gate_apart (hi : i < 256) (hj : j < 256) (hne : i ≠ j) {x : Addr}
    (hx : Within (t.gate i) 8 x) : ¬ Within (t.gate j) 8 x := by
  unfold Within Tables.gate at *
  bv_omega

theorem callback_apart (hi : i < 256) (hj : j < 256) (hne : i ≠ j) {x : Addr}
    (hx : Within (t.callback i) 4 x) : ¬ Within (t.callback j) 4 x := by
  unfold Within Tables.callback at *
  bv_omega

/-- A gate is read from its own eight bytes. -/
theorem decodeGate_congr (h : ∀ x, Within gate 8 x → m'.byte x = m.byte x) :
    decodeGate m' gate = decodeGate m gate := by
  have hbyte : ∀ k : Addr, k.toNat < 8 → m'.byte (gate + k) = m.byte (gate + k) := by
    intro k hk
    apply h
    unfold Within
    rwa [show gate + k - gate = k by bv_omega]
  have hfirst : m'.byte gate = m.byte gate := h gate (by simp [Within])
  simp only [decodeGate, Memory.loadHalf, BitVec.add_assoc, BitVec.reduceAdd, hfirst,
    hbyte 1 (by decide), hbyte 2 (by decide), hbyte 3#32 (by decide), hbyte 5 (by decide),
    hbyte 6 (by decide), hbyte 7#32 (by decide)]

/-- The address of the handler is cut in two halves and joined again. -/
theorem decode_x86SetIdtGate (t : Tables) (i : ℕ) (base : Addr) (segDesc : BitVec 16)
    (flags : Byte) (m : Memory Addr) :
    decodeGate (x86SetIdtGate t i base segDesc flags m) (t.gate i) =
      { offset := base, selector := segDesc, present := flags.getLsbD 7
        dpl := flags.extractLsb' 5 2, kind := flags.extractLsb' 0 5 } := by
  have hlow : (base &&& 0xFFFF).setWidth 16 = base.extractLsb' 0 16 := by
    have h := masked_field base 0 16
    rwa [BitVec.ushiftRight_zero] at h
  have hhigh : ((base >>> 16) &&& 0xFFFF).setWidth 16 = base.extractLsb' 16 16 :=
    masked_field base 16 16
  have hhalf : ∀ h : BitVec 16, h.extractLsb' 8 8 ++ h.extractLsb' 0 8 = h := fun h =>
    BitVec.extractLsb'_append_extractLsb'
  have hjoin : base.extractLsb' 8 8 ++ base.extractLsb' 0 8 = base.extractLsb' 0 16 :=
    BitVec.extractLsb'_append_extractLsb'_eq_extractLsb' rfl
  have hwhole : base.extractLsb' 16 16 ++ base.extractLsb' 0 16 = base :=
    BitVec.extractLsb'_append_extractLsb'
  simp only [decodeGate, x86SetIdtGate, Memory.loadHalf, Memory.storeHalf, Memory.store_byte,
    thBaseLow, thSegment, thReserved, thFlags, thBaseHigh, BitVec.add_assoc, BitVec.add_right_inj,
    BitVec.self_eq_add_right, BitVec.reduceAdd, hlow, hhigh]
  simp [hhalf, hjoin, hwhole]

theorem x86SetIdtGate_frame (t : Tables) (i : ℕ) (base : Addr) (segDesc : BitVec 16) (flags : Byte)
    (m : Memory Addr) : m.Frame (x86SetIdtGate t i base segDesc flags m) (Within (t.gate i) 8) := by
  have hbyte : ∀ k : Addr, k.toNat < 8 → Within (t.gate i) 8 (t.gate i + k) := by
    intro k hk
    unfold Within
    rwa [show t.gate i + k - t.gate i = k by bv_omega]
  have hhalf : ∀ (k : Addr) (m : Memory Addr) (h : BitVec 16), k.toNat + 1 < 8 →
      m.Frame (m.storeHalf (t.gate i + k) h) (Within (t.gate i) 8) := by
    intro k m h hk
    refine (m.frame_storeHalf _ h).mono fun x hx => ?_
    unfold Within at *
    bv_omega
  simp only [x86SetIdtGate]
  refine Memory.Frame.trans ?_ (hhalf thBaseHigh _ _ (by decide))
  refine Memory.Frame.trans ?_ (Memory.frame_store _ _ _ (hbyte thFlags (by decide)))
  refine Memory.Frame.trans ?_ (Memory.frame_store _ _ _ (hbyte thReserved (by decide)))
  refine Memory.Frame.trans ?_ (hhalf thSegment _ _ (by decide))
  exact hhalf thBaseLow m _ (by decide)

/-- Storing the flags byte changes what it holds and no other field. -/
theorem decodeGate_store_flags (m : Memory Addr) (gate : Addr) (flags : Byte) :
    decodeGate (m.store (gate + thFlags) flags) gate =
      { decodeGate m gate with
        present := flags.getLsbD 7, dpl := flags.extractLsb' 5 2, kind := flags.extractLsb' 0 5 } := by
  simp [decodeGate, Memory.loadHalf, Memory.store_byte, thFlags, BitVec.add_assoc]

/-- The present bit is alone in its place. -/
theorem present_set (flags : Byte) :
    (flags ||| idtFlagPresent).getLsbD 7 = true ∧
      (flags ||| idtFlagPresent).extractLsb' 5 2 = flags.extractLsb' 5 2 ∧
      (flags ||| idtFlagPresent).extractLsb' 0 5 = flags.extractLsb' 0 5 := by
  refine ⟨by simp [idtFlagPresent], ?_, ?_⟩
  · apply BitVec.eq_of_getLsbD_eq
    intro k hk
    interval_cases k <;> simp [idtFlagPresent]
  · apply BitVec.eq_of_getLsbD_eq
    intro k hk
    interval_cases k <;> simp [idtFlagPresent]

theorem present_cleared (flags : Byte) :
    (flags &&& ~~~idtFlagPresent).getLsbD 7 = false ∧
      (flags &&& ~~~idtFlagPresent).extractLsb' 5 2 = flags.extractLsb' 5 2 ∧
      (flags &&& ~~~idtFlagPresent).extractLsb' 0 5 = flags.extractLsb' 0 5 := by
  refine ⟨by simp [idtFlagPresent], ?_, ?_⟩
  · apply BitVec.eq_of_getLsbD_eq
    intro k hk
    interval_cases k <;> simp [idtFlagPresent]
  · apply BitVec.eq_of_getLsbD_eq
    intro k hk
    interval_cases k <;> simp [idtFlagPresent]

end OneGate

section Calls
variable {t : Tables} {m m' : Memory Addr} {i j : ℕ} {vectors : ℕ → Entry}

/-- The bytes of a vector's own entry. -/
def Tables.Own (t : Tables) (i : ℕ) (x : Addr) : Prop :=
  Within (t.gate i) 8 x ∨ Within (t.callback i) 4 x

theorem Tables.Own.bytes {x : Addr} (h : t.Own i x) (hi : i < 256) : t.Bytes x :=
  h.imp (within_gate hi) (within_callback hi)

theorem Tables.entry_congr (h : ∀ x, t.Own i x → m'.byte x = m.byte x) :
    t.entry m' i = t.entry m i := by
  have hgate := decodeGate_congr fun x hx => h x (.inl hx)
  have hcallback := Memory.loadWord_congr fun x hx => h x (.inr hx)
  rw [Tables.entry, Tables.entry, hgate, hcallback]

/-- Entries of different vectors share no byte. -/
theorem Tables.own_apart (hi : i < 256) (hj : j < 256) (hne : i ≠ j) {x : Addr} (hx : t.Own i x) :
    ¬ t.Own j x := by
  rintro (hy | hy) <;> rcases hx with hx | hx
  · exact gate_apart hi hj hne hx hy
  · exact t.apart x (within_gate hj hy) (within_callback hi hx)
  · exact t.apart x (within_gate hi hx) (within_callback hj hy)
  · exact callback_apart hi hj hne hx hy

theorem Tables.flags_mem (t : Tables) (i : ℕ) : Within (t.gate i) 8 (t.gate i + thFlags) := by
  unfold Within thFlags
  bv_omega

theorem Operation.run_frame (o : Operation) : m.Frame (o.run t m) (t.Own o.interrupt) := by
  have hflags : ∀ (m : Memory Addr) i b, m.Frame (m.store (t.gate i + thFlags) b) (t.Own i) :=
    fun m i b => m.frame_store _ b (.inl (t.flags_mem i))
  have hcallback : ∀ (m : Memory Addr) i w, m.Frame (m.storeWord (t.callback i) w) (t.Own i) :=
    fun m i w => (m.frame_storeWord _ w).mono fun _ hx => .inr hx
  cases o with
  | setGate i base segDesc flags =>
      exact (x86SetIdtGate_frame t i base segDesc flags m).mono fun _ hx => .inl hx
  | enable i callback => exact (hcallback m i callback).trans (hflags _ i _)
  | disable i => exact (hcallback m i 0).trans (hflags _ i _)

/-- Storing a callback leaves the gates, and storing flags the callbacks. -/
theorem Tables.store_callback (hi : i < 256) (m : Memory Addr) (w : Addr) (flags : Byte) :
    t.entry ((m.storeWord (t.callback i) w).store (t.gate i + thFlags) flags) i =
      { gate :=
          { decodeGate m (t.gate i) with
            present := flags.getLsbD 7, dpl := flags.extractLsb' 5 2
            kind := flags.extractLsb' 0 5 }
        callback := w } := by
  have hgate : decodeGate (m.storeWord (t.callback i) w) (t.gate i) = decodeGate m (t.gate i) := by
    refine decodeGate_congr fun x hx => (m.frame_storeWord _ w).1 x fun hy => ?_
    exact t.apart x (within_gate hi hx) (within_callback hi hy)
  have hword : ((m.storeWord (t.callback i) w).store (t.gate i + thFlags) flags).loadWord
      (t.callback i) = w := by
    refine Eq.trans (Memory.loadWord_congr fun x hx => ?_) (m.loadWord_storeWord _ w)
    refine Memory.store_byte_of_ne _ flags ?_
    rintro rfl
    exact t.apart _ (within_gate hi (t.flags_mem i)) (within_callback hi hx)
  rw [Tables.entry, decodeGate_store_flags, hgate, hword]

/-- A call updates the entry of its vector. -/
theorem Operation.run_entry (o : Operation) (hi : o.interrupt < 256) (m : Memory Addr) :
    t.entry (o.run t m) o.interrupt = o.update (t.entry m o.interrupt) := by
  have hflags : ∀ i w, i < 256 →
      (m.storeWord (t.callback i) w).byte (t.gate i + thFlags) = m.byte (t.gate i + thFlags) := by
    intro i w hi
    refine (m.frame_storeWord _ w).1 _ fun hx => ?_
    exact t.apart _ (within_gate hi (t.flags_mem i)) (within_callback hi hx)
  cases o with
  | setGate i base segDesc flags =>
      have hcallback : (x86SetIdtGate t i base segDesc flags m).loadWord (t.callback i) =
          m.loadWord (t.callback i) := by
        refine (x86SetIdtGate_frame t i base segDesc flags m).loadWord fun x hx hy => ?_
        exact t.apart x (within_gate hi hy) (within_callback hi hx)
      simp only [Operation.run, Operation.interrupt, Operation.update, Tables.entry, hcallback,
        decode_x86SetIdtGate]
  | enable i callback =>
      obtain ⟨hpresent, hdpl, hkind⟩ := present_set (m.byte (t.gate i + thFlags))
      simp only [Operation.run, Operation.interrupt, x86IdtEnable, Operation.update]
      rw [hflags i callback hi, @Tables.store_callback t i hi, hpresent, hdpl, hkind]
      rfl
  | disable i =>
      obtain ⟨hpresent, hdpl, hkind⟩ := present_cleared (m.byte (t.gate i + thFlags))
      simp only [Operation.run, Operation.interrupt, x86IdtDisable, Operation.update]
      rw [hflags i 0 hi, @Tables.store_callback t i hi, hpresent, hdpl, hkind]
      rfl

theorem Operation.run_holds {o : Operation} (h : t.Holds m vectors) (hi : o.interrupt < 256) :
    t.Holds (o.run t m) (step vectors o) := by
  intro i hlt
  by_cases heq : i = o.interrupt
  · subst heq
    rw [step, Function.update_self, o.run_entry hi, h _ hi]
  · rw [step, Function.update_of_ne heq, ← h i hlt]
    refine Tables.entry_congr fun x hx => o.run_frame.1 x ?_
    exact Tables.own_apart hlt hi heq hx

def runOperations (t : Tables) (m : Memory Addr) (os : List Operation) : Memory Addr :=
  os.foldl (fun m o => o.run t m) m

/-- The run lemma: the tables hold what the calls made of the first entries, and
nothing else has changed. -/
theorem runOperations_holds {os : List Operation} (h : t.Holds m vectors)
    (hos : ∀ o ∈ os, o.interrupt < 256) :
    t.Holds (runOperations t m os) (os.foldl step vectors) ∧
      m.Frame (runOperations t m os) t.Bytes := by
  induction os generalizing m vectors with
  | nil => exact ⟨h, Memory.Frame.refl m _⟩
  | cons o os ih =>
      have ho := hos o (by simp)
      obtain ⟨hholds, hframe⟩ := ih (o.run_holds h ho) fun o' ho' => hos o' (by simp [ho'])
      exact ⟨hholds, (o.run_frame.mono fun x hx => hx.bytes ho).trans hframe⟩

end Calls
end Yack.InterruptTable
