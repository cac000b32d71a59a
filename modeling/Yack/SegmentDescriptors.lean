import Yack.KernelState
import Yack.Memop
import Mathlib.Tactic.IntervalCases

/-!
# Segment descriptors: `x86_gdt_set` and `segments_init`

A descriptor is eight packed bytes, over which the base and the limit are
spread. `x86_gdt_set` takes the limit in bytes, as its callers pass it, and
stores the low 20 bits of it; the processor reads the field in pages when the
granularity bit is set. The two readings agree for the flat segments only.
-/
namespace Yack.SegmentDescriptors
open ByteMemory KernelState Memop

/-- Offsets of the fields of the packed `struct gdt_entry`. -/
def geLimitLow : Addr := 0
def geBaseLow : Addr := 2
def geBaseMid : Addr := 4
def geAccess : Addr := 5
def geFlags : Addr := 6
def geBaseHigh : Addr := 7

/-- The stores of `x86_gdt_set`, in order. -/
def storeDescriptor (m : Memory Addr) (entry : Addr) (base limit : BitVec 32)
    (access flags : Byte) : Memory Addr :=
  let m := m.storeHalf (entry + geBaseLow) ((base &&& 0xFFFF).setWidth 16)
  let m := m.store (entry + geBaseMid) (((base >>> 16) &&& 0xFF).setWidth 8)
  let m := m.store (entry + geBaseHigh) (((base >>> 24) &&& 0xFF).setWidth 8)
  let m := m.storeHalf (entry + geLimitLow) ((limit &&& 0xFFFF).setWidth 16)
  let m := m.store (entry + geFlags) (((limit >>> 16) &&& 0x0F).setWidth 8)
  let m := m.store (entry + geFlags) (m.byte (entry + geFlags) ||| (flags &&& 0xF0))
  m.store (entry + geAccess) access

def x86GdtSet (entry : Addr) (base limit : BitVec 32) (access flags : Byte) (s : Kernel) :
    Kernel :=
  let mem := storeDescriptor s.mem entry base limit access flags
  klog "DEBUG" "GDT Entry: %0x %0x\n" [mem.loadWord (entry + 4), mem.loadWord entry]
    { s with mem }

def x86GdtSegCodek : Addr := 1
def x86GdtSegDatak : Addr := 2
def x86GdtSegCodeu : Addr := 3
def x86GdtSegDatau : Addr := 4
def x86GdtSegTss : Addr := 5
def x86GdtSegSize : ℕ := 6

/-- `&cpu->cpu_gdt[index]`. -/
def gdtEntry (cpuGdt index : Addr) : Addr := cpuGdt + 8 * index

/-- `sizeof(TSS)`. -/
def tssSize : BitVec 32 := 108

/-- `segments_init` up to the loading of the table register. -/
def segmentsInit (cpuGdt tss : Addr) (s : Kernel) : Kernel :=
  let s := { s with mem := (memset s.mem cpuGdt 0 (8 * x86GdtSegSize)).2 }
  let s := klog "DEBUG" "GDT address: %p\n" [cpuGdt] s
  let s := x86GdtSet (gdtEntry cpuGdt x86GdtSegCodek) 0 0xFFFFFFFF 0x9A 0xCF s
  let s := x86GdtSet (gdtEntry cpuGdt x86GdtSegDatak) 0 0xFFFFFFFF 0x92 0xCF s
  let s := x86GdtSet (gdtEntry cpuGdt x86GdtSegCodeu) 0 0xFFFFFFFF 0xFA 0xCF s
  let s := x86GdtSet (gdtEntry cpuGdt x86GdtSegDatau) 0 0xFFFFFFFF 0xF2 0xCF s
  x86GdtSet (gdtEntry cpuGdt x86GdtSegTss) tss tssSize 0xF2 0xCF s

/-- A segment with its limit in bytes and the high nibble of the flags. -/
structure Segment where
  base : BitVec 32
  limit : BitVec 32
  access : Byte
  flags : BitVec 4
  deriving DecidableEq, Repr

def limitField (m : Memory Addr) (entry : Addr) : BitVec 20 :=
  (m.byte (entry + 6)).extractLsb' 0 4 ++ m.loadHalf entry

def decode (m : Memory Addr) (entry : Addr) : Segment where
  base := m.byte (entry + 7) ++ m.byte (entry + 4) ++ m.loadHalf (entry + 2)
  limit := if (m.byte (entry + 6)).getLsbD 7 then limitField m entry ++ (0xFFF : BitVec 12)
    else (limitField m entry).setWidth 32
  access := m.byte (entry + 5)
  flags := (m.byte (entry + 6)).extractLsb' 4 4

/-- What a caller asks for. -/
structure Request where
  base : BitVec 32
  limit : BitVec 32
  access : Byte
  flags : Byte
  deriving DecidableEq, Repr

/-- What the processor makes of a request: the low 20 bits of its limit, in
pages where the flags say so. -/
def Request.granted (r : Request) : Segment where
  base := r.base
  limit := if r.flags.getLsbD 7 then r.limit.extractLsb' 0 20 ++ (0xFFF : BitVec 12)
    else (r.limit.extractLsb' 0 20).setWidth 32
  access := r.access
  flags := r.flags.extractLsb' 4 4

/-- Byte limits that a limit field under the granularity bit can spell. -/
def Request.Representable (r : Request) : Prop :=
  if r.flags.getLsbD 7 then r.limit.toNat % 4096 = 4095 else r.limit.toNat < 2 ^ 20

/-- The segment is the one asked for where that can be spelled, and never
reaches further. -/
structure Grants (seg : Segment) (r : Request) : Prop where
  exact : r.Representable → seg = ⟨r.base, r.limit, r.access, r.flags.extractLsb' 4 4⟩
  within : seg.base = r.base ∧ seg.limit ≤ r.limit

/-- Where the limit that is stored means what was asked: bytes are counted, or
all 4 GB are asked for, or the low 20 bits read as pages reach less far than a
limit that cannot be spelled. -/
def Request.LimitSurvives (r : Request) : Prop :=
  r.flags.getLsbD 7 = true → r.limit = 0xFFFFFFFF ∨ r.limit.toNat % 4096 ≠ 4095 ∧
    4095 * (r.limit.toNat % 2 ^ 20 + 1) ≤ r.limit.toNat / 2 ^ 20 * 2 ^ 20

/-- The segments of `segments_init`, by index. -/
def gdtSegments (tss : Addr) : List (Addr × Request) :=
  [(x86GdtSegCodek, ⟨0, 0xFFFFFFFF, 0x9A, 0xCF⟩), (x86GdtSegDatak, ⟨0, 0xFFFFFFFF, 0x92, 0xCF⟩),
    (x86GdtSegCodeu, ⟨0, 0xFFFFFFFF, 0xFA, 0xCF⟩), (x86GdtSegDatau, ⟨0, 0xFFFFFFFF, 0xF2, 0xCF⟩),
    (x86GdtSegTss, ⟨tss, tssSize, 0xF2, 0xCF⟩)]

section Descriptor
variable {entry : Addr}

theorem low_half (x : BitVec 32) : (x &&& 0xFFFF).setWidth 16 = x.extractLsb' 0 16 := by
  have h := masked_field x 0 16
  rwa [BitVec.ushiftRight_zero] at h

/-- The fields as they are stored, in the order of the struct. -/
theorem storeDescriptor_bytes (m : Memory Addr) (entry : Addr) (base limit : BitVec 32)
    (access flags : Byte) :
    let m' := storeDescriptor m entry base limit access flags
    m'.loadHalf entry = limit.extractLsb' 0 16 ∧
      m'.loadHalf (entry + 2) = base.extractLsb' 0 16 ∧
      m'.byte (entry + 4) = base.extractLsb' 16 8 ∧
      m'.byte (entry + 5) = access ∧
      m'.byte (entry + 6) = ((limit >>> 16) &&& 0x0F).setWidth 8 ||| (flags &&& 0xF0) ∧
      m'.byte (entry + 7) = base.extractLsb' 24 8 := by
  have hhalf : ∀ x : BitVec 32, x.extractLsb' 8 8 ++ x.extractLsb' 0 8 = x.extractLsb' 0 16 :=
    fun x => BitVec.extractLsb'_append_extractLsb'_eq_extractLsb' rfl
  have hmid : ((base >>> 16) &&& 0xFF).setWidth 8 = base.extractLsb' 16 8 := masked_field base 16 8
  have hhigh : ((base >>> 24) &&& 0xFF).setWidth 8 = base.extractLsb' 24 8 :=
    masked_field base 24 8
  simp only [storeDescriptor, Memory.loadHalf, Memory.storeHalf, Memory.store_byte, geLimitLow,
    geBaseLow, geBaseMid, geAccess, geFlags, geBaseHigh, BitVec.add_assoc, BitVec.add_right_inj,
    BitVec.self_eq_add_right, BitVec.reduceAdd, low_half, hmid, hhigh]
  simp [hhalf]

theorem storeDescriptor_frame (m : Memory Addr) (entry : Addr) (base limit : BitVec 32)
    (access flags : Byte) :
    m.Frame (storeDescriptor m entry base limit access flags) (Within entry 8) := by
  have hbyte : ∀ k : Addr, k.toNat < 8 → Within entry 8 (entry + k) := by
    intro k hk
    unfold Within
    rwa [show entry + k - entry = k by bv_omega]
  have hhalf : ∀ (k : Addr) (m : Memory Addr) (h : BitVec 16), k.toNat + 1 < 8 →
      m.Frame (m.storeHalf (entry + k) h) (Within entry 8) := by
    intro k m h hk
    refine (m.frame_storeHalf _ h).mono fun x hx => ?_
    unfold Within at *
    bv_omega
  simp only [storeDescriptor]
  refine Memory.Frame.trans ?_ (Memory.frame_store _ _ _ (hbyte geAccess (by decide)))
  refine Memory.Frame.trans ?_ (Memory.frame_store _ _ _ (hbyte geFlags (by decide)))
  refine Memory.Frame.trans ?_ (Memory.frame_store _ _ _ (hbyte geFlags (by decide)))
  refine Memory.Frame.trans ?_ (hhalf geLimitLow _ _ (by decide))
  refine Memory.Frame.trans ?_ (Memory.frame_store _ _ _ (hbyte geBaseHigh (by decide)))
  refine Memory.Frame.trans ?_ (Memory.frame_store _ _ _ (hbyte geBaseMid (by decide)))
  exact hhalf geBaseLow m _ (by decide)

/-- The flags keep their high nibble; the low one is the top of the limit. -/
theorem flags_nibbles (limit : BitVec 32) (flags : Byte) :
    let byte : Byte := ((limit >>> 16) &&& 0x0F).setWidth 8 ||| (flags &&& 0xF0)
    byte.extractLsb' 0 4 = limit.extractLsb' 16 4 ∧ byte.extractLsb' 4 4 = flags.extractLsb' 4 4 ∧
      byte.getLsbD 7 = flags.getLsbD 7 := by
  refine ⟨?_, ?_, ?_⟩
  · apply BitVec.eq_of_getLsbD_eq
    intro k hk
    interval_cases k <;> simp
  · apply BitVec.eq_of_getLsbD_eq
    intro k hk
    interval_cases k <;> simp
  · simp

theorem decode_storeDescriptor (m : Memory Addr) (entry : Addr) (base limit : BitVec 32)
    (access flags : Byte) : decode (storeDescriptor m entry base limit access flags) entry =
      Request.granted ⟨base, limit, access, flags⟩ := by
  obtain ⟨hlow, hbase, hmid, haccess, hflags, hhigh⟩ :=
    storeDescriptor_bytes m entry base limit access flags
  obtain ⟨hnibble, hkept, hgranularity⟩ := flags_nibbles limit flags
  have hfield : limitField (storeDescriptor m entry base limit access flags) entry =
      limit.extractLsb' 0 20 := by
    rw [limitField, hflags, hnibble, hlow]
    exact BitVec.extractLsb'_append_extractLsb'_eq_extractLsb' rfl
  have hwhole : base.extractLsb' 24 8 ++ base.extractLsb' 16 8 ++ base.extractLsb' 0 16 = base := by
    have hupper : base.extractLsb' 24 8 ++ base.extractLsb' 16 8 = base.extractLsb' 16 (8 + 8) :=
      BitVec.extractLsb'_append_extractLsb'_eq_extractLsb' rfl
    rw [hupper]
    exact BitVec.extractLsb'_append_extractLsb'
  simp only [decode, Request.granted, hfield, hflags, hhigh, hmid, hbase, haccess, hkept,
    hgranularity, hwhole]

/-- A descriptor is read from its own eight bytes. -/
theorem decode_congr {m m' : Memory Addr} (h : ∀ x, Within entry 8 x → m'.byte x = m.byte x) :
    decode m' entry = decode m entry := by
  have hbyte : ∀ k : Addr, k.toNat < 8 → m'.byte (entry + k) = m.byte (entry + k) := by
    intro k hk
    apply h
    unfold Within
    rwa [show entry + k - entry = k by bv_omega]
  have hfirst : m'.byte entry = m.byte entry := h entry (by simp [Within])
  simp only [decode, limitField, Memory.loadHalf, BitVec.add_assoc, BitVec.reduceAdd, hfirst,
    hbyte 1 (by decide), hbyte 2 (by decide), hbyte 3#32 (by decide), hbyte 4 (by decide),
    hbyte 5 (by decide), hbyte 6 (by decide), hbyte 7 (by decide)]

/-- The byte limit that is read back, as a number. -/
theorem decoded_limit (limit : BitVec 32) (pages : Bool) :
    (if pages then limit.extractLsb' 0 20 ++ (0xFFF : BitVec 12)
      else (limit.extractLsb' 0 20).setWidth 32).toNat =
      if pages then limit.toNat % 2 ^ 20 * 4096 + 4095 else limit.toNat % 2 ^ 20 := by
  have hfield : (limit.extractLsb' 0 20).toNat = limit.toNat % 2 ^ 20 := by
    rw [BitVec.extractLsb'_toNat, Nat.shiftRight_zero]
  cases pages with
  | false =>
      simp only [Bool.false_eq_true, if_false]
      rw [BitVec.toNat_setWidth, hfield]
      omega
  | true =>
      simp only [if_true]
      rw [BitVec.toNat_append, hfield, ← Nat.shiftLeft_add_eq_or_of_lt (by decide),
        Nat.shiftLeft_eq]
      rfl

/-- A request is granted exactly where its limit survives. -/
theorem granted_grants_iff (r : Request) : Grants r.granted r ↔ r.LimitSurvives := by
  have hlt := r.limit.isLt
  have hlimit := decoded_limit r.limit (r.flags.getLsbD 7)
  rw [Request.granted]
  generalize (if r.flags.getLsbD 7 then r.limit.extractLsb' 0 20 ++ (0xFFF : BitVec 12)
    else (r.limit.extractLsb' 0 20).setWidth 32) = stored at *
  have hgrants : Grants ⟨r.base, stored, r.access, r.flags.extractLsb' 4 4⟩ r ↔
      (r.Representable → stored.toNat = r.limit.toNat) ∧ stored.toNat ≤ r.limit.toNat := by
    constructor
    · intro h
      refine ⟨fun hr => ?_, h.within.2⟩
      have hseg := h.exact hr
      rw [Segment.mk.injEq] at hseg
      exact congrArg BitVec.toNat hseg.2.1
    · intro h
      refine ⟨fun hr => ?_, rfl, h.2⟩
      rw [BitVec.eq_of_toNat_eq (h.1 hr)]
  rw [hgrants, hlimit]
  cases hpages : r.flags.getLsbD 7 with
  | false =>
      simp only [Request.Representable, Request.LimitSurvives, hpages, Bool.false_eq_true, if_false,
        false_implies, iff_true]
      exact ⟨fun hr => Nat.mod_eq_of_lt hr, Nat.mod_le _ _⟩
  | true =>
      have hall : r.limit = 0xFFFFFFFF ↔ r.limit.toNat = 0xFFFFFFFF :=
        ⟨fun h => by rw [h]; rfl, fun h => BitVec.eq_of_toNat_eq h⟩
      simp only [Request.Representable, Request.LimitSurvives, hpages, if_true, true_implies, hall]
      constructor
      · intro h
        by_cases hones : r.limit.toNat % 4096 = 4095
        · have hexact := h.1 hones
          omega
        · omega
      · intro h
        omega

end Descriptor

/-- Descriptors stored one after the other, each at its index. -/
def storeSegments (cpuGdt : Addr) (m : Memory Addr) (segments : List (Addr × Request)) :
    Memory Addr :=
  segments.foldl (fun m e => storeDescriptor m (gdtEntry cpuGdt e.1) e.2.base e.2.limit e.2.access
    e.2.flags) m

section Table
variable {cpuGdt : Addr} {m : Memory Addr} {segments : List (Addr × Request)}

theorem x86GdtSet_mem (entry : Addr) (base limit : BitVec 32) (access flags : Byte) (s : Kernel) :
    (x86GdtSet entry base limit access flags s).mem =
      storeDescriptor s.mem entry base limit access flags := rfl

theorem segmentsInit_mem (cpuGdt tss : Addr) (s : Kernel) : (segmentsInit cpuGdt tss s).mem =
    storeSegments cpuGdt (memset s.mem cpuGdt 0 (8 * x86GdtSegSize)).2 (gdtSegments tss) := by
  simp only [segmentsInit, x86GdtSet_mem, storeSegments, gdtSegments, List.foldl_cons,
    List.foldl_nil]
  rfl

theorem storeSegments_other {i : Addr} (hi : i.toNat < 6)
    (h : ∀ e ∈ segments, e.1 ≠ i ∧ e.1.toNat < 6) :
    decode (storeSegments cpuGdt m segments) (gdtEntry cpuGdt i) =
      decode m (gdtEntry cpuGdt i) := by
  induction segments generalizing m with
  | nil => rfl
  | cons e rest ih =>
      obtain ⟨hne, hlt⟩ := h e (by simp)
      have hrest := @ih (storeDescriptor m (gdtEntry cpuGdt e.1) e.2.base e.2.limit e.2.access
        e.2.flags) fun e he => h e (by simp [he])
      refine hrest.trans (decode_congr fun x hx => ?_)
      refine (storeDescriptor_frame m (gdtEntry cpuGdt e.1) e.2.base e.2.limit e.2.access
        e.2.flags).1 x fun hx' => ?_
      unfold Within gdtEntry at hx hx'
      bv_omega

theorem decode_storeSegments (hlt : ∀ e ∈ segments, e.1.toNat < 6)
    (hnodup : (segments.map Prod.fst).Nodup) {e : Addr × Request} (he : e ∈ segments) :
    decode (storeSegments cpuGdt m segments) (gdtEntry cpuGdt e.1) = e.2.granted := by
  induction segments generalizing m with
  | nil => cases he
  | cons first rest ih =>
      rw [List.map_cons, List.nodup_cons] at hnodup
      obtain rfl | he := List.mem_cons.mp he
      · have hother : ∀ e' ∈ rest, e'.1 ≠ e.1 ∧ e'.1.toNat < 6 := by
          intro e' he'
          refine ⟨fun heq => hnodup.1 ?_, hlt e' (by simp [he'])⟩
          exact List.mem_map.mpr ⟨e', he', heq⟩
        have hkept := @storeSegments_other cpuGdt (storeDescriptor m (gdtEntry cpuGdt e.1) e.2.base
          e.2.limit e.2.access e.2.flags) rest e.1 (hlt e (by simp)) hother
        exact hkept.trans (decode_storeDescriptor m _ _ _ _ _)
      · exact ih (fun e he => hlt e (by simp [he])) hnodup.2 he

theorem decode_segmentsInit (cpuGdt tss : Addr) (s : Kernel) {e : Addr × Request}
    (he : e ∈ gdtSegments tss) :
    decode (segmentsInit cpuGdt tss s).mem (gdtEntry cpuGdt e.1) = e.2.granted := by
  have hlt : ∀ e ∈ gdtSegments tss, e.1.toNat < 6 := by
    simp [gdtSegments, x86GdtSegCodek, x86GdtSegDatak, x86GdtSegCodeu, x86GdtSegDatau,
      x86GdtSegTss]
  have hnodup : ((gdtSegments tss).map Prod.fst).Nodup := by
    change [x86GdtSegCodek, x86GdtSegDatak, x86GdtSegCodeu, x86GdtSegDatau, x86GdtSegTss].Nodup
    decide
  rw [segmentsInit_mem, decode_storeSegments hlt hnodup he]

end Table

/-- A descriptor grants what was asked exactly where the stored limit means
that; of the segments of `segments_init` this leaves out the last. -/
theorem x86_gdt_set_grants_iff (entry : Addr) (r : Request) (cpuGdt tss : Addr) (s : Kernel) :
    (Grants (decode (x86GdtSet entry r.base r.limit r.access r.flags s).mem entry) r ↔
      r.LimitSurvives) ∧
      ∀ e ∈ gdtSegments tss,
        (Grants (decode (segmentsInit cpuGdt tss s).mem (gdtEntry cpuGdt e.1)) e.2 ↔
          e.1 ≠ x86GdtSegTss) := by
  constructor
  · rw [x86GdtSet_mem, decode_storeDescriptor]
    exact granted_grants_iff r
  · intro e he
    rw [decode_segmentsInit cpuGdt tss s he, granted_grants_iff]
    simp only [gdtSegments, List.mem_cons, List.not_mem_nil, or_false] at he
    obtain rfl | rfl | rfl | rfl | rfl := he
    · exact ⟨fun _ => by decide, fun _ _ => .inl rfl⟩
    · exact ⟨fun _ => by decide, fun _ _ => .inl rfl⟩
    · exact ⟨fun _ => by decide, fun _ _ => .inl rfl⟩
    · exact ⟨fun _ => by decide, fun _ _ => .inl rfl⟩
    · simp only [Request.LimitSurvives, tssSize, ne_eq, not_true_eq_false, iff_false]
      decide

/-- 108 bytes are asked for the TSS, and 436 kB are granted. -/
theorem segments_init_overreaches :
    (decode (segmentsInit 0x80110004 0x80111000 ⟨⟨fun _ => 0, []⟩, []⟩).mem
      (gdtEntry 0x80110004 x86GdtSegTss)).limit = 0x6CFFF ∧
    ¬ Grants (decode (segmentsInit 0x80110004 0x80111000 ⟨⟨fun _ => 0, []⟩, []⟩).mem
      (gdtEntry 0x80110004 x86GdtSegTss)) ⟨0x80111000, tssSize, 0xF2, 0xCF⟩ := by
  have hmem : (x86GdtSegTss, Request.mk 0x80111000 tssSize 0xF2 0xCF) ∈ gdtSegments 0x80111000 := by
    simp [gdtSegments]
  rw [decode_segmentsInit _ _ _ hmem]
  refine ⟨by decide, ?_⟩
  intro h
  exact absurd h.within.2 (by decide)

end Yack.SegmentDescriptors
