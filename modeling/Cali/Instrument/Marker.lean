import Cali.Lib.Bitmap

/-!
# Usage marks

`libipc/instrument/instrumentation.cpp` has one bit for each four bytes of shared memory, which
is set when the library uses them.  `unset` and `check` take the bits of a range in three loops:
whole bytes, the bits in front of them and the bits behind them.  The two ends of the whole bytes
are rounded independently, so a range that contains no boundary of bytes has them in the wrong
order, and the loops for single bits then go over the whole byte.

Addresses and sizes are numbers below `2 ^ 64`, and their sums are cut back to 64 bits.
-/

namespace Cali.Instrument

open Cali.Lib

/-- `MemoryRangeMarker` -/
structure MemoryRangeMarker where
  memoryStart : ℕ
  data : List (BitVec 8)
deriving DecidableEq

namespace MemoryRangeMarker

/-- `divisor` -/
def divisor : ℕ := 4

/-- The constructor -/
def ofSize (memoryStart memorySizeInMb : ℕ) : MemoryRangeMarker :=
  ⟨memoryStart, List.replicate (memorySizeInMb * 1024 * 1024 / divisor / 8) 0⟩

/-- `bitidx_begin` -/
def bitidxBegin (m : MemoryRangeMarker) (addr : ℕ) : ℕ :=
  (addr + 2 ^ 64 - m.memoryStart) % 2 ^ 64 / divisor

/-- `bitidx_end` -/
def bitidxEnd (m : MemoryRangeMarker) (addr size : ℕ) : ℕ :=
  (addr + size + 2 ^ 64 - m.memoryStart + divisor - 1) % 2 ^ 64 / divisor

/-- `innerbytes_begin` -/
def innerbytesBegin (bitidxBegin : ℕ) : ℕ := (bitidxBegin + 7) / 8

/-- `innerbytes_end` -/
def innerbytesEnd (bitidxEnd : ℕ) : ℕ := bitidxEnd / 8

/-- The values of the counter of `for (i = first; i < last; i++)` -/
def counter (first last : ℕ) : List ℕ := List.range' first (last - first)

/-- `data[i] = 0`; an access behind the end of the bitmap has no result -/
def clearByte (data : List (BitVec 8)) (i : ℕ) : Option (List (BitVec 8)) :=
  data[i]?.map fun _ ↦ data.set i 0#8

/-- `data[i / 8] &= ~(1 << (i % 8))` -/
def clearBit (data : List (BitVec 8)) (i : ℕ) : Option (List (BitVec 8)) :=
  data[i / 8]?.map fun b ↦ data.set (i / 8) (b &&& ~~~(1#8 <<< (i % 8)))

/-- `data[i] != 0` -/
def testByte (data : List (BitVec 8)) (i : ℕ) : Option Bool := data[i]?.map fun b ↦ b != 0#8

/-- `data[i / 8] & (1 << (i % 8))` -/
def testBit (data : List (BitVec 8)) (i : ℕ) : Option Bool :=
  data[i / 8]?.map fun b ↦ b &&& 1#8 <<< (i % 8) != 0#8

/-- The loops of `unset` -/
def unsetLoops (data : List (BitVec 8)) (first last : ℕ) : Option (List (BitVec 8)) := do
  let data ← (counter (innerbytesBegin first) (innerbytesEnd last)).foldlM clearByte data
  let data ← (counter first (innerbytesBegin first * 8)).foldlM clearBit data
  (counter (innerbytesEnd last * 8) last).foldlM clearBit data

/-- `unset` -/
def unset (m : MemoryRangeMarker) (addr size : ℕ) : Option MemoryRangeMarker :=
  (unsetLoops m.data (m.bitidxBegin addr) (m.bitidxEnd addr size)).map fun data ↦
    { m with data := data }

/-- The loops of `check` -/
def checkLoops (data : List (BitVec 8)) (first last : ℕ) : Option Bool := do
  if ← (counter first (innerbytesBegin first * 8)).anyM (testBit data) then return true
  if ← (counter (innerbytesBegin first) (innerbytesEnd last)).anyM (testByte data) then
    return true
  (counter (innerbytesEnd last * 8) last).anyM (testBit data)

/-- `check` -/
def check (m : MemoryRangeMarker) (addr size : ℕ) : Option Bool :=
  checkLoops m.data (m.bitidxBegin addr) (m.bitidxEnd addr size)

variable {m : MemoryRangeMarker} {data : List (BitVec 8)} {addr size first last i j : ℕ}

/-! ## Single bytes and bits -/

theorem mem_counter : i ∈ counter first last ↔ first ≤ i ∧ i < last := by
  unfold counter
  rw [List.mem_range'_1]
  omega

theorem bit_eq_getLsbD {b : BitVec 8} (hj : j / 8 = i) (hb : data[i]? = some b) :
    bit data j = b.getLsbD (j % 8) := by
  unfold bit
  rw [List.getD_eq_getElem?_getD, hj, hb, Option.getD_some]

/-- The mask `1 << i` has the bit `i` and no other. -/
theorem getLsbD_mask {k : ℕ} (hi : i < 8) : (1#8 <<< i).getLsbD k = decide (i = k) := by
  show (BitVec.twoPow 8 i).getLsbD k = _
  rw [BitVec.getLsbD_twoPow, decide_eq_true hi, Bool.true_and]

theorem exists_clearByte (hi : i < data.length) :
    ∃ data', clearByte data i = some data' ∧ Clears (fun j ↦ j / 8 = i) data data' := by
  refine ⟨data.set i 0#8, ?_, clears_set hi (fun j hj ↦ ?_) fun _ ↦ id⟩
  · unfold clearByte
    rw [List.getElem?_eq_getElem hi, Option.map_some]
  · exact iff_of_false (by simp) fun h ↦ h.2 hj

theorem exists_clearBit (hi : i / 8 < data.length) :
    ∃ data', clearBit data i = some data' ∧ Clears (fun j ↦ j = i) data data' := by
  have hget := List.getElem?_eq_getElem hi
  refine ⟨_, by rw [clearBit, hget, Option.map_some], clears_set hi (fun j hj ↦ ?_) ?_⟩
  · rw [BitVec.getLsbD_and, Bool.and_eq_true, bit_eq_getLsbD hj hget]
    refine and_congr_right fun _ ↦ ?_
    rw [BitVec.getLsbD_not, getLsbD_mask (Nat.mod_lt i (by decide)), Bool.and_eq_true,
      decide_eq_true_eq, Bool.not_eq_true', decide_eq_false_iff_not]
    omega
  · rintro j rfl
    rfl

theorem exists_testBit (hi : i / 8 < data.length) :
    ∃ r, testBit data i = some r ∧ (r = true ↔ bit data i = true) := by
  have hget := List.getElem?_eq_getElem hi
  refine ⟨_, by rw [testBit, hget, Option.map_some], ?_⟩
  rw [bit_eq_getLsbD rfl hget, bne_iff_ne]
  show data[i / 8] &&& BitVec.twoPow 8 (i % 8) ≠ 0#8 ↔ _
  rw [BitVec.and_twoPow]
  split
  next hset =>
    refine iff_of_true (fun hzero ↦ ?_) hset
    have hmask := getLsbD_mask (k := i % 8) (Nat.mod_lt i (by decide))
    rw [show 1#8 <<< (i % 8) = 0#8 from hzero] at hmask
    simp at hmask
  next hunset => exact iff_of_false (fun h ↦ h rfl) hunset

theorem exists_testByte (hi : i < data.length) :
    ∃ r, testByte data i = some r ∧ (r = true ↔ ∃ j, j / 8 = i ∧ bit data j = true) := by
  have hget := List.getElem?_eq_getElem hi
  refine ⟨_, by rw [testByte, hget, Option.map_some], ?_⟩
  rw [bne_iff_ne]
  constructor
  · intro hne
    by_contra hnone
    refine hne (BitVec.eq_of_getLsbD_eq fun k hk ↦ ?_)
    have hj : (8 * i + k) / 8 = i := by omega
    have hmod : (8 * i + k) % 8 = k := by omega
    have hbit : bit data (8 * i + k) = data[i].getLsbD k := by
      rw [bit_eq_getLsbD hj hget, hmod]
    rw [← hbit, BitVec.getLsbD_zero]
    exact Bool.eq_false_of_not_eq_true fun h ↦ hnone ⟨_, hj, h⟩
  · rintro ⟨j, rfl, hset⟩ hzero
    rw [bit_eq_getLsbD rfl hget, hzero, BitVec.getLsbD_zero] at hset
    cases hset

/-! ## The three loops -/

/-- The bits that the loops go over: those of the range, and the rest of its byte if there is no
boundary of bytes in the range. -/
def Visits (first last j : ℕ) : Prop :=
  (first ≤ j ∧ j < last) ∨ innerbytesEnd last * 8 ≤ j ∧ j < innerbytesBegin first * 8

theorem visits_iff (hle : first ≤ last) :
    Visits first last j ↔
      (innerbytesBegin first ≤ j / 8 ∧ j / 8 < innerbytesEnd last) ∨
      (first ≤ j ∧ j < innerbytesBegin first * 8) ∨ (innerbytesEnd last * 8 ≤ j ∧ j < last) := by
  unfold Visits innerbytesBegin innerbytesEnd
  omega

section Loops

variable (hle : first ≤ last) (hlast : last ≤ 8 * data.length)

include hle hlast

theorem lt_length_of_visits (h : Visits first last j) : j / 8 < data.length := by
  unfold Visits innerbytesBegin innerbytesEnd at h
  omega

theorem lt_length_of_inner (h : i ∈ counter (innerbytesBegin first) (innerbytesEnd last)) :
    i < data.length := by
  obtain ⟨h₁, h₂⟩ := mem_counter.mp h
  have hvisits : Visits first last (8 * i) := by
    unfold Visits innerbytesBegin innerbytesEnd at *
    omega
  have hlt := lt_length_of_visits hle hlast hvisits
  rwa [Nat.mul_div_cancel_left i (by decide)] at hlt

theorem lt_length_of_head (h : i ∈ counter first (innerbytesBegin first * 8)) :
    i / 8 < data.length :=
  lt_length_of_visits hle hlast ((visits_iff hle).mpr (Or.inr (Or.inl (mem_counter.mp h))))

theorem lt_length_of_tail (h : i ∈ counter (innerbytesEnd last * 8) last) :
    i / 8 < data.length :=
  lt_length_of_visits hle hlast ((visits_iff hle).mpr (Or.inr (Or.inr (mem_counter.mp h))))

/-- **`unset` clears the bits that it goes over.** -/
theorem exists_unsetLoops :
    ∃ data', unsetLoops data first last = some data' ∧
      Clears (Visits first last) data data' := by
  obtain ⟨data₁, h₁, hclears₁⟩ := exists_clears_foldlM (f := clearByte)
    (fun i hi data' hn ↦ exists_clearByte (hn ▸ lt_length_of_inner hle hlast hi))
    (rfl : data.length = data.length)
  obtain ⟨data₂, h₂, hclears₂⟩ := exists_clears_foldlM (f := clearBit)
    (fun i hi data' hn ↦ exists_clearBit (hn ▸ lt_length_of_head hle hlast hi)) hclears₁.length_eq
  obtain ⟨data₃, h₃, hclears₃⟩ := exists_clears_foldlM (f := clearBit)
    (fun i hi data' hn ↦ exists_clearBit (hn ▸ lt_length_of_tail hle hlast hi))
    (hclears₂.length_eq.trans hclears₁.length_eq)
  refine ⟨data₃, ?_, ((hclears₁.trans hclears₂).trans hclears₃).congr fun j ↦ ?_⟩
  · simp only [unsetLoops, h₁, h₂, h₃, Option.bind_eq_bind, Option.bind_some]
  · rw [visits_iff hle, or_assoc]
    simp only [mem_counter, exists_eq_right']

/-- **`check` tests the bits that it goes over.** -/
theorem exists_checkLoops :
    ∃ r, checkLoops data first last = some r ∧
      (r = true ↔ ∃ j, Visits first last j ∧ bit data j = true) := by
  obtain ⟨r₁, h₁, hiff₁⟩ := exists_anyM_iff fun i hi ↦
    exists_testBit (lt_length_of_head hle hlast hi)
  obtain ⟨r₂, h₂, hiff₂⟩ := exists_anyM_iff fun i hi ↦
    exists_testByte (lt_length_of_inner hle hlast hi)
  obtain ⟨r₃, h₃, hiff₃⟩ := exists_anyM_iff fun i hi ↦
    exists_testBit (lt_length_of_tail hle hlast hi)
  refine ⟨r₁ || r₂ || r₃, ?_, ?_⟩
  · simp only [checkLoops, h₁, h₂, h₃, Option.bind_eq_bind, Option.bind_some]
    cases r₁ with
    | true => rfl
    | false => cases r₂ <;> rfl
  · rw [Bool.or_eq_true, Bool.or_eq_true, hiff₁, hiff₂, hiff₃]
    simp only [visits_iff hle, mem_counter]
    constructor
    · rintro ((⟨j, hj, hset⟩ | ⟨i, hi, j, rfl, hset⟩) | ⟨j, hj, hset⟩)
      · exact ⟨j, Or.inr (Or.inl hj), hset⟩
      · exact ⟨j, Or.inl hi, hset⟩
      · exact ⟨j, Or.inr (Or.inr hj), hset⟩
    · rintro ⟨j, hj | hj | hj, hset⟩
      · exact Or.inl (Or.inr ⟨j / 8, hj, j, rfl, hset⟩)
      · exact Or.inl (Or.inl ⟨j, hj, hset⟩)
      · exact Or.inr ⟨j, hj, hset⟩

end Loops

/-! ## Ranges of addresses -/

/-- A range of addresses that lies inside the bitmap. -/
structure Inside (m : MemoryRangeMarker) (addr size : ℕ) : Prop where
  start_le : m.memoryStart ≤ addr
  no_wrap : addr + size - m.memoryStart + divisor - 1 < 2 ^ 64
  end_le : (addr + size - m.memoryStart + 3) / 4 ≤ 8 * m.data.length

/-- **The marks of a range are cleared and tested exactly**: `unset` clears the bits of the range
and no other one, and `check` finds a bit that is set in the range. -/
structure Exact (m : MemoryRangeMarker) (addr size : ℕ) : Prop where
  unset : ∃ m', m.unset addr size = some m' ∧ m'.memoryStart = m.memoryStart ∧
    m'.data.length = m.data.length ∧
    ∀ j, bit m'.data j =
      if (addr - m.memoryStart) / 4 ≤ j ∧ j < (addr + size - m.memoryStart + 3) / 4 then false
      else bit m.data j
  check : ∃ r, m.check addr size = some r ∧ (r = true ↔
    ∃ j, ((addr - m.memoryStart) / 4 ≤ j ∧ j < (addr + size - m.memoryStart + 3) / 4) ∧
      bit m.data j = true)

theorem Inside.bitidxBegin_eq (h : m.Inside addr size) :
    m.bitidxBegin addr = (addr - m.memoryStart) / 4 := by
  have hle := h.start_le
  have hlt := h.no_wrap
  unfold bitidxBegin divisor at *
  rw [show addr + 2 ^ 64 - m.memoryStart = addr - m.memoryStart + 2 ^ 64 by omega,
    Nat.add_mod_right, Nat.mod_eq_of_lt (by omega)]

theorem Inside.bitidxEnd_eq (h : m.Inside addr size) :
    m.bitidxEnd addr size = (addr + size - m.memoryStart + 3) / 4 := by
  have hle := h.start_le
  have hlt := h.no_wrap
  unfold bitidxEnd divisor at *
  rw [show addr + size + 2 ^ 64 - m.memoryStart + 4 - 1 =
      addr + size - m.memoryStart + 3 + 2 ^ 64 by omega,
    Nat.add_mod_right, Nat.mod_eq_of_lt (by omega)]

theorem Inside.begin_le_end (h : m.Inside addr size) :
    m.bitidxBegin addr ≤ m.bitidxEnd addr size := by
  rw [h.bitidxBegin_eq, h.bitidxEnd_eq]
  exact Nat.div_le_div_right (by omega)

/-- **The marks are exact if and only if no other bit is set in the byte of a range that contains
no boundary of bytes.** -/
theorem exact_iff (h : m.Inside addr size) :
    m.Exact addr size ↔
      ∀ j, (addr + size - m.memoryStart + 3) / 4 / 8 * 8 ≤ j →
        j < ((addr - m.memoryStart) / 4 + 7) / 8 * 8 → bit m.data j = true →
          (addr - m.memoryStart) / 4 ≤ j ∧ j < (addr + size - m.memoryStart + 3) / 4 := by
  have hend : m.bitidxEnd addr size ≤ 8 * m.data.length := h.bitidxEnd_eq ▸ h.end_le
  obtain ⟨data', hunset, hclears⟩ := exists_unsetLoops h.begin_le_end hend
  obtain ⟨r, hcheck, hr⟩ := exists_checkLoops h.begin_le_end hend
  rw [← h.bitidxBegin_eq, ← h.bitidxEnd_eq]
  constructor
  · intro hexact j hj₁ hj₂ hset
    obtain ⟨m', hm', -, -, hbits⟩ := hexact.unset
    rw [unset, hunset, Option.map_some, Option.some.injEq] at hm'
    subst hm'
    by_contra hout
    have hkept := hbits j
    rw [← h.bitidxBegin_eq, ← h.bitidxEnd_eq, if_neg hout, hset, hclears.bit_iff] at hkept
    exact hkept.2 (Or.inr ⟨hj₁, hj₂⟩)
  · intro hbyte
    have hvisits : ∀ j, bit m.data j = true →
        (Visits (m.bitidxBegin addr) (m.bitidxEnd addr size) j ↔
          m.bitidxBegin addr ≤ j ∧ j < m.bitidxEnd addr size) := by
      intro j hset
      refine ⟨fun hj ↦ hj.elim id fun hj ↦ hbyte j hj.1 hj.2 hset, Or.inl⟩
    constructor
    · refine ⟨{ m with data := data' }, ?_, rfl, hclears.length_eq, fun j ↦ ?_⟩
      · rw [unset, hunset, Option.map_some]
      · rw [← h.bitidxBegin_eq, ← h.bitidxEnd_eq, Bool.eq_iff_iff, hclears.bit_iff]
        by_cases hj : m.bitidxBegin addr ≤ j ∧ j < m.bitidxEnd addr size
        · rw [if_pos hj]
          exact iff_of_false (fun hset ↦ hset.2 (Or.inl hj)) Bool.false_ne_true
        · rw [if_neg hj]
          exact and_iff_left_of_imp fun hset ↦ (hvisits j hset).not.mpr hj
    · refine ⟨r, hcheck, ?_⟩
      rw [← h.bitidxBegin_eq, ← h.bitidxEnd_eq, hr]
      refine exists_congr fun j ↦ and_congr_left fun hset ↦ hvisits j hset

/-- Ten words from the second one on, which end in the second byte. -/
theorem exact_two_bytes :
    let m : MemoryRangeMarker := ⟨0x1000, [0xff, 0xff]⟩
    m.Inside 0x1004 40 ∧ m.Exact 0x1004 40 := by
  intro m
  have hinside : m.Inside 0x1004 40 := ⟨by decide, by decide, by decide⟩
  refine ⟨hinside, (exact_iff hinside).mpr fun j hj₁ hj₂ _ ↦ ?_⟩
  exact absurd (Nat.lt_of_le_of_lt hj₁ hj₂) (by decide)

/-- One word inside a byte: `unset` clears the mark of the word before it, and `check` finds
it. -/
theorem not_exact_one_byte :
    let m : MemoryRangeMarker := ⟨0x1000, [1]⟩
    m.Inside 0x1004 4 ∧ m.unset 0x1004 4 = some ⟨0x1000, [0]⟩ ∧ m.check 0x1004 4 = some true ∧
      ¬ m.Exact 0x1004 4 := by
  intro m
  have hunset : m.unset 0x1004 4 = some ⟨0x1000, [0]⟩ := by decide
  refine ⟨⟨by decide, by decide, by decide⟩, hunset, by decide, fun hexact ↦ ?_⟩
  obtain ⟨m', hm', -, -, hbits⟩ := hexact.unset
  obtain rfl := Option.some.inj (hunset.symm.trans hm')
  exact absurd (hbits 0) (by decide)

end MemoryRangeMarker

end Cali.Instrument
