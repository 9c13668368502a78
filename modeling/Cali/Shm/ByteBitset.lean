import Mathlib.Data.BitVec

/-!
# `libipc/byte_bitset.h`

One byte used as a set of eight bits.  The shifts of the source happen at the
width of `int`, and the result is cut back to eight bits when it is stored; the
model keeps both steps.
-/

namespace Cali.Shm

/-- `struct ByteBitset`. -/
structure ByteBitset where
  data : BitVec 8
deriving DecidableEq, Repr

namespace ByteBitset

/-- `count()`: the number of bits that are set. -/
def count (b : ByteBitset) : ℕ := ((List.range 8).filter b.data.getLsbD).length

/-- `all()`: every bit is set. -/
def all (b : ByteBitset) : Bool := b.data == 0xff#8

/-- `none()`: no bit is set. -/
def none (b : ByteBitset) : Bool := b.data == 0#8

/-- `operator[]`. -/
def get (b : ByteBitset) (index : ℕ) : Bool :=
  (b.data.setWidth 32 &&& 1#32 <<< index) != 0#32

/-- `set(index, bit)`. -/
def set (b : ByteBitset) (index : ℕ) (bit : Bool) : ByteBitset :=
  if bit then
    ⟨(b.data.setWidth 32 ||| 1#32 <<< index).setWidth 8⟩
  else
    ⟨(b.data.setWidth 32 ^^^ (b.data.setWidth 32 &&& 1#32 <<< index)).setWidth 8⟩

/-- The mask `1 << i` has the bit `i` and no other. -/
theorem getLsbD_mask {i : ℕ} (hi : i < 8) (k : ℕ) :
    (1#32 <<< i).getLsbD k = decide (k = i) := by
  simp only [BitVec.getLsbD_shiftLeft, BitVec.getLsbD_one]
  by_cases hki : k = i
  · subst hki
    have : k < 32 := by omega
    simp [this]
  · have : k < i ∨ k - i ≠ 0 := by omega
    rcases this with h | h <;> simp [h, hki]

theorem get_eq_getLsbD (b : ByteBitset) {index : ℕ} (h : index < 8) :
    b.get index = b.data.getLsbD index := by
  have hbit : ∀ i, i < 32 → (b.data.setWidth 32 &&& 1#32 <<< index).getLsbD i =
      (decide (i = index) && b.data.getLsbD index) := by
    intro i hi
    rw [BitVec.getLsbD_and, getLsbD_mask h, BitVec.getLsbD_setWidth]
    by_cases hii : i = index <;> simp [hii]
    omega
  unfold get
  cases hb : b.data.getLsbD index with
  | false =>
    simp only [bne_eq_false_iff_eq]
    apply BitVec.eq_of_getLsbD_eq
    intro i hi
    rw [hbit i hi, hb]
    simp
  | true =>
    simp only [bne_iff_ne]
    intro hc
    have := hbit index (by omega)
    rw [hc, hb] at this
    simp at this

theorem get_set (b : ByteBitset) {i j : ℕ} (bit : Bool) (hi : i < 8) (hj : j < 8) :
    (b.set i bit).get j = if j = i then bit else b.get j := by
  rw [get_eq_getLsbD _ hj, get_eq_getLsbD _ hj]
  have hj32 : j < 32 := by omega
  cases bit with
  | true =>
    simp only [set, ↓reduceIte, BitVec.getLsbD_setWidth, BitVec.getLsbD_or, getLsbD_mask hi, hj,
      hj32, decide_true, Bool.true_and]
    by_cases hji : j = i <;> simp [hji]
  | false =>
    simp only [set, Bool.false_eq_true, ↓reduceIte, BitVec.getLsbD_setWidth, BitVec.getLsbD_xor,
      BitVec.getLsbD_and, getLsbD_mask hi, hj, hj32, decide_true, Bool.true_and]
    by_cases hji : j = i <;> simp [hji]

/-- `all()` holds exactly when each of the eight bits is set. -/
theorem all_iff (b : ByteBitset) : b.all = true ↔ ∀ j, j < 8 → b.get j = true := by
  simp only [all, beq_iff_eq]
  constructor
  · intro h j hj
    rw [get_eq_getLsbD _ hj, h]
    revert j
    decide
  · intro h
    apply BitVec.eq_of_getLsbD_eq
    intro j hj
    rw [← get_eq_getLsbD _ hj, h j hj]
    revert j
    decide

/-- `none()` holds exactly when none of the eight bits is set. -/
theorem none_iff (b : ByteBitset) : b.none = true ↔ ∀ j, j < 8 → b.get j = false := by
  simp only [none, beq_iff_eq]
  constructor
  · intro h j hj
    rw [get_eq_getLsbD _ hj, h]
    simp
  · intro h
    apply BitVec.eq_of_getLsbD_eq
    intro j hj
    rw [← get_eq_getLsbD _ hj, h j hj]
    simp

end ByteBitset

end Cali.Shm
