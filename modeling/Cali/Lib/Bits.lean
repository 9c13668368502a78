import Mathlib.Algebra.Group.Nat.Defs
import Mathlib.Data.Nat.Notation

/-!
# Masks that take lower bits away

A mask of leading ones rounds a number down to a multiple of a power of two, so that a
comparison of the masked number is one of the quotients.
-/

namespace Cali.Lib

variable {w : ℕ}

theorem and_allOnes_shiftLeft (x : BitVec w) (n : ℕ) :
    x &&& (BitVec.allOnes w <<< n) = (x >>> n) <<< n := by
  ext i hi
  rw [BitVec.getElem_and, BitVec.getElem_shiftLeft, BitVec.getElem_shiftLeft]
  by_cases h : i < n
  · simp [h]
  · have hi' : n + (i - n) = i := by omega
    simp [h, hi', BitVec.getLsbD_eq_getElem hi]

theorem toNat_and_allOnes_shiftLeft (x : BitVec w) (n : ℕ) :
    (x &&& (BitVec.allOnes w <<< n)).toNat = x.toNat / 2 ^ n * 2 ^ n := by
  rw [and_allOnes_shiftLeft, BitVec.toNat_shiftLeft, BitVec.toNat_ushiftRight,
    Nat.shiftRight_eq_div_pow, Nat.shiftLeft_eq]
  exact Nat.mod_eq_of_lt (Nat.lt_of_le_of_lt (Nat.div_mul_le_self ..) x.isLt)

theorem and_allOnes_shiftLeft_eq_iff {x base : BitVec w} {n k : ℕ}
    (hbase : base.toNat = k * 2 ^ n) :
    x &&& (BitVec.allOnes w <<< n) = base ↔ x.toNat / 2 ^ n = k := by
  rw [← BitVec.toNat_inj, toNat_and_allOnes_shiftLeft, hbase]
  exact Nat.mul_left_inj (Nat.ne_of_gt (Nat.two_pow_pos n))

end Cali.Lib
