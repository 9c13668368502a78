import Mathlib.Data.BitVec
import Mathlib.Data.List.Basic

/-!
# Bits in a list of bytes

The bit `i` of a list of bytes is the bit `i % 8` of the byte `i / 8`.  A loop that clears some
bits in each of its turns clears all of them, and a loop that looks for a set bit finds one
exactly if there is one.
-/

namespace Cali.Lib

/-- The bit with the number `i`; there are no bits behind the end. -/
def bit (data : List (BitVec 8)) (i : ℕ) : Bool := (data.getD (i / 8) 0).getLsbD (i % 8)

/-- The bits of `S` are cleared, and all others are as they were. -/
structure Clears (S : ℕ → Prop) (data data' : List (BitVec 8)) : Prop where
  length_eq : data'.length = data.length
  bit_iff : ∀ j, bit data' j = true ↔ bit data j = true ∧ ¬ S j

variable {data data' data'' : List (BitVec 8)} {S T : ℕ → Prop} {i j : ℕ} {b : BitVec 8}

theorem bit_set (hi : i < data.length) :
    bit (data.set i b) j = if j / 8 = i then b.getLsbD (j % 8) else bit data j := by
  unfold bit
  rw [List.getD_eq_getElem?_getD, List.getD_eq_getElem?_getD, List.getElem?_set]
  by_cases hj : j / 8 = i
  · rw [if_pos hj.symm, if_pos hi, if_pos hj, Option.getD_some]
  · rw [if_neg (Ne.symm hj), if_neg hj]

theorem clears_set (hi : i < data.length)
    (hb : ∀ j, j / 8 = i → (b.getLsbD (j % 8) = true ↔ bit data j = true ∧ ¬ S j))
    (hS : ∀ j, S j → j / 8 = i) : Clears S data (data.set i b) := by
  refine ⟨List.length_set, fun j ↦ ?_⟩
  rw [bit_set hi]
  split
  next hj => exact hb j hj
  next hj => exact (and_iff_left fun h ↦ hj (hS j h)).symm

theorem Clears.congr (h : Clears S data data') (hST : ∀ j, S j ↔ T j) : Clears T data data' := by
  refine ⟨h.length_eq, fun j ↦ ?_⟩
  rw [h.bit_iff, hST]

theorem clears_false (data : List (BitVec 8)) : Clears (fun _ ↦ False) data data :=
  ⟨rfl, fun _ ↦ (and_iff_left id).symm⟩

theorem Clears.trans (h : Clears S data data') (h' : Clears T data' data'') :
    Clears (fun j ↦ S j ∨ T j) data data'' := by
  refine ⟨h'.length_eq.trans h.length_eq, fun j ↦ ?_⟩
  rw [h'.bit_iff, h.bit_iff, and_assoc, not_or]

/-- **A loop that clears bits.** -/
theorem exists_clears_foldlM {f : List (BitVec 8) → ℕ → Option (List (BitVec 8))}
    {S : ℕ → ℕ → Prop} {n : ℕ} {l : List ℕ}
    (hf : ∀ i ∈ l, ∀ data : List (BitVec 8), data.length = n →
      ∃ data', f data i = some data' ∧ Clears (S i) data data') (hn : data.length = n) :
    ∃ data', l.foldlM f data = some data' ∧ Clears (fun j ↦ ∃ i ∈ l, S i j) data data' := by
  induction l generalizing data with
  | nil =>
    refine ⟨data, rfl, (clears_false data).congr fun j ↦ ?_⟩
    exact iff_of_false id fun ⟨i, hi, _⟩ ↦ List.not_mem_nil hi
  | cons i l ih =>
    obtain ⟨data₁, h₁, hclears₁⟩ := hf i List.mem_cons_self data hn
    obtain ⟨data₂, h₂, hclears₂⟩ := ih (fun k hk ↦ hf k (List.mem_cons_of_mem i hk))
      (hclears₁.length_eq.trans hn)
    refine ⟨data₂, ?_, (hclears₁.trans hclears₂).congr fun j ↦ ?_⟩
    · rw [List.foldlM_cons, h₁]
      exact h₂
    · simp only [List.mem_cons, exists_eq_or_imp]

/-- **A loop that looks for a set bit.** -/
theorem exists_anyM_iff {p : ℕ → Option Bool} {Q : ℕ → Prop} {l : List ℕ}
    (hp : ∀ i ∈ l, ∃ r, p i = some r ∧ (r = true ↔ Q i)) :
    ∃ r, l.anyM p = some r ∧ (r = true ↔ ∃ i ∈ l, Q i) := by
  induction l with
  | nil => exact ⟨false, rfl, iff_of_false Bool.false_ne_true fun ⟨i, hi, _⟩ ↦ List.not_mem_nil hi⟩
  | cons i l ih =>
    obtain ⟨r, hr, hiff⟩ := hp i List.mem_cons_self
    obtain ⟨r', hr', hiff'⟩ := ih fun k hk ↦ hp k (List.mem_cons_of_mem i hk)
    cases r with
    | true =>
      refine ⟨true, ?_, iff_of_true rfl ⟨i, List.mem_cons_self, hiff.mp rfl⟩⟩
      rw [List.anyM, hr]
      rfl
    | false =>
      refine ⟨r', ?_, ?_⟩
      · rw [List.anyM, hr]
        exact hr'
      · simp only [hiff', List.mem_cons, exists_eq_or_imp]
        exact (or_iff_right fun h ↦ Bool.false_ne_true (hiff.mpr h)).symm

end Cali.Lib
