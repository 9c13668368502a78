import Mathlib.Order.Interval.Finset.Nat

/-!
# Gaps in a set of natural numbers

The part of first-fit allocation that knows nothing about pages: a *gap* of a
predicate is a stretch of consecutive numbers below a limit at which it fails,
and first fit looks for the least start of a gap of a given length.
-/

namespace Cali.Lib

variable {used : ℕ → Prop} {limit n start : ℕ}

/-- `Gap used limit n start`: the `n` numbers from `start` on are below `limit`
and none of them is used. -/
def Gap (used : ℕ → Prop) (limit n start : ℕ) : Prop :=
  start + n ≤ limit ∧ ∀ p, start ≤ p → p < start + n → ¬ used p

/-- `FirstGap used limit n start`: the least start of a gap of length `n`. -/
def FirstGap (used : ℕ → Prop) (limit n start : ℕ) : Prop :=
  Gap used limit n start ∧ ∀ s, s < start → ¬ Gap used limit n s

theorem Gap.not_used (h : Gap used limit n start) {p : ℕ} (h₁ : start ≤ p)
    (h₂ : p < start + n) : ¬ used p := h.2 p h₁ h₂

theorem FirstGap.unique {s : ℕ} (h : FirstGap used limit n start)
    (h' : FirstGap used limit n s) : start = s :=
  le_antisymm (not_lt.mp fun hlt ↦ h.2 s hlt h'.1) (not_lt.mp fun hlt ↦ h'.2 start hlt h.1)

theorem exists_firstGap (h : Gap used limit n start) : ∃ s, FirstGap used limit n s := by
  classical
  have hex : ∃ s, Gap used limit n s := ⟨start, h⟩
  exact ⟨Nat.find hex, Nat.find_spec hex, fun s hs ↦ Nat.find_min hex hs⟩

theorem Gap.firstGap (hn : 0 < n) (h : Gap used limit n start)
    (hbelow : ∀ p, p < start → used p) : FirstGap used limit n start :=
  ⟨h, fun s hs hg ↦ hg.not_used le_rfl (by omega) (hbelow s hs)⟩

end Cali.Lib
