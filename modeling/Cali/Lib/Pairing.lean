import Mathlib.Logic.Function.Basic

/-!
# Tables that are inverse to each other

Two tables are paired when each one records the entries of the other one the other way
round.  Entering a new pair into both and taking a pair out of both keeps them paired.
-/

namespace Cali.Lib

universe u v

variable {α : Type u} {β : Type v} {f : α → Option β} {g : β → Option α} {a : α} {b : β}

/-- The tables are inverse to each other. -/
def Paired (f : α → Option β) (g : β → Option α) : Prop := ∀ a b, f a = some b ↔ g b = some a

theorem Paired.symm (h : Paired f g) : Paired g f := fun b a ↦ (h a b).symm

variable [DecidableEq α] [DecidableEq β]

theorem Paired.insert (h : Paired f g) (ha : f a = none) (hb : g b = none) :
    Paired (Function.update f a (some b)) (Function.update g b (some a)) := by
  intro x y
  by_cases hx : x = a
  · by_cases hy : y = b
    · simp [hx, hy]
    · have hne : g y ≠ some a := fun hg ↦ by
        rw [(h a y).mpr hg] at ha
        cases ha
      simp [hx, hy, hne, Ne.symm hy]
  · by_cases hy : y = b
    · have hne : f x ≠ some b := fun hf ↦ by
        rw [(h x b).mp hf] at hb
        cases hb
      simp [hx, hy, hne, Ne.symm hx]
    · rw [Function.update_of_ne hx, Function.update_of_ne hy]
      exact h x y

theorem Paired.erase (h : Paired f g) (hab : f a = some b) :
    Paired (Function.update f a none) (Function.update g b none) := by
  intro x y
  by_cases hx : x = a
  · have hne : y ≠ b → g y ≠ some a := fun hy hg ↦ by
      have hay := (h a y).mpr hg
      rw [hab] at hay
      exact hy (Option.some.inj hay).symm
    by_cases hy : y = b
    · simp [hx, hy]
    · simp [hx, hy, hne hy]
  · by_cases hy : y = b
    · have hne : f x ≠ some b := fun hf ↦ by
        have hbx := (h x b).mp hf
        rw [(h a b).mp hab] at hbx
        exact hx (Option.some.inj hbx).symm
      simp [hx, hy, hne]
    · rw [Function.update_of_ne hx, Function.update_of_ne hy]
      exact h x y

end Cali.Lib
