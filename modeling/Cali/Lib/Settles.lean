import Mathlib.Data.Nat.Notation

/-!
# Computations with a bound that settle

A function that may not end is given a bound on its steps, and has an error as its result if the
bound is too small.  Such a computation settles if from some bound on its result is always the
same; the result is a value with a given property, or one of the errors that are put up with.
Sequences of computations settle if each of them does.
-/

namespace Cali.Lib

universe u v

variable {ε : Type u} {α β : Type v} {E : ε → Prop}

/-- A value in `Q`, or an error in `E`. -/
def Ends (E : ε → Prop) (Q : α → Prop) : Except ε α → Prop
  | .ok a => Q a
  | .error e => E e

/-- From some bound on the result of `x` is the same: a value in `Q`, or an error in `E`. -/
def Settles (E : ε → Prop) (x : ℕ → Except ε α) (Q : α → Prop) : Prop :=
  ∃ N r, (∀ n, N ≤ n → x n = r) ∧ Ends E Q r

namespace Settles

variable {x y : ℕ → Except ε α} {P Q : α → Prop} {a : α} {e : ε}

theorem pure (h : Q a) : Settles E (fun _ ↦ .ok a) Q := ⟨0, .ok a, fun _ _ ↦ rfl, h⟩

theorem throw (h : E e) : Settles E (fun _ ↦ (.error e : Except ε α)) Q :=
  ⟨0, .error e, fun _ _ ↦ rfl, h⟩

theorem bind {f : ℕ → α → Except ε β} {R : β → Prop} (hx : Settles E x P)
    (hf : ∀ a, P a → Settles E (fun n ↦ f n a) R) : Settles E (fun n ↦ x n >>= f n) R := by
  obtain ⟨N, r, h, hr⟩ := hx
  cases r with
  | error e => exact ⟨N, .error e, fun n hn ↦ congrArg (· >>= f n) (h n hn), hr⟩
  | ok a =>
    obtain ⟨M, r, h', hr'⟩ := hf a hr
    refine ⟨max N M, r, fun n hn ↦ ?_, hr'⟩
    have hfirst := h n (Nat.le_trans (Nat.le_max_left N M) hn)
    exact (congrArg (· >>= f n) hfirst).trans (h' n (Nat.le_trans (Nat.le_max_right N M) hn))

theorem mono (hx : Settles E x P) (h : ∀ a, P a → Q a) : Settles E x Q := by
  obtain ⟨N, r, hN, hr⟩ := hx
  refine ⟨N, r, hN, ?_⟩
  cases r with
  | ok a => exact h a hr
  | error e => exact hr

theorem succ (h : ∀ n, y (n + 1) = x n) (hx : Settles E x Q) : Settles E y Q := by
  obtain ⟨N, r, hN, hr⟩ := hx
  refine ⟨N + 1, r, fun n hn ↦ ?_, hr⟩
  obtain ⟨m, rfl⟩ : ∃ m, n = m + 1 := ⟨n - 1, by omega⟩
  rw [h, hN m (Nat.le_of_succ_le_succ hn)]

end Settles

end Cali.Lib
