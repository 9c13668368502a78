import Mathlib.Data.Finset.Basic

/-!
# Indexes

An index lists, for each value of a key, the live records with that key.  It is kept
up to date by inserting a record that becomes live and erasing one that dies; changing
the key of a record does both.
-/

namespace Cali.Lib

universe u v

variable {R : Type u} {K : Type v} [DecidableEq R] [DecidableEq K]

/-- `index` lists the records of `live` by their `key`. -/
def Indexes (index : K → Finset R) (live : R → Prop) (key : R → K) : Prop :=
  ∀ k r, r ∈ index k ↔ live r ∧ key r = k

variable {index : K → Finset R} {live live' : R → Prop} {key key' : R → K} {r : R} {k : K}

omit [DecidableEq R] [DecidableEq K] in
theorem Indexes.congr (h : Indexes index live key) (hlive : ∀ x, live' x ↔ live x)
    (hkey : ∀ x, key' x = key x) : Indexes index live' key' := by
  intro k x
  rw [hlive, hkey]
  exact h k x

/-- A record that was not live becomes live with the key `k`. -/
theorem Indexes.insert (h : Indexes index live key) (hr : ¬ live r)
    (hlive : ∀ x, live' x ↔ live x ∨ x = r) (hkey : ∀ x, key' x = if x = r then k else key x) :
    Indexes (Function.update index k (Insert.insert r (index k))) live' key' := by
  intro k' x
  rw [hlive, hkey]
  by_cases hx : x = r
  · subst hx
    have hnot : x ∉ index k' := fun hmem ↦ hr ((h k' x).mp hmem).1
    by_cases hk : k' = k
    · simp [hk]
    · simp [hk, hnot, Ne.symm hk]
  · by_cases hk : k' = k
    · subst hk
      simp [hx, h k' x]
    · simp [hk, hx, h k' x]

theorem Indexes.erase (h : Indexes index live key) (r : R) (hlive : ∀ x, live' x ↔ live x ∧ x ≠ r)
    (hkey : ∀ x, x ≠ r → key' x = key x) :
    Indexes (Function.update index (key r) ((index (key r)).erase r)) live' key' := by
  intro k' x
  rw [hlive]
  by_cases hx : x = r
  · subst hx
    have hnot : k' ≠ key x → x ∉ index k' := fun hne hmem ↦ hne ((h k' x).mp hmem).2.symm
    by_cases hk : k' = key x
    · simp [hk]
    · simp [hk, hnot hk]
  · rw [hkey x hx]
    by_cases hk : k' = key r
    · subst hk
      simp [hx, h (key r) x]
    · simp [hk, hx, h k' x]

end Cali.Lib
