import Mathlib.Data.List.TakeDrop

/-!
# Cutting a list at a symbol

The parts of a list before and behind the first or the last occurrence of a symbol.
-/

namespace Cali.Lib

universe u

variable {α : Type u} [DecidableEq α] {c : α} {l before behind : List α}

/-- What is before the first `c`, and what is behind it. -/
def cut (c : α) (l : List α) : Option (List α × List α) :=
  match l.span (· ≠ c) with
  | (before, _ :: behind) => some (before, behind)
  | (_, []) => none

/-- What is before the last `c`, and what is behind it. -/
def cutLast (c : α) (l : List α) : Option (List α × List α) :=
  (cut c l.reverse).map fun parts ↦ (parts.2.reverse, parts.1.reverse)

theorem cut_cons (a : α) (l : List α) :
    cut c (a :: l) =
      if a = c then some ([], l) else (cut c l).map fun parts ↦ (a :: parts.1, parts.2) := by
  unfold cut
  simp only [List.span_eq_takeWhile_dropWhile]
  by_cases hac : a = c
  · simp [hac]
  · simp only [hac, ne_eq, not_false_eq_true, decide_true, List.takeWhile_cons_of_pos,
      List.dropWhile_cons_of_pos, if_false]
    cases l.dropWhile (fun b ↦ decide (¬ b = c)) <;> rfl

theorem cut_eq_none_iff : cut c l = none ↔ c ∉ l := by
  induction l with
  | nil => exact iff_of_true rfl List.not_mem_nil
  | cons a l ih =>
    rw [cut_cons, List.mem_cons, not_or]
    by_cases hac : a = c
    · simp [hac]
    · simp [hac, ih, Ne.symm hac]

theorem cut_eq_some_iff :
    cut c l = some (before, behind) ↔ l = before ++ c :: behind ∧ c ∉ before := by
  induction l generalizing before with
  | nil => exact iff_of_false (Option.some_ne_none _).symm fun h ↦ by simp at h
  | cons a l ih =>
    rw [cut_cons]
    by_cases hac : a = c
    · subst hac
      cases before with
      | nil => simp [eq_comm]
      | cons b before => simp +contextual [eq_comm]
    · rw [if_neg hac, Option.map_eq_some_iff]
      cases before with
      | nil => simp [hac]
      | cons b before =>
        simp only [Prod.exists, Prod.mk.injEq, List.cons.injEq, List.cons_append,
          List.mem_cons, not_or]
        constructor
        · rintro ⟨before, behind, hl, ⟨rfl, rfl⟩, rfl⟩
          obtain ⟨hl, hmem⟩ := ih.mp hl
          exact ⟨⟨rfl, hl⟩, Ne.symm hac, hmem⟩
        · rintro ⟨⟨rfl, hl⟩, -, hmem⟩
          exact ⟨before, behind, ih.mpr ⟨hl, hmem⟩, ⟨rfl, rfl⟩, rfl⟩

theorem cutLast_eq_some_iff :
    cutLast c l = some (before, behind) ↔ l = before ++ c :: behind ∧ c ∉ behind := by
  have hcut : cutLast c l = some (before, behind) ↔
      cut c l.reverse = some (behind.reverse, before.reverse) := by
    unfold cutLast
    rw [Option.map_eq_some_iff]
    constructor
    · rintro ⟨⟨x, y⟩, h, heq⟩
      obtain ⟨rfl, rfl⟩ := Prod.mk.inj heq
      rw [h, List.reverse_reverse, List.reverse_reverse]
    · intro h
      exact ⟨_, h, by rw [List.reverse_reverse, List.reverse_reverse]⟩
  rw [hcut, cut_eq_some_iff, List.mem_reverse, List.reverse_eq_iff]
  simp

/-- The parts between the occurrences of `c`, from the left. -/
theorem splitOn_append_cons (h : c ∉ before) :
    (before ++ c :: behind).splitOn c = before :: behind.splitOn c := by
  have hne : ∀ b ∈ before, (b == c) = false := fun b hb ↦
    beq_false_of_ne (ne_of_mem_of_not_mem hb h)
  exact List.splitOnP_append_cons_of_forall_mem hne c (beq_self_eq_true c) behind

end Cali.Lib
