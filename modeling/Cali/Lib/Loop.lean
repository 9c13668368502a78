import Mathlib.Logic.Relation
import Mathlib.Order.RelClasses

/-!
# Loops

A loop is a step relation on the values of its variables.  If each step preserves
an invariant and decreases a measure, the loop ends in a state of the invariant.
-/

namespace Cali.Lib

universe u v

variable {σ : Type u} {step : σ → σ → Prop}

theorem invariant_of_reaches {I : σ → Prop} (hstep : ∀ s s', I s → step s s' → I s') {s s' : σ}
    (h : Relation.ReflTransGen step s s') (hs : I s) : I s' := by
  induction h with
  | refl => exact hs
  | tail _ hst ih => exact hstep _ _ ih hst

/-- **The termination rule.** -/
theorem exists_final_of_wellFounded {r : σ → σ → Prop} (hr : WellFounded r) {I : σ → Prop}
    (hstep : ∀ s s', I s → step s s' → I s' ∧ r s' s) (s : σ) (hs : I s) :
    ∃ s', Relation.ReflTransGen step s s' ∧ I s' ∧ ∀ s'', ¬ step s' s'' := by
  induction s using hr.induction with
  | _ s ih =>
    by_cases hend : ∃ s', step s s'
    · obtain ⟨s', hst⟩ := hend
      obtain ⟨hs', hlt⟩ := hstep s s' hs hst
      obtain ⟨s'', hreach, hfin⟩ := ih s' hlt hs'
      exact ⟨s'', .head hst hreach, hfin⟩
    · exact ⟨s, .refl, hs, fun s' hst ↦ hend ⟨s', hst⟩⟩

theorem exists_final {α : Type v} [LT α] [WellFoundedLT α] {I : σ → Prop} (μ : σ → α)
    (hstep : ∀ s s', I s → step s s' → I s' ∧ μ s' < μ s) (s : σ) (hs : I s) :
    ∃ s', Relation.ReflTransGen step s s' ∧ I s' ∧ ∀ s'', ¬ step s' s'' :=
  exists_final_of_wellFounded (InvImage.wf μ wellFounded_lt) hstep s hs

theorem final_unique {s s₁ s₂ : σ} (h₁ : Relation.ReflTransGen step s s₁)
    (hend₁ : ∀ s', ¬ step s₁ s') (h₂ : Relation.ReflTransGen step s s₂)
    (hend₂ : ∀ s', ¬ step s₂ s') (hdet : ∀ s s' s'', step s s' → step s s'' → s' = s'') :
    s₁ = s₂ := by
  induction h₁ using Relation.ReflTransGen.head_induction_on with
  | refl =>
    rcases Relation.ReflTransGen.cases_head h₂ with rfl | ⟨s', hst, -⟩
    · rfl
    · exact absurd hst (hend₁ s')
  | head hst _ ih =>
    rcases Relation.ReflTransGen.cases_head h₂ with rfl | ⟨s', hst', h₂⟩
    · exact absurd hst (hend₂ _)
    · exact ih (hdet _ _ _ hst' hst ▸ h₂)

/-! ## Loops as functions -/

/-- Repeat a step until it is no longer possible; `none` means that the rounds were not
enough. -/
def iterate (next : σ → Option σ) : ℕ → σ → Option σ
  | 0, _ => none
  | rounds + 1, s =>
    match next s with
    | none => some s
    | some s' => iterate next rounds s'

/-- **The loop rule.**  If each step preserves an invariant and decreases a measure, the
loop ends in a state of the invariant. -/
theorem iterate_spec {next : σ → Option σ} {I : σ → Prop} (μ : σ → ℕ)
    (hstep : ∀ s s', I s → next s = some s' → I s' ∧ μ s' < μ s) {rounds : ℕ} {s : σ} (hs : I s)
    (hrounds : μ s < rounds) : ∃ s', iterate next rounds s = some s' ∧ I s' ∧ next s' = none := by
  induction rounds generalizing s with
  | zero => exact absurd hrounds (Nat.not_lt_zero _)
  | succ rounds ih =>
    cases h : next s with
    | none => exact ⟨s, by simp only [iterate, h], hs, h⟩
    | some s' =>
      obtain ⟨hs', hlt⟩ := hstep s s' hs h
      obtain ⟨x, hx, hrest⟩ := ih hs' (Nat.lt_of_lt_of_le hlt (Nat.lt_succ_iff.mp hrounds))
      exact ⟨x, by simp only [iterate, h, hx], hrest⟩

theorem reaches_of_iterate {next : σ → Option σ} (hstep : ∀ s s', next s = some s' → step s s')
    {rounds : ℕ} {s s' : σ} (h : iterate next rounds s = some s') :
    Relation.ReflTransGen step s s' := by
  induction rounds generalizing s with
  | zero => cases h
  | succ rounds ih =>
    rw [iterate] at h
    split at h
    · cases h
      exact .refl
    · next hnext => exact .head (hstep _ _ hnext) (ih h)

end Cali.Lib
