import Mathlib.Data.List.Basic

/-!
# Runs of a labelled transition relation

A run is recorded as the list of its transitions, each one a label together with
the state it leads to.  Keeping the intermediate states in the list is what lets
a statement speak about *every* state of a run, and about the state before each
of its steps, without quantifying over prefixes.
-/

namespace Cali.Lib

universe u v

variable {σ : Type u} {α : Type v}

/-- `IsRun step s t`: the transitions of `t` can be taken one after the other
from the state `s`. -/
def IsRun (step : σ → α → σ → Prop) : σ → List (α × σ) → Prop
  | _, [] => True
  | s, (a, s') :: t => step s a s' ∧ IsRun step s' t

/-- `RunOk ok s t`: before each transition of `t` the state and the label meet
the condition `ok`. -/
def RunOk (ok : σ → α → Prop) : σ → List (α × σ) → Prop
  | _, [] => True
  | s, (a, s') :: t => ok s a ∧ RunOk ok s' t

/-- The states of a run, its start first. -/
def runStates (s : σ) (t : List (α × σ)) : List σ := s :: t.map Prod.snd

@[simp] theorem isRun_nil (step : σ → α → σ → Prop) (s : σ) : IsRun step s [] := trivial

@[simp] theorem isRun_cons (step : σ → α → σ → Prop) (s s' : σ) (a : α) (t : List (α × σ)) :
    IsRun step s ((a, s') :: t) ↔ step s a s' ∧ IsRun step s' t := Iff.rfl

@[simp] theorem runOk_nil (ok : σ → α → Prop) (s : σ) : RunOk ok s [] := trivial

@[simp] theorem runOk_cons (ok : σ → α → Prop) (s s' : σ) (a : α) (t : List (α × σ)) :
    RunOk ok s ((a, s') :: t) ↔ ok s a ∧ RunOk ok s' t := Iff.rfl

/-- **The invariant rule.**  A property of the start that every step meeting `ok`
preserves holds in every state of a run whose steps all meet `ok`. -/
theorem IsRun.invariant {step : σ → α → σ → Prop} {ok : σ → α → Prop} {I : σ → Prop}
    (hstep : ∀ s a s', I s → ok s a → step s a s' → I s') {s : σ} {t : List (α × σ)}
    (hrun : IsRun step s t) (hs : I s) (hok : RunOk ok s t) : ∀ x ∈ runStates s t, I x := by
  induction t generalizing s with
  | nil =>
    intro x hx
    rw [List.mem_singleton.mp hx]
    exact hs
  | cons x t ih =>
    obtain ⟨a, s'⟩ := x
    have hs' : I s' := hstep s a s' hs hok.1 hrun.1
    intro y hy
    rcases List.mem_cons.mp hy with rfl | hy
    · exact hs
    · exact ih hrun.2 hs' hok.2 y hy

/-- **The invariant rule** for steps that preserve the property in any case. -/
theorem IsRun.always {step : σ → α → σ → Prop} {I : σ → Prop}
    (hstep : ∀ s a s', I s → step s a s' → I s') {s : σ} {t : List (α × σ)}
    (hrun : IsRun step s t) (hs : I s) : ∀ x ∈ runStates s t, I x := by
  have hok : RunOk (fun _ _ ↦ True) s t := by
    clear hrun hs
    induction t generalizing s with
    | nil => trivial
    | cons x t ih => exact ⟨trivial, ih⟩
  exact hrun.invariant (fun s a s' h _ ↦ hstep s a s' h) hs hok

/-- What each step makes true of its label and the state after it. -/
theorem IsRun.forall_mem {step : σ → α → σ → Prop} {P : α → σ → Prop}
    (hstep : ∀ s a s', step s a s' → P a s') {s : σ} {t : List (α × σ)} (hrun : IsRun step s t) :
    ∀ x ∈ t, P x.1 x.2 := by
  induction t generalizing s with
  | nil => exact fun x hx ↦ absurd hx List.not_mem_nil
  | cons x t ih => exact List.forall_mem_cons.mpr ⟨hstep _ _ _ hrun.1, ih hrun.2⟩

/-- What the invariant says about a step that meets `ok` holds before all steps of such a run. -/
theorem IsRun.runOk_of_invariant {step : σ → α → σ → Prop} {ok ok' : σ → α → Prop} {I : σ → Prop}
    (hstep : ∀ s a s', I s → ok s a → step s a s' → I s')
    (hok' : ∀ s a s', I s → ok s a → step s a s' → ok' s a) {s : σ} {t : List (α × σ)}
    (hrun : IsRun step s t) (hs : I s) (hok : RunOk ok s t) : RunOk ok' s t := by
  induction t generalizing s with
  | nil => trivial
  | cons x t ih =>
    obtain ⟨a, s'⟩ := x
    exact ⟨hok' s a s' hs hok.1 hrun.1, ih hrun.2 (hstep s a s' hs hok.1 hrun.1) hok.2⟩

/-- **The converse of the invariant rule.**  If a step that does not meet `ok` leads from the
invariant to a state without `P`, a run with `P` in all of its states has all of its steps
meet `ok`. -/
theorem IsRun.runOk {step : σ → α → σ → Prop} {ok : σ → α → Prop} {I P : σ → Prop}
    (hstep : ∀ s a s', I s → ok s a → step s a s' → I s')
    (hok : ∀ s a s', I s → step s a s' → P s' → ok s a) {s : σ} {t : List (α × σ)}
    (hrun : IsRun step s t) (hs : I s) (hP : ∀ x ∈ runStates s t, P x) : RunOk ok s t := by
  induction t generalizing s with
  | nil => trivial
  | cons x t ih =>
    obtain ⟨a, s'⟩ := x
    have hP' : ∀ x ∈ runStates s' t, P x := fun x hx ↦ hP x (List.mem_cons_of_mem s hx)
    have ha : ok s a := hok s a s' hs hrun.1 (hP' s' List.mem_cons_self)
    exact ⟨ha, ih hrun.2 (hstep s a s' hs ha hrun.1) hP'⟩

/-- A transitive relation between the two states of each step relates each state of a run to all
later ones. -/
theorem IsRun.pairwise {step : σ → α → σ → Prop} {R : σ → σ → Prop}
    (hstep : ∀ s a s', step s a s' → R s s') (htrans : ∀ s s' s'', R s s' → R s' s'' → R s s'')
    {s : σ} {t : List (α × σ)} (hrun : IsRun step s t) : (runStates s t).Pairwise R := by
  induction t generalizing s with
  | nil => exact List.pairwise_singleton R s
  | cons x t ih =>
    obtain ⟨a, s'⟩ := x
    have hfirst : R s s' := hstep s a s' hrun.1
    have hlater := ih hrun.2
    refine List.pairwise_cons.mpr ⟨fun y hy ↦ ?_, hlater⟩
    rcases List.mem_cons.mp hy with rfl | hy
    · exact hfirst
    · exact htrans s s' y hfirst (List.rel_of_pairwise_cons hlater hy)

/-! ## Executing a step function -/

instance (ok : σ → α → Prop) [∀ s a, Decidable (ok s a)] :
    (s : σ) → (t : List (α × σ)) → Decidable (RunOk ok s t)
  | _, [] => isTrue trivial
  | s, (a, s') :: t =>
    have : Decidable (RunOk ok s' t) := instDecidableRunOk ok s' t
    inferInstanceAs (Decidable (ok s a ∧ RunOk ok s' t))

/-- The transitions of a step function for a list of labels. -/
def trace (exec : σ → α → σ) : σ → List α → List (α × σ)
  | _, [] => []
  | s, a :: as => (a, exec s a) :: trace exec (exec s a) as

theorem RunOk.mono {ok ok' : σ → α → Prop} (h : ∀ s a, ok s a → ok' s a) {s : σ}
    {t : List (α × σ)} (hok : RunOk ok s t) : RunOk ok' s t := by
  induction t generalizing s with
  | nil => trivial
  | cons x t ih => exact ⟨h _ _ hok.1, ih hok.2⟩

theorem foldl_mem_runStates_trace (exec : σ → α → σ) (s : σ) (as : List α) :
    as.foldl exec s ∈ runStates s (trace exec s as) := by
  induction as generalizing s with
  | nil => exact List.mem_singleton_self s
  | cons a as ih => exact List.mem_cons_of_mem s (ih (exec s a))

theorem isRun_trace {step : σ → α → σ → Prop} {exec : σ → α → σ} {s : σ} {as : List α}
    (h : RunOk (fun s a ↦ step s a (exec s a)) s (trace exec s as)) :
    IsRun step s (trace exec s as) := by
  induction as generalizing s with
  | nil => trivial
  | cons a as ih => exact ⟨h.1, ih h.2⟩

end Cali.Lib
