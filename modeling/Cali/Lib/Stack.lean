import Mathlib.Data.Set.Card
import Mathlib.Logic.Hydra
import Cali.Lib.Loop

/-!
# Machines with a stack

A machine with a stack takes the topmost frame and puts other frames in its place.  It ends
if the new frames are smaller than the one they replace.  It may put any frames in its place
if it makes progress in another way that cannot go on forever.
-/

namespace Cali.Lib

universe u v w

section Stack

variable {σ : Type u} {F α β : Type v} {step : σ → σ → Prop} [LT α] [WellFoundedLT α] [LT β]
  [WellFoundedLT β]

/-- A step makes progress, or replaces the topmost frame by smaller ones. -/
def Lowers (μ : σ → α) (stack : σ → List F) (ν : F → β) (s s' : σ) : Prop :=
  μ s' < μ s ∨ μ s' = μ s ∧ ∃ f new rest, stack s = f :: rest ∧ stack s' = new ++ rest ∧
    ∀ f' ∈ new, ν f' < ν f

/-- **The termination rule for machines with a stack.** -/
theorem exists_final_of_lowers {I : σ → Prop} {μ : σ → α} {stack : σ → List F} {ν : F → β}
    (hstep : ∀ s s', I s → step s s' → I s' ∧ Lowers μ stack ν s s') (s : σ) (hs : I s) :
    ∃ s', Relation.ReflTransGen step s s' ∧ I s' ∧ ∀ s'', ¬ step s' s'' := by
  -- the frames of the stack are compared as a multiset
  let measure : σ → α × Multiset β := fun s ↦ (μ s, ((stack s).map ν : Multiset β))
  have hwf : WellFounded (InvImage (Prod.Lex (· < ·) (Relation.CutExpand (· < ·))) measure) :=
    InvImage.wf measure (WellFounded.prod_lex wellFounded_lt wellFounded_lt.cutExpand)
  refine exists_final_of_wellFounded hwf (fun s s' hI hst ↦ ?_) s hs
  obtain ⟨hI', hlt | ⟨heq, f, new, rest, hs, hs', hnew⟩⟩ := hstep s s' hI hst
  · exact ⟨hI', Prod.Lex.left _ _ hlt⟩
  · refine ⟨hI', ?_⟩
    have hcut : Relation.CutExpand (· < ·) (measure s').2 (measure s).2 := by
      refine ⟨(new.map ν : Multiset β), ν f, fun b hb ↦ ?_, ?_⟩
      · obtain ⟨f', hf', rfl⟩ := List.mem_map.mp (Multiset.mem_coe.mp hb)
        exact hnew f' hf'
      · simp only [measure, hs, hs', List.map_append, List.map_cons, ← Multiset.coe_add,
          ← Multiset.cons_coe, ← Multiset.singleton_add]
        rw [add_comm _ {ν f}, add_assoc, add_comm ((new.map ν : List β) : Multiset β)]
    have hpair : measure s' = ((measure s).1, (measure s').2) := Prod.ext heq rfl
    change Prod.Lex _ _ (measure s') (measure s)
    rw [hpair]
    exact Prod.Lex.right _ hcut

end Stack

/-! ## Worklists -/

section Worklist

variable {σ : Type u} {F : Type v} {step : σ → σ → Prop} {r : F → F → Prop} {list : σ → List F}

/-- A step takes the first item, and puts the items below it in its place. -/
def Expands (list : σ → List F) (r : F → F → Prop) (s s' : σ) : Prop :=
  ∃ f new rest, list s = f :: rest ∧ list s' = new ++ rest ∧ ∀ f', f' ∈ new ↔ r f' f

/-- The loop ends from each state with this list. -/
def EndsOn (step : σ → σ → Prop) (list : σ → List F) (l : List F) : Prop :=
  ∀ s, list s = l → ∃ s', Relation.ReflTransGen step s s' ∧ ∀ s'', ¬ step s' s''

variable (hstep : ∀ s s', step s s' → Expands list r s s')
include hstep

theorem EndsOn.cons {f : F} (hf : Acc r f) {rest : List F} (hrest : EndsOn step list rest) :
    EndsOn step list (f :: rest) := by
  induction hf generalizing rest with
  | intro f _ ih =>
    have happend : ∀ new : List F, (∀ f' ∈ new, r f' f) → EndsOn step list (new ++ rest) := by
      intro new
      induction new with
      | nil => exact fun _ ↦ hrest
      | cons f' new ihnew =>
        intro hnew
        obtain ⟨hf', hnew⟩ := List.forall_mem_cons.mp hnew
        exact ih f' hf' (ihnew hnew)
    intro s hs
    by_cases hend : ∃ s', step s s'
    · obtain ⟨s', hst⟩ := hend
      obtain ⟨f₀, new, rest₀, hlist, hlist', hnew⟩ := hstep s s' hst
      obtain ⟨rfl, rfl⟩ := List.cons_eq_cons.mp (hs.symm.trans hlist)
      obtain ⟨x, hreach, hfinal⟩ := happend new (fun f' hf' ↦ (hnew f').mp hf') s' hlist'
      exact ⟨x, .head hst hreach, hfinal⟩
    · exact ⟨s, .refl, fun s' hst ↦ hend ⟨s', hst⟩⟩

/-- **The termination rule for worklists**: a loop ends exactly if the items of its list are
accessible. -/
theorem ends_iff_acc (hfinal : ∀ s, (∀ s', ¬ step s s') → list s = []) {s : σ} :
    (∃ s', Relation.ReflTransGen step s s' ∧ ∀ s'', ¬ step s' s'') ↔ ∀ f ∈ list s, Acc r f := by
  constructor
  · rintro ⟨s', hreach, hend⟩
    induction hreach using Relation.ReflTransGen.head_induction_on with
    | refl => rw [hfinal s' hend]; exact nofun
    | head hst _ ih =>
      obtain ⟨f, new, rest, hlist, hlist', hnew⟩ := hstep _ _ hst
      rw [hlist'] at ih
      rw [hlist]
      refine List.forall_mem_cons.mpr ⟨Acc.intro f fun f' hf' ↦ ?_, fun f' hf' ↦ ?_⟩
      · exact ih f' (List.mem_append_left rest ((hnew f').mpr hf'))
      · exact ih f' (List.mem_append_right new hf')
  · have hall : ∀ l : List F, (∀ f ∈ l, Acc r f) → EndsOn step list l := by
      intro l
      induction l with
      | nil =>
        intro _ s hs
        refine ⟨s, .refl, fun s' hst ↦ ?_⟩
        obtain ⟨f, new, rest, hlist, -⟩ := hstep s s' hst
        rw [hs] at hlist
        cases hlist
      | cons f l ih =>
        intro hl
        obtain ⟨hf, hl⟩ := List.forall_mem_cons.mp hl
        exact EndsOn.cons hstep hf (ih hl)
    exact fun hs ↦ hall (list s) hs s rfl

end Worklist

/-! ## Recursion along a relation without cycles -/

section Rank

variable {V : Type w} {r : V → V → Prop} {v : V}

/-- If no cycle is reached from `v`, the values below it can be ranked: by how many values they
reach. -/
theorem exists_rank_of_no_cycle (hfin : {w | Relation.ReflTransGen r v w}.Finite)
    (hcycle : ∀ u, Relation.ReflTransGen r v u → ¬ Relation.TransGen r u u) :
    ∃ rank : V → ℕ, ∀ u w, Relation.ReflTransGen r v u → r u w → rank w < rank u := by
  refine ⟨fun u ↦ {x | Relation.ReflTransGen r u x}.ncard, fun u w hu huw ↦ ?_⟩
  apply Set.ncard_lt_ncard
  · refine ⟨fun x hx ↦ .head huw hx, fun hsub ↦ ?_⟩
    have hwu : Relation.ReflTransGen r w u := hsub .refl
    exact hcycle u hu (.head' huw hwu)
  · exact hfin.subset fun x hx ↦ hu.trans hx

end Rank

end Cali.Lib
