import Mathlib.Data.List.Perm.Basic
import Mathlib.Data.List.Perm.Lattice

/-!
# Exclusive ownership

An allocator hands out *runs*, each of which covers some *places*, and keeps a
record of the places in use.  Some places are in use from the beginning and never
handed out.  `Exclusive` says what an allocator is for: nobody shares a place, and
the record is exact.  It is preserved by giving out a run of unused places and by
taking back a run that is out.
-/

namespace Cali.Lib

universe u v

variable {ρ : Type u} {ι : Type v} {covers : ρ → ι → Prop} {managed initial used : ι → Prop}
  {live : List ρ} {r : ρ}

/-- The runs in `live` share no place, neither with each other nor with the
initial places, they lie inside the managed places, and the record `used` is exact. -/
structure Exclusive (covers : ρ → ι → Prop) (managed initial used : ι → Prop) (live : List ρ) :
    Prop where
  disjoint : live.Pairwise fun r r' ↦ ∀ i, covers r i → ¬ covers r' i
  not_initial : ∀ r ∈ live, ∀ i, covers r i → ¬ initial i
  inside : ∀ r ∈ live, ∀ i, covers r i → managed i
  used_iff : ∀ i, managed i → (used i ↔ initial i ∨ ∃ r ∈ live, covers r i)

namespace Exclusive

theorem nil (h : ∀ i, managed i → (used i ↔ initial i)) :
    Exclusive covers managed initial used [] :=
  ⟨List.Pairwise.nil, by simp, by simp, fun i hi ↦ by simp [h i hi]⟩

theorem perm {live' : List ρ} (h : Exclusive covers managed initial used live)
    (hp : live.Perm live') : Exclusive covers managed initial used live' where
  disjoint :=
    (hp.pairwise_iff fun hd i h₁ h₂ ↦ hd i h₂ h₁).mp h.disjoint
  not_initial r hr := h.not_initial r (hp.mem_iff.mpr hr)
  inside r hr := h.inside r (hp.mem_iff.mpr hr)
  used_iff i hi := by
    rw [h.used_iff i hi]
    simp only [hp.mem_iff]

theorem alloc {used' : ι → Prop} (h : Exclusive covers managed initial used live)
    (hfree : ∀ i, covers r i → managed i ∧ ¬ used i)
    (hused : ∀ i, managed i → (used' i ↔ covers r i ∨ used i)) :
    Exclusive covers managed initial used' (r :: live) where
  disjoint := by
    refine List.pairwise_cons.mpr ⟨fun r' hr' i hi hi' ↦ ?_, h.disjoint⟩
    obtain ⟨hin, hnot⟩ := hfree i hi
    exact hnot ((h.used_iff i hin).mpr (Or.inr ⟨r', hr', hi'⟩))
  not_initial := by
    rintro r' hr' i hi
    rcases List.mem_cons.mp hr' with rfl | hr'
    · obtain ⟨hin, hnot⟩ := hfree i hi
      exact fun hinit ↦ hnot ((h.used_iff i hin).mpr (Or.inl hinit))
    · exact h.not_initial r' hr' i hi
  inside := by
    rintro r' hr' i hi
    rcases List.mem_cons.mp hr' with rfl | hr'
    · exact (hfree i hi).1
    · exact h.inside r' hr' i hi
  used_iff i hi := by
    rw [hused i hi, h.used_iff i hi, List.exists_mem_cons_iff]
    tauto

theorem free {used' : ι → Prop} (h : Exclusive covers managed initial used (r :: live))
    (hused : ∀ i, managed i → (used' i ↔ ¬ covers r i ∧ used i)) :
    Exclusive covers managed initial used' live where
  disjoint := (List.pairwise_cons.mp h.disjoint).2
  not_initial r' hr' := h.not_initial r' (List.mem_cons_of_mem _ hr')
  inside r' hr' := h.inside r' (List.mem_cons_of_mem _ hr')
  used_iff i hi := by
    have hne := (List.pairwise_cons.mp h.disjoint).1
    have hni := h.not_initial r List.mem_cons_self i
    rw [hused i hi, h.used_iff i hi, List.exists_mem_cons_iff]
    constructor
    · tauto
    · rintro (hinit | ⟨r', hr', hi'⟩)
      · exact ⟨fun hc ↦ hni hc hinit, Or.inl hinit⟩
      · exact ⟨fun hc ↦ hne r' hr' i hc hi', Or.inr (Or.inr ⟨r', hr', hi'⟩)⟩

theorem erase [DecidableEq ρ] {used' : ι → Prop} (h : Exclusive covers managed initial used live)
    (hr : r ∈ live) (hused : ∀ i, managed i → (used' i ↔ ¬ covers r i ∧ used i)) :
    Exclusive covers managed initial used' (live.erase r) :=
  (h.perm (List.perm_cons_erase hr)).free hused

theorem replace [DecidableEq ρ] {used' : ι → Prop} {n : ρ}
    (h : Exclusive covers managed initial used (n :: live)) (hr : r ∈ live)
    (hused : ∀ i, managed i → (used' i ↔ ¬ covers r i ∧ used i)) :
    Exclusive covers managed initial used' (n :: live.erase r) :=
  (h.perm (((List.perm_cons_erase hr).cons n).trans (List.Perm.swap ..))).free hused

end Exclusive

end Cali.Lib
