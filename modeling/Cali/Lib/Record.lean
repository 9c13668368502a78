import Mathlib.Data.List.Nodup
import Mathlib.Logic.Function.Basic

/-!
# Maps written by a sequence of assignments

Assignments to a map, one after the other, of values that are all different.  An assignment can
still be seen at the end unless a later one had the same key.
-/

namespace Cali.Lib

universe u v

variable {K : Type u} {V : Type v} [DecidableEq K]

/-- The map after the assignments of a list. -/
def record (m : K → Option V) (made : List (K × V)) : K → Option V :=
  made.foldl (fun m p ↦ Function.update m p.1 (some p.2)) m

variable {m : K → Option V} {made : List (K × V)} {k : K} {x : V}

theorem record_append (made' : List (K × V)) :
    record m (made ++ made') = record (record m made) made' :=
  List.foldl_append ..

theorem record_of_notMem (h : k ∉ made.map Prod.fst) : record m made k = m k := by
  induction made generalizing m with
  | nil => rfl
  | cons p made ih =>
    rw [List.map_cons, List.mem_cons, not_or] at h
    exact (ih h.2).trans (Function.update_of_ne h.1 ..)

theorem exists_record_of_mem (h : k ∈ made.map Prod.fst) :
    ∃ x, (k, x) ∈ made ∧ record m made k = some x := by
  induction made generalizing m with
  | nil => cases h
  | cons p made ih =>
    by_cases hk : k ∈ made.map Prod.fst
    · obtain ⟨x, hx, hrecord⟩ := ih (m := Function.update m p.1 (some p.2)) hk
      exact ⟨x, List.mem_cons_of_mem _ hx, hrecord⟩
    · rw [List.map_cons, List.mem_cons] at h
      obtain rfl := h.resolve_right hk
      refine ⟨p.2, List.mem_cons_self, (record_of_notMem hk).trans ?_⟩
      exact Function.update_self ..

theorem mem_of_record (h : record m made k = some x) :
    (k, x) ∈ made ∨ k ∉ made.map Prod.fst ∧ m k = some x := by
  by_cases hk : k ∈ made.map Prod.fst
  · obtain ⟨y, hy, hrecord⟩ := exists_record_of_mem (m := m) hk
    rw [hrecord] at h
    obtain rfl := Option.some.inj h
    exact Or.inl hy
  · exact Or.inr ⟨hk, (record_of_notMem hk).symm.trans h⟩

/-- **Every assignment can be seen at the end** if and only if no key was used twice. -/
theorem forall_record_iff (hvalues : (made.map Prod.snd).Nodup) :
    (∀ p ∈ made, record m made p.1 = some p.2) ↔ (made.map Prod.fst).Nodup := by
  induction made generalizing m with
  | nil => simp
  | cons p made ih =>
    rw [List.map_cons, List.nodup_cons] at hvalues ⊢
    have hcons : record m (p :: made) = record (Function.update m p.1 (some p.2)) made := rfl
    rw [List.forall_mem_cons, hcons, ih hvalues.2]
    refine and_congr_left fun _ ↦ ⟨fun h hk ↦ ?_, fun hk ↦ ?_⟩
    · obtain ⟨x, hx, hrecord⟩ :=
        exists_record_of_mem (m := Function.update m p.1 (some p.2)) hk
      rw [h] at hrecord
      obtain rfl := Option.some.inj hrecord
      exact hvalues.1 (List.mem_map_of_mem hx)
    · rw [record_of_notMem hk, Function.update_self]

end Cali.Lib
