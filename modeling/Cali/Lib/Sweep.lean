import Mathlib.Logic.Relation
import Mathlib.Tactic.Set
import Cali.Lib.Search

/-!
# Propagating marks group by group

A mark is to be propagated against the edges of a graph.  Instead of one search over
the whole graph there is one search, a *sweep*, for each group of vertices: it starts
from the marked vertices of the group and expands only those and the *free* vertices,
which belong to no group.  It marks vertices of other groups as well, but leaves it to
their sweeps to go on from there.

With one sweep per group the result depends on the order of the groups.  A mark
travels a path to its start exactly if the groups come up in the order in which the
path, followed backwards, visits them.  `sweeps_closed_iff` says that this is all.
-/

namespace Cali.Lib

universe u

variable {V : Type u} (edge : V → V → Prop) (free sink : V → Prop)

/-- One sweep: the marks `R` and everything the search sees.  A vertex of `sink` counts
as marked. -/
def sweep (group R : V → Prop) (v : V) : Prop :=
  R v ∨ Discovered (fun v ↦ group v ∧ (sink v ∨ R v)) (fun v ↦ free v ∨ group v)
    (fun w u ↦ edge u w) v

/-- One sweep after the other. -/
def sweeps (R : V → Prop) (groups : List (V → Prop)) : V → Prop :=
  groups.foldl (fun R group ↦ sweep edge free sink group R) R

/-- A mark comes to the vertex along a path whose groups, from the marked end of the
path on, are in the order of the sweeps; the number is the last group on the path.
Free vertices may be anywhere. -/
inductive Orderly (R : V → Prop) (groups : List (V → Prop)) : ℕ → V → Prop
  | marked {v : V} (h : sink v ∨ R v) : Orderly R groups 0 v
  | free {i : ℕ} {u w : V} (h : Orderly R groups i w) (hw : free w) (he : edge u w) :
      Orderly R groups i u
  | group {i k : ℕ} {u w : V} {group : V → Prop} (h : Orderly R groups i w) (hik : i ≤ k)
      (hk : groups[k]? = some group) (hw : group w) (he : edge u w) : Orderly R groups k u

variable {edge free sink} {R : V → Prop} {group : V → Prop} {groups groups' : List (V → Prop)}
  {u v w : V}

/-! ## One sweep -/

theorem sweep_of_marked (h : R v) : sweep edge free sink group R v := Or.inl h

theorem sweeps_of_marked (h : R v) : sweeps edge free sink R groups v := by
  induction groups generalizing R with
  | nil => exact h
  | cons group groups ih => exact ih (sweep_of_marked h)

theorem sweeps_append :
    sweeps edge free sink R (groups ++ groups') =
      sweeps edge free sink (sweeps edge free sink R groups) groups' :=
  List.foldl_append ..

theorem sweep_of_source (hv : group v) (h : sink v ∨ sweep edge free sink group R v) :
    sweep edge free sink group R v := by
  rcases h with h | h
  · exact Or.inr (.source ⟨hv, Or.inl h⟩)
  · exact h

theorem sweep_of_edge (hw : group w) (h : sink w ∨ sweep edge free sink group R w)
    (he : edge u w) : sweep edge free sink group R u := by
  refine Or.inr (.step ?_ (Or.inr hw) he)
  rcases h with h | h | h
  · exact .source ⟨hw, Or.inl h⟩
  · exact .source ⟨hw, Or.inr h⟩
  · exact h

theorem sweep_sweep :
    sweep edge free sink group (sweep edge free sink group R) = sweep edge free sink group R := by
  funext v
  refine propext (or_iff_left_of_imp fun h ↦ Or.inr ?_)
  refine h.mem_of_closed (C := {v | Discovered (fun v ↦ group v ∧ (sink v ∨ R v))
    (fun v ↦ free v ∨ group v) (fun w u ↦ edge u w) v}) ?_ fun _ _ ↦ Discovered.step
  rintro v ⟨hv, hs | hr | hd⟩
  · exact .source ⟨hv, Or.inl hs⟩
  · exact .source ⟨hv, Or.inr hr⟩
  · exact hd

theorem sweep_mono {sink' R' : V → Prop} (hsink : ∀ v, sink v → sink' v) (hR : ∀ v, R v → R' v)
    (h : sweep edge free sink group R v) : sweep edge free sink' group R' v :=
  h.imp (hR v) fun hd ↦ hd.mem_of_closed
    (fun v hv ↦ Discovered.source ⟨hv.1, hv.2.imp (hsink v) (hR v)⟩) fun _ _ ↦ Discovered.step

/-- Marks have gone on from the free vertices. -/
def FreeClosed (edge : V → V → Prop) (free sink R : V → Prop) : Prop :=
  ∀ u w, edge u w → free w → sink w ∨ R w → R u

theorem freeClosed_sweep_free : FreeClosed edge free sink (sweep edge free sink free R) :=
  fun _ _ he hw h ↦ sweep_of_edge hw h he

theorem FreeClosed.sweep (h : FreeClosed edge free sink R) :
    FreeClosed edge free sink (sweep edge free sink group R) := by
  rintro u w he hw (hm | hm | hm)
  · exact sweep_of_marked (h u w he hw (Or.inl hm))
  · exact sweep_of_marked (h u w he hw (Or.inr hm))
  · exact Or.inr (.step hm (Or.inl hw) he)

theorem FreeClosed.sweeps (h : FreeClosed edge free sink R) :
    FreeClosed edge free sink (sweeps edge free sink R groups) := by
  induction groups generalizing R with
  | nil => exact h
  | cons group groups ih => exact ih h.sweep

theorem Orderly.exists_path {i : ℕ} (h : Orderly edge free sink R groups i v) :
    ∃ y, Relation.ReflTransGen edge v y ∧ (sink y ∨ R y) := by
  induction h with
  | marked h => exact ⟨_, .refl, h⟩
  | free _ _ he ih =>
    obtain ⟨y, hy, hm⟩ := ih
    exact ⟨y, .head he hy, hm⟩
  | group _ _ _ _ he ih =>
    obtain ⟨y, hy, hm⟩ := ih
    exact ⟨y, .head he hy, hm⟩

/-! ## Soundness -/

theorem exists_orderly_of_sweep {marks : V → Prop} {i : ℕ}
    (hmarks : ∀ v, marks v → ∃ j ≤ i, Orderly edge free sink R groups j v)
    (hgroup : ∀ v, group v → free v ∨ ∃ G, groups[i]? = some G ∧ G v)
    (h : sweep edge free sink group marks v) : ∃ j ≤ i, Orderly edge free sink R groups j v := by
  rcases h with h | h
  · exact hmarks v h
  · induction h with
    | source h =>
      rcases h.2 with h | h
      · exact ⟨0, Nat.zero_le i, .marked (Or.inl h)⟩
      · exact hmarks _ h
    | step _ hexp he ih =>
      obtain ⟨j, hj, ho⟩ := ih
      rcases hexp.elim Or.inl (hgroup _) with hfree | ⟨G, hG, hw⟩
      · exact ⟨j, hj, ho.free hfree he⟩
      · exact ⟨i, Nat.le_refl i, ho.group hj hG hw he⟩

theorem exists_orderly_of_sweeps_take {marks : V → Prop}
    (hmarks : ∀ v, marks v → ∃ j ≤ 0, Orderly edge free sink R groups j v) (k : ℕ)
    (h : sweeps edge free sink marks (groups.take k) v) :
    ∃ j ≤ k, Orderly edge free sink R groups j v := by
  induction k generalizing v with
  | zero => exact hmarks v h
  | succ k ih =>
    rw [List.take_add_one, sweeps_append] at h
    cases hk : groups[k]? with
    | none =>
      rw [hk] at h
      obtain ⟨j, hj, ho⟩ := ih h
      exact ⟨j, Nat.le_succ_of_le hj, ho⟩
    | some G =>
      rw [hk] at h
      obtain ⟨j, hj, ho⟩ := exists_orderly_of_sweep (fun v ↦ ih)
        (fun v hv ↦ Or.inr ⟨G, hk, hv⟩) h
      exact ⟨j, Nat.le_succ_of_le hj, ho⟩

/-! ## Completeness -/

theorem Orderly.sweeps_take {marks : V → Prop} (hsub : ∀ v, R v → marks v)
    (hfree : FreeClosed edge free sink marks) {i : ℕ} (h : Orderly edge free sink R groups i v) :
    sink v ∨ sweeps edge free sink marks (groups.take (i + 1)) v := by
  induction h with
  | marked h => exact h.imp_right fun h ↦ sweeps_of_marked (hsub _ h)
  | free _ hw he ih => exact Or.inr (hfree.sweeps _ _ he hw ih)
  | @group i k u w G _ hik hk hw he ih =>
    have htake : groups.take (k + 1) = groups.take k ++ [G] := by
      rw [List.take_add_one, hk, Option.toList_some]
    -- the mark of `w` was there before or during the sweep of its group
    have hmono : ∀ v, sweeps edge free sink marks (groups.take (i + 1)) v →
        sweeps edge free sink marks (groups.take (k + 1)) v := fun v hv ↦ by
      have hsplit := List.take_append_drop (i + 1) (groups.take (k + 1))
      rw [List.take_take, Nat.min_eq_left (Nat.succ_le_succ hik)] at hsplit
      rw [← hsplit, sweeps_append]
      exact sweeps_of_marked hv
    have hw' := ih.imp_right (hmono w)
    rw [htake, sweeps_append] at hw' ⊢
    exact Or.inr (sweep_of_edge hw hw' he)

/-! ## The result -/

/-- A vertex of `sink` in one of the groups is marked at the end. -/
theorem sweeps_of_mem (hgroup : group ∈ groups) (hv : group v) (h : sink v) :
    sweeps edge free sink R groups v := by
  induction groups generalizing R with
  | nil => cases hgroup
  | cons G groups ih =>
    rcases List.mem_cons.mp hgroup with rfl | hgroup
    · change sweeps edge free sink (sweep edge free sink group R) groups v
      exact sweeps_of_marked (sweep_of_source hv (Or.inl h))
    · exact ih hgroup

variable (sink R) in
/-- **When the sweeps are enough.**  After a sweep of the free vertices, one sweep per
group and another sweep of the free vertices the marks are closed under predecessors
if and only if every vertex with a path to a vertex that was marked at the beginning
has an orderly one. -/
theorem sweeps_closed_iff
    (hcover : ∀ u w, edge u w → free u ∨ ∃ group ∈ groups, group u) :
    (∀ u w, edge u w → (sink w ∨ sweeps edge free sink R (free :: groups ++ [free]) w) →
        sweeps edge free sink R (free :: groups ++ [free]) u) ↔
      ∀ x y, Relation.ReflTransGen edge x y → (sink y ∨ R y) →
        ∃ i, Orderly edge free sink R groups i x := by
  set final := sweeps edge free sink R (free :: groups ++ [free]) with hfinal
  have hfirst : ∀ v, sweep edge free sink free R v →
      ∃ j ≤ 0, Orderly edge free sink R groups j v := fun v ↦
    exists_orderly_of_sweep (fun v hv ↦ ⟨0, Nat.le_refl 0, .marked (Or.inr hv)⟩) fun v ↦ Or.inl
  have hsplit : final = sweep edge free sink free
      (sweeps edge free sink (sweep edge free sink free R) groups) := by
    rw [hfinal, List.cons_append, sweeps, List.foldl_cons, List.foldl_append]
    rfl
  have hsound : ∀ v, final v → ∃ i, Orderly edge free sink R groups i v := by
    intro v hv
    rw [hsplit] at hv
    have hmiddle : ∀ v, sweeps edge free sink (sweep edge free sink free R) groups v →
        ∃ j ≤ groups.length, Orderly edge free sink R groups j v := fun v hv ↦
      exists_orderly_of_sweeps_take hfirst groups.length (by rwa [List.take_length])
    obtain ⟨j, -, ho⟩ := exists_orderly_of_sweep hmiddle (fun v ↦ Or.inl) hv
    exact ⟨j, ho⟩
  have hcomplete : ∀ i v, Orderly edge free sink R groups i v → sink v ∨ final v := by
    intro i v ho
    refine (ho.sweeps_take (fun v ↦ sweep_of_marked) freeClosed_sweep_free).imp_right fun hv ↦ ?_
    rw [hsplit, ← List.take_append_drop (i + 1) groups, sweeps_append]
    exact sweep_of_marked (sweeps_of_marked hv)
  constructor
  · intro hclosed x y hpath hy
    induction hpath using Relation.ReflTransGen.head_induction_on with
    | refl => exact ⟨0, .marked hy⟩
    | head he _ ih =>
      obtain ⟨i, ho⟩ := ih
      exact hsound _ (hclosed _ _ he (hcomplete i _ ho))
  · intro hall u w he hw
    -- the mark at `w` came along a path, so there is a path from `u` as well
    have hpath : ∃ y, Relation.ReflTransGen edge w y ∧ (sink y ∨ R y) := by
      rcases hw with hw | hw
      · exact ⟨w, .refl, Or.inl hw⟩
      · obtain ⟨i, ho⟩ := hsound w hw
        exact ho.exists_path
    obtain ⟨y, hy, hm⟩ := hpath
    obtain ⟨i, ho⟩ := hall u y (.head he hy) hm
    rcases hcomplete i u ho with hu | hu
    · -- a vertex of `sink` is marked by the sweep of its own group
      rcases hcover u w he with hfree | ⟨group, hgroup, hg⟩
      · exact sweeps_of_mem (List.mem_append_right _ (List.mem_singleton_self free)) hfree hu
      · exact sweeps_of_mem (List.mem_append_left _ (List.mem_cons_of_mem _ hgroup)) hg hu
    · exact hu

end Cali.Lib
