import Mathlib.Algebra.Order.BigOperators.Group.Finset
import Cali.Graph.BaseGraph
import Cali.Graph.ColorMap
import Cali.Lib.Loop

/-!
# Depth-first search

`depth_first_search` of `graph/algorithms.h`.  The search of a vertex is a loop with an
explicit stack of the vertices whose edges are being followed, each one with the edges
that are left.  The source keeps the topmost entry in local variables; here it is on
the stack like the others.

`depthFirstVisit_spec` is the rule for such a search: what each of its steps preserves
holds at the end, and the search does end.
-/

namespace Cali.Graph

open Cali.Lib

variable {N L τ : Type}

/-- The hooks of a visitor with the state `τ`. -/
structure DfsVisitor (τ L : Type) where
  initializeVertex : ℕ → τ → τ := fun _ t ↦ t
  startVertex : ℕ → τ → τ := fun _ t ↦ t
  discoverVertex : ℕ → τ → τ := fun _ t ↦ t
  examineEdge : Edge L → τ → τ := fun _ t ↦ t
  treeEdge : Edge L → τ → τ := fun _ t ↦ t
  backEdge : Edge L → τ → τ := fun _ t ↦ t
  forwardOrCrossEdge : Edge L → τ → τ := fun _ t ↦ t
  finishVertex : ℕ → τ → τ := fun _ t ↦ t

/-- The variables of the search. -/
structure DfsState (τ L : Type) where
  visitor : τ
  colors : ColorMap
  stack : List (ℕ × List (Edge L))

namespace BaseGraph

variable (g : BaseGraph N L) (vis : DfsVisitor τ L)

/-- A white vertex becomes gray. -/
def dfsDiscover (s : DfsState τ L) (v : ℕ) : DfsState τ L :=
  ⟨vis.discoverVertex v s.visitor, s.colors.putFast v .gray, (v, g.outEdges v) :: s.stack⟩

/-- One step of `depth_first_visit_impl`: the next edge of the topmost vertex, or the
end of its search. -/
def dfsStep (s : DfsState τ L) : Option (DfsState τ L) :=
  match s.stack with
  | [] => none
  | (u, e :: es) :: stack =>
    let visitor := vis.examineEdge e s.visitor
    match s.colors.get e.target with
    | .white =>
      some (g.dfsDiscover vis ⟨vis.treeEdge e visitor, s.colors, (u, es) :: stack⟩ e.target)
    | .gray => some ⟨vis.backEdge e visitor, s.colors, (u, es) :: stack⟩
    | _ => some ⟨vis.forwardOrCrossEdge e visitor, s.colors, (u, es) :: stack⟩
  | (u, []) :: stack =>
    some ⟨vis.finishVertex u s.visitor, s.colors.putFast u .black, stack⟩

/-- A bound for the number of steps of a search. -/
def dfsRounds : ℕ := (∑ v ∈ Finset.range g.capacity, ((g.outEdges v).length + 2)) + 1

/-- `depth_first_visit_impl`; `none` would mean that the search does not end. -/
def depthFirstVisit (s : DfsState τ L) (u : ℕ) : Option (DfsState τ L) :=
  iterate (g.dfsStep vis) g.dfsRounds (g.dfsDiscover vis { s with stack := [] } u)

/-- `get_default_starting_vertex` -/
def defaultStartingVertex : Option ℕ := if g.size = 0 then none else some 0

/-- One round of the second loop of `depth_first_search`. -/
def dfsVisitIfWhite (s : DfsState τ L) (u : ℕ) : Option (DfsState τ L) :=
  if s.colors.get u = .white then
    g.depthFirstVisit vis { s with visitor := vis.startVertex u s.visitor } u
  else some s

/-- `depth_first_search`; the null vertex is `none`. -/
def depthFirstSearch (visitor : τ) (source : Option ℕ) (colors : ColorMap) :
    Option (DfsState τ L) := do
  let visitor := (List.range g.capacity).foldl (fun t u ↦ vis.initializeVertex u t) visitor
  let s : DfsState τ L := ⟨visitor, colors.init, []⟩
  let s ← match source with
    | none => some s
    | some u =>
      if some u ≠ g.defaultStartingVertex then
        g.depthFirstVisit vis { s with visitor := vis.startVertex u s.visitor } u
      else some s
  (List.range g.capacity).foldlM (g.dfsVisitIfWhite vis) s

/-- The steps of the search: the edge in hand goes to a white, a gray or a black vertex, or the
topmost vertex has no edge left. -/
inductive DfsMove : DfsState τ L → DfsState τ L → Prop
  | tree {t : τ} {colors : ColorMap} {u : ℕ} {e : Edge L} {es : List (Edge L)}
      {stack : List (ℕ × List (Edge L))} (hwhite : colors.get e.target = .white) :
      DfsMove ⟨t, colors, (u, e :: es) :: stack⟩
        (g.dfsDiscover vis ⟨vis.treeEdge e (vis.examineEdge e t), colors, (u, es) :: stack⟩
          e.target)
  | back {t : τ} {colors : ColorMap} {u : ℕ} {e : Edge L} {es : List (Edge L)}
      {stack : List (ℕ × List (Edge L))} (hgray : colors.get e.target = .gray) :
      DfsMove ⟨t, colors, (u, e :: es) :: stack⟩
        ⟨vis.backEdge e (vis.examineEdge e t), colors, (u, es) :: stack⟩
  | forwardOrCross {t : τ} {colors : ColorMap} {u : ℕ} {e : Edge L} {es : List (Edge L)}
      {stack : List (ℕ × List (Edge L))} (hwhite : colors.get e.target ≠ .white) :
      DfsMove ⟨t, colors, (u, e :: es) :: stack⟩
        ⟨vis.forwardOrCrossEdge e (vis.examineEdge e t), colors, (u, es) :: stack⟩
  | finish {t : τ} {colors : ColorMap} {u : ℕ} {stack : List (ℕ × List (Edge L))} :
      DfsMove ⟨t, colors, (u, []) :: stack⟩
        ⟨vis.finishVertex u t, colors.putFast u .black, stack⟩

variable {g vis}

theorem DfsMove.of_dfsStep {s s' : DfsState τ L} (hstep : g.dfsStep vis s = some s') :
    DfsMove g vis s s' := by
  obtain ⟨t, colors, stack⟩ := s
  unfold dfsStep at hstep
  split at hstep
  · cases hstep
  · next u e es stack hstack =>
      obtain rfl := hstack
      split at hstep
      · next hwhite =>
          cases hstep
          exact .tree hwhite
      · next hgray =>
          cases hstep
          exact .back hgray
      · next hwhite _ =>
          cases hstep
          exact .forwardOrCross hwhite
  · next u stack hstack =>
      obtain rfl := hstack
      cases hstep
      exact .finish

/-! ## The search of one vertex ends -/

/-- How much a search still has to do: the white vertices with their edges, and the
edges that are left on the stack. -/
def dfsWork (g : BaseGraph N L) (s : DfsState τ L) : ℕ :=
  (∑ v ∈ (Finset.range g.capacity).filter fun v ↦ s.colors.get v = .white,
      ((g.outEdges v).length + 2)) +
    (s.stack.map fun f ↦ f.2.length + 1).sum

theorem sum_white_putFast {m : ColorMap} {v : ℕ} {c : Color} (hv : v < g.capacity)
    (hcov : m.Covers v) (hwhite : m.get v = .white) (hc : c ≠ .white) :
    (∑ u ∈ (Finset.range g.capacity).filter fun u ↦ (m.putFast v c).get u = .white,
        ((g.outEdges u).length + 2)) + ((g.outEdges v).length + 2) =
      ∑ u ∈ (Finset.range g.capacity).filter fun u ↦ m.get u = .white,
        ((g.outEdges u).length + 2) := by
  have herase : ((Finset.range g.capacity).filter fun u ↦ (m.putFast v c).get u = .white) =
      ((Finset.range g.capacity).filter fun u ↦ m.get u = .white).erase v := by
    ext u
    rw [Finset.mem_filter, Finset.mem_erase, Finset.mem_filter, ColorMap.get_putFast hcov]
    by_cases huv : u = v
    · simp only [huv, ↓reduceIte, ne_eq, not_true, false_and, iff_false, not_and]
      exact fun _ ↦ Color.or_ne_white (Or.inr hc)
    · simp [huv]
  rw [herase]
  exact Finset.sum_erase_add _ _ (by simp [hv, hwhite])

theorem dfsWork_discover (vis : DfsVisitor τ L) {s : DfsState τ L} {v : ℕ} (hv : v < g.capacity)
    (hcov : s.colors.Covers v) (hwhite : s.colors.get v = .white) :
    g.dfsWork (g.dfsDiscover vis s v) < g.dfsWork s := by
  have hsum := sum_white_putFast (g := g) (c := .gray) hv hcov hwhite (by decide)
  unfold dfsWork dfsDiscover
  simp only [List.map_cons, List.sum_cons]
  omega

/-- The vertices of the search are inside the graph and covered by the colour map. -/
structure DfsInside (g : BaseGraph N L) (s : DfsState τ L) : Prop where
  covers : ∀ v, v < g.capacity → s.colors.Covers v
  vertex : ∀ f ∈ s.stack, f.1 < g.capacity
  edge : ∀ f ∈ s.stack, ∀ e ∈ f.2, e.target < g.capacity

theorem dfsWork_step {s s' : DfsState τ L} (h : DfsInside g s) (hstep : g.dfsStep vis s = some s') :
    g.dfsWork s' < g.dfsWork s := by
  cases DfsMove.of_dfsStep hstep with
  | @tree t colors u e es stack hwhite =>
    have hlt := h.edge (u, e :: es) List.mem_cons_self e List.mem_cons_self
    have hdisc := dfsWork_discover vis
      (s := ⟨vis.treeEdge e (vis.examineEdge e t), colors, (u, es) :: stack⟩) hlt
      (h.covers _ hlt) hwhite
    refine hdisc.trans ?_
    simp only [dfsWork, List.map_cons, List.sum_cons, List.length_cons]
    omega
  | back | forwardOrCross =>
    simp only [dfsWork, List.map_cons, List.sum_cons, List.length_cons]
    omega
  | @finish t colors u stack =>
    have hu : u < g.capacity := h.vertex (u, []) List.mem_cons_self
    have hsub : (∑ v ∈ (Finset.range g.capacity).filter fun v ↦
          (colors.putFast u .black).get v = .white, ((g.outEdges v).length + 2)) ≤
        ∑ v ∈ (Finset.range g.capacity).filter fun v ↦ colors.get v = .white,
          ((g.outEdges v).length + 2) := by
      refine Finset.sum_le_sum_of_subset fun v hv ↦ ?_
      rw [Finset.mem_filter] at hv ⊢
      refine ⟨hv.1, not_not.mp fun hne ↦ ?_⟩
      exact (ColorMap.get_putFast_ne_white (h.covers u hu) (by decide)).mpr (Or.inl hne) hv.2
    simp only [dfsWork, List.map_cons, List.sum_cons, List.length_nil]
    omega

/-- **The rule for the search of a vertex.** -/
theorem depthFirstVisit_spec {I : DfsState τ L → Prop} (hin : ∀ s, I s → DfsInside g s)
    (hstep : ∀ s s', I s → g.dfsStep vis s = some s' → I s') {s : DfsState τ L} {u : ℕ}
    (hu : u < g.capacity) (hcov : s.colors.Covers u) (hwhite : s.colors.get u = .white)
    (hstart : I (g.dfsDiscover vis { s with stack := [] } u)) :
    ∃ s', g.depthFirstVisit vis s u = some s' ∧ I s' ∧ s'.stack = [] := by
  have hwork : g.dfsWork (g.dfsDiscover vis { s with stack := [] } u) < g.dfsRounds := by
    refine (dfsWork_discover vis (s := { s with stack := [] }) hu hcov hwhite).trans ?_
    unfold dfsWork dfsRounds
    simp only [List.map_nil, List.sum_nil, Nat.add_zero]
    exact Nat.lt_succ_of_le (Finset.sum_le_sum_of_subset (Finset.filter_subset _ _))
  obtain ⟨s', hs', hI, hend⟩ := iterate_spec (g.dfsWork)
    (fun s s' hs hst ↦ ⟨hstep s s' hs hst, dfsWork_step (hin s hs) hst⟩) hstart hwork
  refine ⟨s', hs', hI, ?_⟩
  unfold dfsStep at hend
  split at hend
  · assumption
  · split at hend <;> cases hend
  · cases hend

end BaseGraph

end Cali.Graph
