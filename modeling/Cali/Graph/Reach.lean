import Cali.Graph.Bfs
import Cali.Graph.BottomUp

/-!
# Breadth-first search with a visitor that only looks

`breadth_first_search_forward` is the search of `graph/algorithms.h` that follows outgoing
edges only and looks for no vertex.  It is the search in both directions on a graph without
incoming edges, so that one specification serves both.

A visitor that decides without changing the graph makes the search compute reachability.
-/

namespace Cali.Graph

open Cali.Lib Relation

variable {σ N L τ : Type}

/-! ## `breadth_first_search_forward` -/

namespace BfsVisitor

variable (vis : BfsVisitor σ L)

/-- A vertex becomes gray. -/
def discoverForward (s : BfsState σ) (v : ℕ) : BfsState σ :=
  let s := { s with colors := s.colors.putFast v .gray }
  let r := vis.discoverVertex v s.graph
  { s with graph := r.2, queue := if r.1 then s.queue ++ [v] else s.queue }

/-- The loop over the outgoing edges. -/
def scanForward (s : BfsState σ) : List (Edge L) → BfsState σ
  | [] => s
  | e :: es =>
    if vis.examineForwardsEdge e s.graph = true ∧ s.colors.get e.target = .white then
      scanForward (vis.discoverForward { s with graph := vis.treeEdge e s.graph } e.target) es
    else scanForward s es

/-- One round of `while (!Q.empty())`. -/
def examineForward (s : BfsState σ) (u : ℕ) : BfsState σ :=
  let s := { s with graph := vis.examineVertex u s.graph }
  let s := vis.scanForward s (vis.outEdges s.graph u)
  { s with colors := s.colors.putFast u .black, graph := vis.finishVertex u s.graph }

/-- The loop `while (!Q.empty())`; `none` means that the rounds were not enough. -/
def loopForward : ℕ → BfsState σ → Option (BfsState σ)
  | 0, _ => none
  | rounds + 1, s =>
    match s.queue with
    | [] => some { s with graph := vis.finished s.graph }
    | u :: queue => loopForward rounds (vis.examineForward { s with queue := queue } u)

/-- `breadth_first_search_forward` -/
def breadthFirstSearchForward (graph : σ) (sources : List ℕ) (colors : ColorMap) :
    Option (BfsState σ) :=
  if sources = [] then some ⟨graph, colors, []⟩
  else
    vis.loopForward (4 * colors.colors.length + sources.length + 1)
      (sources.foldl vis.discoverForward ⟨graph, colors.init, []⟩)

/-- The visitor that meets no incoming edges and looks for no vertex. -/
def forwardOnly : BfsVisitor σ L :=
  { vis with inEdges := fun _ _ ↦ [], isWantedVertex := fun _ _ ↦ false }

theorem start_forwardOnly (s : BfsState σ) (sources : List ℕ) :
    vis.forwardOnly.start s sources = (false, sources.foldl vis.discoverForward s) := by
  induction sources generalizing s with
  | nil => rfl
  | cons v sources ih => exact ih _

theorem scan_forwardOnly (s : BfsState σ) (es : List (Edge L)) :
    vis.forwardOnly.scan vis.forwardOnly.examineForwardsEdge Edge.target s es =
      (false, vis.scanForward s es) := by
  induction es generalizing s with
  | nil => rfl
  | cons e es ih =>
    by_cases h : vis.examineForwardsEdge e s.graph = true ∧ s.colors.get e.target = .white
    · exact (if_pos h).trans ((ih _).trans (congrArg (false, ·) (if_pos h).symm))
    · exact (if_neg h).trans ((ih _).trans (congrArg (false, ·) (if_neg h).symm))

theorem examine_forwardOnly (s : BfsState σ) (u : ℕ) :
    vis.forwardOnly.examine s u = (false, vis.examineForward s u) := by
  unfold examine
  simp only [forwardOnly, scan, Bool.false_eq_true, if_false]
  have hscan := vis.scan_forwardOnly { s with graph := vis.examineVertex u s.graph }
    (vis.outEdges (vis.examineVertex u s.graph) u)
  simp only [forwardOnly] at hscan
  rw [hscan]
  rfl

theorem loop_forwardOnly (rounds : ℕ) (s : BfsState σ) :
    vis.forwardOnly.loop rounds s = (vis.loopForward rounds s).map (false, ·) := by
  induction rounds generalizing s with
  | zero => rfl
  | succ rounds ih =>
    cases hq : s.queue with
    | nil =>
      simp only [loop, loopForward, hq]
      rfl
    | cons u queue =>
      simp only [loop, loopForward, hq, examine_forwardOnly]
      exact ih _

/-- **The forward search is the search in both directions** of a visitor that meets no
incoming edges and looks for nothing. -/
theorem breadthFirstSearchTwoway_forwardOnly (graph : σ) (sources : List ℕ) (colors : ColorMap) :
    vis.forwardOnly.breadthFirstSearchTwoway graph sources colors =
      (vis.breadthFirstSearchForward graph sources colors).map (false, ·) := by
  unfold breadthFirstSearchTwoway breadthFirstSearchForward
  split
  · rfl
  · simp only [start_forwardOnly, loop_forwardOnly]
    rfl

/-- The vertices the forward search sees. -/
def SeesForward (g : σ) (sources : List ℕ) : ℕ → Prop :=
  Discovered (· ∈ sources) (vis.Expands g) fun u v ↦
    v ∈ Offered vis.examineForwardsEdge Edge.target g (vis.outEdges g u)

theorem sees_forwardOnly_iff {g : σ} {sources : List ℕ} {v : ℕ} :
    vis.forwardOnly.Sees g sources v ↔ vis.SeesForward g sources v := by
  refine Discovered.congr (fun _ ↦ Iff.rfl) (fun _ _ ↦ Iff.rfl) fun u w ↦ or_iff_right ?_
  rintro ⟨e, he, -⟩
  exact absurd he List.not_mem_nil

variable {vis} in
theorem Stable.forwardOnly {I : Set ℕ → σ → Prop} {g₀ : σ} (h : vis.Stable I g₀) :
    vis.forwardOnly.Stable I g₀ where
  inEdges _ _ := rfl
  outEdges hI := h.outEdges hI
  backwards hI := h.backwards hI
  forwards hI := h.forwards hI
  wants _ _ := rfl
  expands hI := h.expands hI
  discover hI := h.discover hI
  examineVertex hI := h.examineVertex hI
  finishVertex hI := h.finishVertex hI
  treeEdge hI := h.treeEdge hI
  finished hI := h.finished hI

variable {vis} in
/-- **The forward search ends**, and the vertices that it has discovered and coloured are those
that it sees. -/
theorem bfsForward_spec {I : Set ℕ → σ → Prop} {g₀ : σ} {sources : List ℕ}
    (hst : vis.Stable I g₀) (hI : I ∅ g₀) (hsources : sources ≠ []) (colors : ColorMap)
    (hcov : ∀ v, vis.SeesForward g₀ sources v → colors.Covers v) :
    ∃ s, vis.breadthFirstSearchForward g₀ sources colors = some s ∧
      s.visited = {v | vis.SeesForward g₀ sources v} ∧
      I {v | vis.SeesForward g₀ sources v} s.graph := by
  have hsees : {v | vis.forwardOnly.Sees g₀ sources v} = {v | vis.SeesForward g₀ sources v} :=
    Set.ext fun v ↦ vis.sees_forwardOnly_iff
  obtain ⟨r, hr, hout⟩ := bfs_outcome (hst.forwardOnly.stableOn sources) hI hsources colors
    fun v hv ↦ hcov v (vis.sees_forwardOnly_iff.mp hv)
  rw [breadthFirstSearchTwoway_forwardOnly] at hr
  obtain ⟨s, hs, rfl⟩ := Option.map_eq_some_iff.mp hr
  refine ⟨s, hs, ?_⟩
  rcases hout with ⟨htrue, -⟩ | ⟨-, -, hvisited, log, g, hg, hI', -, -⟩
  · cases htrue
  · rw [hsees] at hvisited hI'
    refine ⟨hvisited, ?_⟩
    rw [show s.graph = vis.finished g from hg]
    exact hst.finished hI'

end BfsVisitor

/-! ## Pure visitors -/

/-- A visitor whose decisions are predicates of the graph.  Its other hooks may change data of
its own, of type `τ`, but not the graph. -/
structure PureVisitor (N L τ : Type) where
  discoverVertex : ℕ → BaseGraph N L → Bool := fun _ _ ↦ true
  isWantedVertex : ℕ → BaseGraph N L → Bool := fun _ _ ↦ false
  examineBackwardsEdge : Edge L → BaseGraph N L → Bool := fun _ _ ↦ true
  examineForwardsEdge : Edge L → BaseGraph N L → Bool := fun _ _ ↦ true
  examineVertex : ℕ → BaseGraph N L → τ → τ := fun _ _ t ↦ t
  finishVertex : ℕ → BaseGraph N L → τ → τ := fun _ _ t ↦ t
  treeEdge : Edge L → BaseGraph N L → τ → τ := fun _ _ t ↦ t
  finished : BaseGraph N L → τ → τ := fun _ t ↦ t

namespace PureVisitor

variable (vis : PureVisitor N L τ) (g : BaseGraph N L)

/-- The visitor on the graph together with its own data. -/
def toBfs : BfsVisitor (BaseGraph N L × τ) L where
  inEdges s := s.1.inEdges
  outEdges s := s.1.outEdges
  discoverVertex v s := (vis.discoverVertex v s.1, s)
  isWantedVertex v s := vis.isWantedVertex v s.1
  examineVertex v s := (s.1, vis.examineVertex v s.1 s.2)
  finishVertex v s := (s.1, vis.finishVertex v s.1 s.2)
  examineBackwardsEdge e s := vis.examineBackwardsEdge e s.1
  examineForwardsEdge e s := vis.examineForwardsEdge e s.1
  treeEdge e s := (s.1, vis.treeEdge e s.1 s.2)
  finished s := (s.1, vis.finished s.1 s.2)

/-- The vertex `u` is accepted, and an outgoing edge of it that is followed ends at `w`. -/
def FollowsForward (u w : ℕ) : Prop :=
  vis.discoverVertex u g = true ∧
    ∃ e ∈ g.outEdges u, vis.examineForwardsEdge e g = true ∧ e.target = w

/-- The vertex `u` is accepted, and an edge of it that is followed, in its direction or
backwards, leads to `w`. -/
def Follows (u w : ℕ) : Prop :=
  vis.discoverVertex u g = true ∧
    ((∃ e ∈ g.inEdges u, vis.examineBackwardsEdge e g = true ∧ e.source = w) ∨
      ∃ e ∈ g.outEdges u, vis.examineForwardsEdge e g = true ∧ e.target = w)

/-- The vertex is a source or a path of followed edges leads to it. -/
def Reaches (sources : List ℕ) (v : ℕ) : Prop :=
  ∃ s ∈ sources, ReflTransGen (vis.Follows g) s v

/-- A path of outgoing edges leads to the vertex. -/
def ReachesForward (sources : List ℕ) (v : ℕ) : Prop :=
  ∃ s ∈ sources, ReflTransGen (vis.FollowsForward g) s v

variable {g} in
theorem stable (t : τ) : vis.toBfs.Stable (fun _ s ↦ s.1 = g) (g, t) where
  inEdges h _ := congrArg (BaseGraph.inEdges · _) h
  outEdges h _ := congrArg (BaseGraph.outEdges · _) h
  backwards h e := congrArg (vis.examineBackwardsEdge e) h
  forwards h e := congrArg (vis.examineForwardsEdge e) h
  wants h v := congrArg (vis.isWantedVertex v) h
  expands h v := congrArg (vis.discoverVertex v) h
  discover h _ := h
  examineVertex h _ := h
  finishVertex h _ := h
  treeEdge h _ := h
  finished h := h

variable {sources : List ℕ} {v : ℕ}

theorem sees_iff (t : τ) : vis.toBfs.Sees (g, t) sources v ↔ vis.Reaches g sources v :=
  discovered_iff

theorem seesForward_iff (t : τ) :
    vis.toBfs.SeesForward (g, t) sources v ↔ vis.ReachesForward g sources v :=
  discovered_iff

variable {vis g} in
theorem FollowsForward.follows {u w : ℕ} (h : vis.FollowsForward g u w) : vis.Follows g u w :=
  h.imp_right Or.inr

end PureVisitor

namespace BaseGraph

variable (g : BaseGraph N L)

/-- The ids a search can meet: the sources and the ends of the stored edges. -/
def Meets (sources : List ℕ) (v : ℕ) : Prop :=
  v ∈ sources ∨ (∃ u, ∃ e ∈ g.inEdges u, e.source = v) ∨ ∃ u, ∃ e ∈ g.outEdges u, e.target = v

variable {g} {vis : PureVisitor N L τ} {sources : List ℕ} {v : ℕ}

theorem meets_of_reaches (h : vis.Reaches g sources v) : g.Meets sources v := by
  obtain ⟨s, hs, hpath⟩ := h
  cases hpath with
  | refl => exact Or.inl hs
  | tail _ hstep =>
    rcases hstep.2 with ⟨e, he, -, rfl⟩ | ⟨e, he, -, rfl⟩
    · exact Or.inr (Or.inl ⟨_, e, he, rfl⟩)
    · exact Or.inr (Or.inr ⟨_, e, he, rfl⟩)

theorem meets_of_reachesForward (h : vis.ReachesForward g sources v) : g.Meets sources v := by
  obtain ⟨s, hs, hpath⟩ := h
  exact meets_of_reaches ⟨s, hs, ReflTransGen.mono (fun _ _ h ↦ h.follows) _ _ hpath⟩

end BaseGraph

/-- **A search with a pure visitor computes reachability**, in both directions and forward. -/
theorem PureVisitor.breadthFirstSearch_reaches (vis : PureVisitor N L τ) (g : BaseGraph N L)
    (t : τ) {sources : List ℕ} (hsources : sources ≠ []) {colors : ColorMap}
    (hcov : ∀ v, g.Meets sources v → colors.Covers v) :
    (∃ r, vis.toBfs.breadthFirstSearchTwoway (g, t) sources colors = some r ∧
      (r.1 = true ↔ ∃ v, vis.Reaches g sources v ∧ vis.isWantedVertex v g = true) ∧
      (r.1 = false → ∀ v, r.2.colors.get v ≠ .white ↔ vis.Reaches g sources v)) ∧
    ∃ s, vis.toBfs.breadthFirstSearchForward (g, t) sources colors = some s ∧
      ∀ v, s.colors.get v ≠ .white ↔ vis.ReachesForward g sources v := by
  constructor
  · obtain ⟨r, hr, hout⟩ := BfsVisitor.bfs_outcome ((vis.stable t).stableOn sources) rfl hsources
      colors fun v hv ↦ hcov v (BaseGraph.meets_of_reaches ((vis.sees_iff g t).mp hv))
    refine ⟨r, hr, ?_⟩
    rcases hout with ⟨htrue, v, hv, hw⟩ | ⟨hfalse, hunwanted, hvisited, -⟩
    · refine ⟨⟨fun _ ↦ ⟨v, (vis.sees_iff g t).mp hv, hw⟩, fun _ ↦ htrue⟩, fun hfalse ↦ ?_⟩
      rw [htrue] at hfalse
      cases hfalse
    · constructor
      · constructor
        · intro htrue
          rw [hfalse] at htrue
          cases htrue
        · rintro ⟨v, hv, hw⟩
          exact absurd hw (hunwanted v ((vis.sees_iff g t).mpr hv))
      · intro _ v
        exact (Set.ext_iff.mp hvisited v).trans (vis.sees_iff g t)
  · obtain ⟨s, hs, hvisited, -⟩ := BfsVisitor.bfsForward_spec (vis.stable t) rfl hsources colors
      fun v hv ↦ hcov v (BaseGraph.meets_of_reachesForward ((vis.seesForward_iff g t).mp hv))
    exact ⟨s, hs, fun v ↦ (Set.ext_iff.mp hvisited v).trans (vis.seesForward_iff g t)⟩

/-- A visitor that does not accept the first vertex and looks for the last one. -/
def skipFirst : PureVisitor Unit Unit Unit where
  discoverVertex v _ := v != 0
  isWantedVertex v _ := v == 3

theorem meets_cycleAndTail {v : ℕ} (h : BaseGraph.cycleAndTail.Meets [0, 1, 1] v) : v < 4 := by
  rcases h with hv | ⟨u, e, he, rfl⟩ | ⟨u, e, he, rfl⟩
  · revert v
    decide
  · exact (BaseGraph.inEdgesInside_cycleAndTail u e he).1
  · exact (BaseGraph.inside_cycleAndTail u e.target ⟨e, he, rfl⟩).2

/-- From the first two vertices the last one is found; from the first one alone nothing is. -/
theorem breadthFirstSearch_cycleAndTail :
    (∃ r, skipFirst.toBfs.breadthFirstSearchTwoway (BaseGraph.cycleAndTail, ()) [0, 1, 1]
        (.ofCapacity 4) = some r ∧
      (r.1 = true ↔ ∃ v, skipFirst.Reaches BaseGraph.cycleAndTail [0, 1, 1] v ∧
        skipFirst.isWantedVertex v BaseGraph.cycleAndTail = true) ∧
      (r.1 = false → ∀ v, r.2.colors.get v ≠ .white ↔
        skipFirst.Reaches BaseGraph.cycleAndTail [0, 1, 1] v)) ∧
    (skipFirst.toBfs.breadthFirstSearchTwoway (BaseGraph.cycleAndTail, ()) [0, 1, 1]
      (.ofCapacity 4)).map Prod.fst = some true ∧
    (skipFirst.toBfs.breadthFirstSearchTwoway (BaseGraph.cycleAndTail, ()) [0]
      (.ofCapacity 4)).map Prod.fst = some false :=
  ⟨(skipFirst.breadthFirstSearch_reaches BaseGraph.cycleAndTail () (by decide) fun _ hv ↦
      ColorMap.covers_ofCapacity (meets_cycleAndTail hv)).1, by decide +kernel, by decide +kernel⟩

end Cali.Graph
