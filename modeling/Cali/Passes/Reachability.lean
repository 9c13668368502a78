import Cali.Graph.Bfs
import Cali.Lib.Sweep
import Cali.Passes.Index

/-!
# Which vertices reach a sink

`calculateSinkReachability` marks with `reaches_ipc_sink` what flows into a marked
vertex of a set of functions.  It goes on from vertices of these functions and from
vertices without a function; vertices of other functions are marked, but it stops
there.  `PDGReachabilityPass` calls it once for the vertices without a function, once
for each strongly connected component of functions and once more for the vertices
without a function.
-/

namespace Cali.Passes

open Cali.Graph Cali.Lib

variable {Val Fn : Type}

/-- The edges along which the mark is propagated. -/
def PDGEdge.Flow (p : PDGEdge) : Prop := p.type = .data ∨ p.type = .part

instance (p : PDGEdge) : Decidable p.Flow := inferInstanceAs (Decidable (_ ∨ _))

namespace PDG

/-- The vertex is marked `ipcsink` or `reaches_ipc_sink`. -/
def Marked (g : PDG Val Fn) (v : ℕ) : Prop :=
  (g.node v).ipcsink = true ∨ (g.node v).reachesIpcSink = true

instance (g : PDG Val Fn) (v : ℕ) : Decidable (g.Marked v) :=
  inferInstanceAs (Decidable (_ ∨ _))

/-- Set `reaches_ipc_sink`. -/
def setReaches (g : PDG Val Fn) (v : ℕ) : PDG Val Fn :=
  g.setNode v { g.node v with reachesIpcSink := true }

variable [DecidableEq Fn]

/-- `FullDataReachability` -/
def fullDataReachability (functions : List (Option Fn)) : BfsVisitor (PDG Val Fn) PDGEdge where
  inEdges g v := g.graph.inEdges v
  outEdges g v := g.graph.outEdges v
  examineForwardsEdge _ _ := false
  examineBackwardsEdge e _ := decide e.property.Flow
  discoverVertex v g :=
    let g := g.setReaches v
    (decide ((g.node v).function = none ∨ (g.node v).function ∈ functions), g)

/-- The sources of `calculateSinkReachability`. -/
def sinkSources (g : PDG Val Fn) (functions : List (Option Fn)) : List ℕ :=
  functions.flatMap fun f ↦ (ascending (g.functionToVertices f)).filter fun v ↦
    decide ((g.node v).function = f ∧ g.Marked v)

/-- `calculateSinkReachability`, with a colour map made for the graph: the number of
sources and the graph.  `none` would mean that the search does not end. -/
def calculateSinkReachability (g : PDG Val Fn) (functions : List (Option Fn)) :
    Option (ℕ × PDG Val Fn) :=
  let sources := g.sinkSources functions
  ((fullDataReachability functions).breadthFirstSearchTwoway g sources
    (.ofCapacity g.graph.capacity)).map fun r ↦ (sources.length, r.2.graph)

/-- The calls of `PDGReachabilityPass::runOnModule`, for the components `sccs`. -/
def sinkReachabilityPass (g : PDG Val Fn) (sccs : List (List Fn)) : Option (PDG Val Fn) :=
  let calls : List (List (Option Fn)) := [none] :: sccs.map (·.map some) ++ [[none]]
  calls.foldlM (fun g functions ↦ (g.calculateSinkReachability functions).map Prod.snd) g

/-! ## The graph apart from the mark -/

/-- The two graphs differ in the marks only. -/
structure SameButMarks (g g' : PDG Val Fn) : Prop where
  capacity : g'.graph.capacity = g.graph.capacity
  isEmpty : ∀ v, g'.graph.isEmpty v = g.graph.isEmpty v
  inEdges : ∀ v, g'.graph.inEdges v = g.graph.inEdges v
  outEdges : ∀ v, g'.graph.outEdges v = g.graph.outEdges v
  function : ∀ v, (g'.node v).function = (g.node v).function
  functionToVertices : g'.functionToVertices = g.functionToVertices

/-- The two graphs differ in `reaches_ipc_sink` only. -/
structure SameButReaches (g g' : PDG Val Fn) : Prop extends SameButMarks g g' where
  ipcsink : ∀ v, (g'.node v).ipcsink = (g.node v).ipcsink

variable {g g' g'' : PDG Val Fn} {functions : List (Option Fn)} {u v w : ℕ} {p : PDGEdge}

omit [DecidableEq Fn] in
theorem SameButReaches.refl (g : PDG Val Fn) : SameButReaches g g :=
  ⟨⟨rfl, fun _ ↦ rfl, fun _ ↦ rfl, fun _ ↦ rfl, fun _ ↦ rfl, rfl⟩, fun _ ↦ rfl⟩

omit [DecidableEq Fn] in
theorem SameButMarks.trans (h : SameButMarks g g') (h' : SameButMarks g' g'') :
    SameButMarks g g'' :=
  ⟨h'.capacity.trans h.capacity, fun v ↦ (h'.isEmpty v).trans (h.isEmpty v),
    fun v ↦ (h'.inEdges v).trans (h.inEdges v), fun v ↦ (h'.outEdges v).trans (h.outEdges v),
    fun v ↦ (h'.function v).trans (h.function v),
    h'.functionToVertices.trans h.functionToVertices⟩

omit [DecidableEq Fn] in
theorem SameButReaches.trans (h : SameButReaches g g') (h' : SameButReaches g' g'') :
    SameButReaches g g'' :=
  ⟨h.toSameButMarks.trans h'.toSameButMarks, fun v ↦ (h'.ipcsink v).trans (h.ipcsink v)⟩

omit [DecidableEq Fn] in
theorem SameButMarks.hasEdge_iff (h : SameButMarks g g') :
    g'.HasEdge u p w ↔ g.HasEdge u p w := by
  unfold HasEdge BaseGraph.HasEdge
  rw [h.outEdges]

omit [DecidableEq Fn] in
theorem SameButMarks.live_iff (h : SameButMarks g g') : g'.Live v ↔ g.Live v := by
  unfold Live BaseGraph.Live
  rw [h.capacity, h.isEmpty]

omit [DecidableEq Fn] in
theorem sameButReaches_setReaches (g : PDG Val Fn) (v : ℕ) : SameButReaches g (g.setReaches v) := by
  refine ⟨⟨rfl, fun u ↦ BaseGraph.isEmpty_setProperty .., fun u ↦ inEdges_setNode ..,
    fun u ↦ outEdges_setNode .., fun u ↦ ?_, rfl⟩, fun u ↦ ?_⟩
  · rw [setReaches, node_setNode]
    split
    · next h => rw [h]
    · rfl
  · rw [setReaches, node_setNode]
    split
    · next h => rw [h]
    · rfl

omit [DecidableEq Fn] in
theorem reaches_setReaches (g : PDG Val Fn) (v : ℕ) :
    ((g.setReaches v).node u).reachesIpcSink = true ↔
      (g.node u).reachesIpcSink = true ∨ u = v := by
  rw [setReaches, node_setNode]
  by_cases h : u = v
  · simp [h]
  · simp [h]

/-- What the graph must be like for the pass: the edges are stored in both directions
and stay among the live vertices, and the index of functions is right. -/
structure Indexed (g : PDG Val Fn) : Prop where
  mirrored : g.graph.Mirrored
  live : ∀ u p w, g.HasEdge u p w → g.Live u ∧ g.Live w
  index : Indexes g.functionToVertices g.Live fun v ↦ (g.node v).function

omit [DecidableEq Fn] in
theorem Indexed.congr (h : g.Indexed) (hsame : SameButMarks g g') : g'.Indexed where
  mirrored := h.mirrored.congr hsame.outEdges hsame.inEdges
  live u p w he := by
    rw [hsame.live_iff, hsame.live_iff]
    exact h.live u p w (hsame.hasEdge_iff.mp he)
  index := by
    rw [hsame.functionToVertices]
    exact h.index.congr (fun v ↦ hsame.live_iff) hsame.function

/-! ## One call -/

/-- There is an edge from `u` to `w` along which the mark is propagated. -/
def Flows (g : PDG Val Fn) (u w : ℕ) : Prop := ∃ p : PDGEdge, p.Flow ∧ g.HasEdge u p w

/-- The vertex is marked `ipcsink`. -/
def Sink (g : PDG Val Fn) (v : ℕ) : Prop := (g.node v).ipcsink = true

/-- The vertex is marked `reaches_ipc_sink`. -/
def Reaches (g : PDG Val Fn) (v : ℕ) : Prop := (g.node v).reachesIpcSink = true

/-- The live vertices of a list of functions, `none` standing for no function. -/
def InFunctions (g : PDG Val Fn) (functions : List (Option Fn)) (v : ℕ) : Prop :=
  g.Live v ∧ (g.node v).function ∈ functions

omit [DecidableEq Fn] in
theorem SameButMarks.flows_eq (h : SameButMarks g g') : g'.Flows = g.Flows := by
  funext u w
  simp only [Flows, h.hasEdge_iff]

omit [DecidableEq Fn] in
theorem SameButReaches.sink_eq (h : SameButReaches g g') : g'.Sink = g.Sink := by
  funext v
  simp only [Sink, h.ipcsink]

omit [DecidableEq Fn] in
theorem SameButMarks.inFunctions_eq (h : SameButMarks g g') :
    g'.InFunctions = g.InFunctions := by
  funext functions v
  simp only [InFunctions, h.live_iff, h.function]

theorem mem_sinkSources (h : g.Indexed) :
    v ∈ g.sinkSources functions ↔ g.InFunctions functions v ∧ (g.Sink v ∨ g.Reaches v) := by
  unfold sinkSources InFunctions
  simp only [List.mem_flatMap, List.mem_filter, mem_ascending, h.index _ v, decide_eq_true_eq]
  constructor
  · rintro ⟨f, hf, ⟨hlive, rfl⟩, -, hm⟩
    exact ⟨⟨hlive, hf⟩, hm⟩
  · rintro ⟨⟨hlive, hf⟩, hm⟩
    exact ⟨_, hf, ⟨hlive, rfl⟩, rfl, hm⟩

/-- The marks after discovering the vertices of `C`. -/
def ReachesAfter (g : PDG Val Fn) (C : Set ℕ) (g' : PDG Val Fn) : Prop :=
  SameButReaches g g' ∧ ∀ v, g'.Reaches v ↔ g.Reaches v ∨ v ∈ C

variable (functions) in
theorem stable_fullDataReachability :
    (fullDataReachability functions).Stable (ReachesAfter g) g where
  inEdges h u := h.1.inEdges u
  outEdges h u := h.1.outEdges u
  backwards _ _ := rfl
  forwards _ _ := rfl
  wants _ _ := rfl
  expands {C x} h v := by
    simp only [fullDataReachability, (sameButReaches_setReaches _ _).function, h.1.function]
  discover {C x} h v := by
    refine ⟨h.1.trans (sameButReaches_setReaches x v), fun u ↦ ?_⟩
    refine (reaches_setReaches x v).trans ?_
    rw [Set.mem_insert_iff]
    exact (or_congr_left (h.2 u)).trans (by tauto)
  examineVertex h _ := h
  finishVertex h _ := h
  treeEdge h _ := h
  finished h := h

theorem next_fullDataReachability (h : g.Indexed) :
    (fullDataReachability functions).Next g w u ↔ g.Flows u w := by
  simp only [BfsVisitor.Next, BfsVisitor.Offered, fullDataReachability, Set.mem_union,
    Set.mem_ofPred_eq, decide_eq_true_eq, Bool.false_eq_true, false_and, and_false, exists_false,
    or_false, h.mirrored.mem_inEdges_iff_hasEdge]
  constructor
  · rintro ⟨e, ⟨-, he⟩, hp, rfl⟩
    exact ⟨e.property, hp, he⟩
  · rintro ⟨p, hp, he⟩
    exact ⟨⟨u, w, p⟩, ⟨rfl, he⟩, hp, rfl⟩

/-- **One call** ends, and it is a sweep. -/
theorem calculateSinkReachability_spec (h : g.Indexed) (functions : List (Option Fn)) :
    ∃ n g', g.calculateSinkReachability functions = some (n, g') ∧ SameButReaches g g' ∧
      g'.Reaches = sweep g.Flows (g.InFunctions [none]) g.Sink (g.InFunctions functions)
        g.Reaches := by
  have hlive : ∀ v, (fullDataReachability functions).Sees g (g.sinkSources functions) v →
      g.Live v := by
    intro v hv
    cases hv with
    | source hv => exact ((mem_sinkSources h).mp hv).1.1
    | step _ _ hv =>
      obtain ⟨p, -, he⟩ := (next_fullDataReachability h).mp hv
      exact (h.live _ _ _ he).1
  obtain ⟨r, hr, hres⟩ := BfsVisitor.bfs_spec (I := ReachesAfter g)
    (stable_fullDataReachability functions)
    ⟨.refl g, fun v ↦ (or_iff_left (Set.notMem_empty v)).symm⟩ (.ofCapacity g.graph.capacity)
    fun v hv ↦ ColorMap.covers_ofCapacity (hlive v hv).1
  rcases hres with ⟨_, v, _, hw⟩ | ⟨_, hafter, _⟩
  · cases hw
  · refine ⟨_, r.2.graph, by simp only [calculateSinkReachability, hr, Option.map_some]; rfl,
      hafter.1, ?_⟩
    funext v
    refine propext ((hafter.2 v).trans (or_congr_right ?_))
    refine Discovered.congr (fun v ↦ mem_sinkSources h) (fun v hv ↦ ?_)
      fun u v ↦ next_fullDataReachability h
    have hv := hlive v hv
    simp only [BfsVisitor.Expands, fullDataReachability, decide_eq_true_eq, InFunctions,
      (sameButReaches_setReaches g v).function, List.mem_singleton]
    tauto

/-- The set holds the marked vertices of the functions, and it is closed: what flows into a
vertex of it that has no function, or one of these, is in it. -/
def SinkClosure (g : PDG Val Fn) (functions : List (Option Fn)) (R : Set ℕ) : Prop :=
  (∀ v, g.InFunctions functions v → g.Marked v → v ∈ R) ∧
    ∀ u w, w ∈ R → ((g.node w).function = none ∨ (g.node w).function ∈ functions) →
      g.Flows u w → u ∈ R

/-- The second graph differs from the first one in the marks only, and has all marks of the
first one. -/
structure MoreMarks (g g' : PDG Val Fn) : Prop extends SameButMarks g g' where
  sink : ∀ v, g.Sink v → g'.Sink v
  reaches : ∀ v, g.Reaches v → g'.Reaches v

omit [DecidableEq Fn] in
/-- The closed sets are those of the sweep: no flow leads into a vertex that is not live. -/
theorem sinkClosure_iff (h : g.Indexed) {R : Set ℕ} :
    g.SinkClosure functions R ↔
      (∀ v, g.InFunctions functions v ∧ (g.Sink v ∨ g.Reaches v) → v ∈ R) ∧
        ∀ w u, w ∈ R → g.InFunctions [none] w ∨ g.InFunctions functions w → g.Flows u w →
          u ∈ R := by
  have hexpand : ∀ u w, g.Flows u w →
      (((g.node w).function = none ∨ (g.node w).function ∈ functions) ↔
        g.InFunctions [none] w ∨ g.InFunctions functions w) := by
    rintro u w ⟨p, -, he⟩
    have hlive := (h.live u p w he).2
    simp [InFunctions, hlive]
  refine and_congr (forall_congr' fun v ↦ and_imp.symm) ?_
  constructor
  · intro hclosed w u hw he hflow
    exact hclosed u w hw ((hexpand u w hflow).mpr he) hflow
  · intro hclosed u w hw he hflow
    exact hclosed w u hw ((hexpand u w hflow).mp he) hflow

/-- **One call computes a least fixpoint.**  It adds the least closed set to the marks; a second
call with the same functions changes no mark; and more marks before the call are more marks
after it. -/
theorem calculateSinkReachability_isLeast (h : g.Indexed) (functions : List (Option Fn)) :
    ∃ n g', g.calculateSinkReachability functions = some (n, g') ∧
      (∃ R, IsLeast {R | g.SinkClosure functions R} R ∧
        ∀ v, g'.Reaches v ↔ g.Reaches v ∨ v ∈ R) ∧
      (∃ n' g'', g'.calculateSinkReachability functions = some (n', g'') ∧
        ∀ v, (g''.Reaches v ↔ g'.Reaches v) ∧ (g''.Sink v ↔ g'.Sink v)) ∧
      ∀ x, g.MoreMarks x → ∃ m x', x.calculateSinkReachability functions = some (m, x') ∧
        ∀ v, g'.Reaches v → x'.Reaches v := by
  obtain ⟨n, g', hg', hsame, hreach⟩ := calculateSinkReachability_spec h functions
  refine ⟨n, g', hg', ⟨_, ?_, fun v ↦ iff_of_eq (congrFun hreach v)⟩, ?_, fun x hmore ↦ ?_⟩
  · simp only [sinkClosure_iff h]
    exact Discovered.isLeast
  · obtain ⟨n', g'', hg'', hsame', hreach'⟩ :=
      calculateSinkReachability_spec (h.congr hsame.toSameButMarks) functions
    refine ⟨n', g'', hg'', fun v ↦ ⟨?_, ?_⟩⟩
    · rw [hreach', hsame.toSameButMarks.flows_eq, hsame.sink_eq,
        hsame.toSameButMarks.inFunctions_eq, hreach, sweep_sweep]
    · rw [hsame'.sink_eq]
  · obtain ⟨m, x', hx', -, hreach'⟩ :=
      calculateSinkReachability_spec (h.congr hmore.toSameButMarks) functions
    refine ⟨m, x', hx', fun v hv ↦ ?_⟩
    rw [hreach', hmore.flows_eq, hmore.inFunctions_eq]
    rw [hreach] at hv
    exact sweep_mono hmore.sink hmore.reaches hv

/-! ## The pass -/

theorem foldlM_calculateSinkReachability (h : g.Indexed) (hsame : SameButReaches g g')
    (calls : List (List (Option Fn))) :
    ∃ g'', calls.foldlM
        (fun g functions ↦ (g.calculateSinkReachability functions).map Prod.snd) g' = some g'' ∧
      SameButReaches g g'' ∧
      g''.Reaches = sweeps g.Flows (g.InFunctions [none]) g.Sink g'.Reaches
        (calls.map g.InFunctions) := by
  induction calls generalizing g' with
  | nil => exact ⟨g', rfl, hsame, rfl⟩
  | cons functions calls ih =>
    obtain ⟨n, x, hx, hsame', hreach⟩ :=
      calculateSinkReachability_spec (h.congr hsame.toSameButMarks) functions
    obtain ⟨g'', hg'', hsame'', hreach'⟩ := ih (hsame.trans hsame')
    refine ⟨g'', ?_, hsame'', ?_⟩
    · rw [List.foldlM_cons, hx]
      exact hg''
    · rw [hreach', hreach, hsame.toSameButMarks.flows_eq, hsame.sink_eq,
        hsame.toSameButMarks.inFunctions_eq]
      rfl

/-- The groups of vertices of the components. -/
def sccGroups (g : PDG Val Fn) (sccs : List (List Fn)) : List (ℕ → Prop) :=
  sccs.map fun scc ↦ g.InFunctions (scc.map some)

theorem sinkReachabilityPass_spec (h : g.Indexed) (sccs : List (List Fn)) :
    ∃ g', g.sinkReachabilityPass sccs = some g' ∧ SameButReaches g g' ∧
      g'.Reaches = sweeps g.Flows (g.InFunctions [none]) g.Sink g.Reaches
        (g.InFunctions [none] :: g.sccGroups sccs ++ [g.InFunctions [none]]) := by
  obtain ⟨g', hg', hsame, hreach⟩ := foldlM_calculateSinkReachability h (.refl g)
    ([none] :: sccs.map (·.map some) ++ [[none]])
  refine ⟨g', hg', hsame, hreach.trans ?_⟩
  simp [sccGroups, Function.comp_def]

/-- The marks have reached a fixpoint: what flows into a marked vertex is marked. -/
def SinkClosed (g : PDG Val Fn) : Prop := ∀ u w, g.Flows u w → g.Marked w → g.Reaches u

/-- The mark of a marked vertex travels to the vertex along a path of `Data` and `Part`
edges that meets the components, from the marked vertex on, in the order of the list;
vertices without a function may be anywhere on it. -/
def OrderlyPath (g : PDG Val Fn) (sccs : List (List Fn)) (i : ℕ) (v : ℕ) : Prop :=
  Orderly g.Flows (g.InFunctions [none]) g.Sink g.Reaches (g.sccGroups sccs) i v

/-- **When the pass reaches a fixpoint.**  For components that cover the functions of
the graph the pass ends, and it ends in a fixpoint if and only if every vertex with a
path to a marked vertex is at the start of an orderly path. -/
theorem sinkClosed_pass_iff (h : g.Indexed) {sccs : List (List Fn)}
    (hcover : ∀ v f, g.Live v → (g.node v).function = some f → ∃ scc ∈ sccs, f ∈ scc) :
    ∃ g', g.sinkReachabilityPass sccs = some g' ∧
      (g'.SinkClosed ↔ ∀ x y, Relation.ReflTransGen g.Flows x y → g.Marked y →
        ∃ i, g.OrderlyPath sccs i x) := by
  obtain ⟨g', hg', hsame, hreach⟩ := sinkReachabilityPass_spec h sccs
  refine ⟨g', hg', ?_⟩
  have hgroups : ∀ u w, g.Flows u w →
      g.InFunctions [none] u ∨ ∃ group ∈ g.sccGroups sccs, group u := by
    rintro u w ⟨p, -, he⟩
    have hlive := (h.live u p w he).1
    cases hf : (g.node u).function with
    | none => exact Or.inl ⟨hlive, hf ▸ List.mem_singleton_self _⟩
    | some f =>
      obtain ⟨scc, hscc, hmem⟩ := hcover u f hlive hf
      exact Or.inr ⟨_, List.mem_map_of_mem hscc, hlive, hf ▸ List.mem_map_of_mem hmem⟩
  have hmarked : ∀ w, g'.Marked w ↔ g.Sink w ∨ g'.Reaches w := fun w ↦
    or_congr_left (by rw [hsame.ipcsink]; rfl)
  have hiff := sweeps_closed_iff g.Sink g.Reaches hgroups
  rw [← hreach] at hiff
  simp only [SinkClosed, hsame.toSameButMarks.flows_eq, hmarked]
  exact hiff

end PDG

/-! ## Graphs given by their nodes and edges -/

namespace PDG

variable [DecidableEq Fn]

/-- The graph with the given nodes and edges. -/
def ofNodes (nodes : List (PDGNode Val Fn)) (es : List (Edge PDGEdge)) : PDG Val Fn :=
  PDG.addEdges
    { graph := ⟨BitVec.ofNat 64 nodes.length, 0, [], nodes.length,
        fun v ↦ ⟨[], [], nodes.getD v {}, false⟩⟩
      valueToVertex := fun _ ↦ none
      maxParts := 32
      subnodeLimit := 5
      unitedNodes := ∅
      functionToVertices := fun f ↦
        (Finset.range nodes.length).filter fun v ↦ (nodes.getD v {}).function = f } es

theorem indexed_ofNodes {nodes : List (PDGNode Val Fn)} {es : List (Edge PDGEdge)}
    (hes : ∀ e ∈ es, e.source < nodes.length ∧ e.target < nodes.length) :
    (ofNodes nodes es).Indexed := by
  have hlive : ∀ v, (ofNodes nodes es).Live v ↔ v < nodes.length := fun v ↦
    (sameIndex_addEdges _ es).live_iff.trans (and_iff_left rfl)
  have hnil : (ofNodes nodes [] : PDG Val Fn).graph.Mirrored := by
    refine ⟨fun h ↦ ?_, fun h ↦ ?_, fun _ ↦ Iff.rfl, fun _ ↦ .nil, fun _ ↦ .nil⟩
    · cases h
    · cases h
  refine ⟨mirrored_addEdges hnil es, ?_, ?_⟩
  · intro u p w he
    rcases hasEdge_addEdges.mp he with he | he
    · cases he
    · rw [hlive, hlive]
      exact hes _ he
  · rw [ofNodes, (sameIndex_addEdges _ es).functionToVertices]
    intro f v
    change _ ↔ (ofNodes nodes es).Live v ∧ ((ofNodes nodes es).node v).function = f
    rw [hlive, ofNodes, node_addEdges, Finset.mem_filter, Finset.mem_range]
    rfl

end PDG

/-- Data flows from the first vertex to the second to the third, which is a sink. -/
def flowToSink (first second third : Bool) : PDG Empty Bool :=
  .ofNodes [{ function := some first }, { function := some second },
      { function := some third, ipcsink := true }]
    [⟨0, 1, .dataEdge⟩, ⟨1, 2, .dataEdge⟩]

theorem indexed_flowToSink (first second third : Bool) :
    (flowToSink first second third).Indexed :=
  PDG.indexed_ofNodes (by simp)

/-- One call for both functions marks all vertices. -/
theorem flowToSink_isLeast :
    (∃ n g', (flowToSink false false true).calculateSinkReachability [some false, some true] =
        some (n, g') ∧
      ∃ R, IsLeast {R | (flowToSink false false true).SinkClosure [some false, some true] R} R ∧
        ∀ v, g'.Reaches v ↔ (flowToSink false false true).Reaches v ∨ v ∈ R) ∧
    ((flowToSink false false true).calculateSinkReachability [some false, some true]).any
      (fun r ↦ (List.range 3).all fun v ↦ (r.2.node v).reachesIpcSink) = true := by
  refine ⟨?_, by decide +kernel⟩
  obtain ⟨n, g', hg', hleast, -⟩ :=
    PDG.calculateSinkReachability_isLeast (indexed_flowToSink false false true)
      [some false, some true]
  exact ⟨n, g', hg', hleast⟩

/-- The function of the sink comes first: the pass ends in a fixpoint. -/
theorem flowToSink_pass_closed :
    ∃ g', (flowToSink false false true).sinkReachabilityPass [[true], [false]] = some g' ∧
      g'.SinkClosed ∧
      ∀ x y, Relation.ReflTransGen (flowToSink false false true).Flows x y →
        (flowToSink false false true).Marked y →
        ∃ i, (flowToSink false false true).OrderlyPath [[true], [false]] i x := by
  have hindexed := indexed_flowToSink false false true
  have hcover : ∀ (v : ℕ) (f : Bool), (flowToSink false false true).Live v →
      ((flowToSink false false true).node v).function = some f →
        ∃ scc ∈ [[true], [false]], f ∈ scc := fun _ f _ _ ↦ by cases f <;> decide
  obtain ⟨g', hg', hiff⟩ := PDG.sinkClosed_pass_iff hindexed hcover
  obtain ⟨g₁, hg₁, hsame, -⟩ := PDG.sinkReachabilityPass_spec hindexed [[true], [false]]
  obtain rfl : g₁ = g' := Option.some.inj (hg₁.symm.trans hg')
  have hrun : ((flowToSink false false true).sinkReachabilityPass [[true], [false]]).any
      (fun g' ↦ (List.range 2).all fun v ↦ (g'.node v).reachesIpcSink) = true := by decide +kernel
  rw [hg', Option.any_some, List.all_eq_true] at hrun
  have hclosed : g₁.SinkClosed := by
    rintro u w hflow -
    rw [hsame.flows_eq] at hflow
    obtain ⟨p, -, he⟩ := hflow
    rcases PDG.hasEdge_addEdges.mp he with he | he
    · cases he
    · refine hrun u (List.mem_range.mpr ?_)
      simp at he
      omega
  exact ⟨g₁, hg', hclosed, hiff.mp hclosed⟩

/-- The function of the sink comes last: the first vertex is not marked although the
second one is. -/
theorem not_sinkClosed_flowToSink :
    ¬ ∀ (g : PDG Empty Bool) (sccs : List (List Bool)), g.Indexed → sccs.flatten.Nodup →
      (∀ f, f ∈ sccs.flatten) → ∀ g', g.sinkReachabilityPass sccs = some g' → g'.SinkClosed := by
  intro hall
  have hrun : ((flowToSink false false true).sinkReachabilityPass [[false], [true]]).any
      (fun g' ↦ decide (g'.HasEdge 0 .dataEdge 1) && (g'.node 1).reachesIpcSink &&
        !(g'.node 0).reachesIpcSink) = true := by decide +kernel
  cases hpass : (flowToSink false false true).sinkReachabilityPass [[false], [true]] with
  | none =>
    rw [hpass] at hrun
    cases hrun
  | some g' =>
    rw [hpass] at hrun
    simp only [Option.any_some, Bool.and_eq_true, decide_eq_true_eq, Bool.not_eq_true'] at hrun
    have hreach := hall _ _ (indexed_flowToSink ..) (by decide) (by decide) g' hpass 0 1
      ⟨.dataEdge, Or.inl rfl, hrun.1.1⟩ (Or.inr hrun.1.2)
    exact absurd hreach (by simp [PDG.Reaches, hrun.2])

end Cali.Passes
