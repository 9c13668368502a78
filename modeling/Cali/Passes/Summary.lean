import Cali.Graph.Reach
import Cali.Passes.Marking
import Cali.Passes.Reachability

/-!
# Summary edges

`calculateSummaryEdges` adds an edge between two nodes of the signatures of a component of
functions if data flows from one to the other inside of the component.  It searches from each
node in turn, and the searches follow the summary edges that earlier ones have added.

The edges that are added are shortcuts of paths of the graph before the call, so that they
lead nowhere else, and the order of the nodes does not matter.
-/

namespace Cali.Passes

open Cali.Graph Cali.Lib Relation

variable {Val Fn : Type} [DecidableEq Fn]

namespace PDG

/-! ## `calculateSummaryEdges` -/

/-- What `DataSummaryVisitor` and `InvocationSummaryVisitor` have in common; next to the graph
there is the vector of the targets of the new edges, to which the node `v` adds `collect v`. -/
def summaryVisitor (follows : PDGEdgeType → Bool) (collect : PDG Val Fn → ℕ → List ℕ)
    (start : ℕ) (nodes : Finset ℕ) (functions : List Fn) :
    BfsVisitor (PDG Val Fn × List ℕ) PDGEdge where
  inEdges s := s.1.graph.inEdges
  outEdges s := s.1.graph.outEdges
  examineForwardsEdge e _ := follows e.property.type
  examineBackwardsEdge _ _ := false
  discoverVertex v s :=
    if v ≠ start then
      if v ∈ nodes then (true, (s.1, s.2 ++ collect s.1 v))
      else
        match (s.1.node v).function with
        | some f => (decide (f ∈ functions), s)
        | none => (true, s)
    else (true, s)

/-- The edges `DataSummaryVisitor` follows. -/
def followsData (type : PDGEdgeType) : Bool :=
  type = .data || type = .summaryData || type = .part

/-- The edges `InvocationSummaryVisitor` follows. -/
def followsInvocation (type : PDGEdgeType) : Bool := type = .data

/-- The calls that may call the vertex. -/
def invocations (g : PDG Val Fn) (v : ℕ) : List ℕ :=
  ((g.graph.outEdges v).filter fun e ↦ e.property.type = .invocation).map (·.target)

/-- `DataSummaryVisitor` -/
def dataSummaryVisitor (start : ℕ) (nodes : Finset ℕ) (functions : List Fn) :
    BfsVisitor (PDG Val Fn × List ℕ) PDGEdge :=
  summaryVisitor followsData (fun _ v ↦ [v]) start nodes functions

/-- `InvocationSummaryVisitor` -/
def invocationSummaryVisitor (start : ℕ) (nodes : Finset ℕ) (functions : List Fn) :
    BfsVisitor (PDG Val Fn × List ℕ) PDGEdge :=
  summaryVisitor followsInvocation invocations start nodes functions

/-- The edge between two nodes. -/
def summaryData : PDGEdge := ⟨.summaryData, 0⟩

/-- The edge from a node to a call. -/
def summaryInvocation : PDGEdge := ⟨.summaryInvocation, 0⟩

/-- One iteration of the loop of `DataSummaryVisitor::finished`. -/
def addSummaryData (start : ℕ) (derefStart : Option ℕ) (g : PDG Val Fn) (target : ℕ) :
    Option (PDG Val Fn) :=
  let g := g.addEdge start target summaryData
  match derefStart with
  | none => some g
  | some derefStart =>
    if (g.node derefStart).reachesIpcSink then some g
    else
      match g.getDerefOpt target with
      | none => some g
      | some derefTarget =>
        if (g.node derefTarget).reachesIpcSink ∨ (g.node derefTarget).ipcsink then
          g.markAsShared derefStart
        else some g

/-- `DataSummaryVisitor::finished`; it is the last thing that a search does. -/
def dataSummaryFinished (start : ℕ) (g : PDG Val Fn) (newEdges : List ℕ) : Option (PDG Val Fn) :=
  newEdges.foldlM (addSummaryData start (g.getDerefOpt start)) g

/-- `InvocationSummaryVisitor::finished` -/
def invocationSummaryFinished (start : ℕ) (g : PDG Val Fn) (newEdges : List ℕ) : PDG Val Fn :=
  newEdges.foldl (fun g target ↦ g.addEdge start target summaryInvocation) g

/-- What the function looks at besides the graph: the flag of the configuration and whether a
type is that of a pointer or a function. -/
structure SummaryConfig where
  strongFPAnalysis : Bool
  pointerOrFunction : Option Ty → Bool

/-- One iteration of the loop of `calculateSummaryEdges`.  Each search starts with a colour map
that it clears. -/
def summarizeNode (config : SummaryConfig) (colors : ColorMap) (nodes : Finset ℕ)
    (functions : List Fn) (g : PDG Val Fn) (v : ℕ) : Option (PDG Val Fn) := do
  let s ← (dataSummaryVisitor v nodes functions).breadthFirstSearchForward (g, []) [v] colors
  let g ← s.graph.1.dataSummaryFinished v s.graph.2
  if config.strongFPAnalysis && config.pointerOrFunction (g.node v).type then
    let s ←
      (invocationSummaryVisitor v nodes functions).breadthFirstSearchForward (g, []) [v] colors
    some (s.graph.1.invocationSummaryFinished v s.graph.2)
  else some g

/-- The loop of `calculateSummaryEdges` over the nodes in some order. -/
def summarizeNodes (config : SummaryConfig) (colors : ColorMap) (nodes : Finset ℕ)
    (functions : List Fn) (order : List ℕ) (g : PDG Val Fn) : Option (PDG Val Fn) :=
  order.foldlM (summarizeNode config colors nodes functions) g

/-- `calculateSummaryEdges`, for the nodes that have been collected; `none` would mean that
it does not end. -/
def calculateSummaryEdges (config : SummaryConfig) (colors : ColorMap) (nodes : Finset ℕ)
    (functions : List Fn) (g : PDG Val Fn) : Option (PDG Val Fn) :=
  summarizeNodes config colors nodes functions (ascending nodes) g

/-! ## What a search collects -/

/-- A search stays inside of the component: the vertex is a node of a signature, or it belongs
to a function of the component or to none. -/
def Accepted (g : PDG Val Fn) (nodes : Finset ℕ) (functions : List Fn) (v : ℕ) : Prop :=
  v ∈ nodes ∨ (g.node v).function = none ∨ ∃ f ∈ functions, (g.node v).function = some f

/-- There is an edge that is followed, to an accepted vertex. -/
def SummaryStep (follows : PDGEdgeType → Bool) (g : PDG Val Fn) (nodes : Finset ℕ)
    (functions : List Fn) (u w : ℕ) : Prop :=
  (∃ p, follows p.type = true ∧ g.HasEdge u p w) ∧ g.Accepted nodes functions w

variable {g g' g'' : PDG Val Fn} {nodes : Finset ℕ} {functions : List Fn} {start : ℕ}
  {follows : PDGEdgeType → Bool} {collect : PDG Val Fn → ℕ → List ℕ} {u v w : ℕ} {p : PDGEdge}

omit [DecidableEq Fn] in
theorem Linked.graphInside (h : g.Linked) : g.graph.Inside := by
  rintro u w ⟨e, he, rfl⟩
  obtain rfl := h.mirrored.source_eq he
  exact h.inside _ e.property _ he

omit [DecidableEq Fn] in
theorem Indexed.linked (h : g.Indexed) : g.Linked :=
  ⟨h.mirrored, fun u p w he ↦ (h.live u p w he).imp And.left And.left⟩

theorem expands_summaryVisitor (hstart : start ∈ nodes) {new : List ℕ} :
    (summaryVisitor follows collect start nodes functions).Expands (g, new) v ↔
      g.Accepted nodes functions v := by
  unfold BfsVisitor.Expands Accepted summaryVisitor
  by_cases hv : v = start
  · simp [hv, hstart]
  · by_cases hmem : v ∈ nodes
    · simp [hv, hmem]
    · cases hf : (g.node v).function with
      | none => simp [hv, hmem, hf]
      | some f => simp [hv, hmem, hf]

theorem next_summaryVisitor (h : g.Linked) {new : List ℕ} :
    w ∈ BfsVisitor.Offered
        (summaryVisitor follows collect start nodes functions).examineForwardsEdge
        Edge.target (g, new) (g.graph.outEdges u) ↔
      ∃ p, follows p.type = true ∧ g.HasEdge u p w := by
  constructor
  · rintro ⟨e, he, hf, rfl⟩
    obtain rfl := h.mirrored.source_eq he
    exact ⟨e.property, hf, he⟩
  · rintro ⟨p, hf, he⟩
    exact ⟨⟨u, w, p⟩, he, hf, rfl⟩

theorem seesForward_summaryVisitor (h : g.Linked) (hstart : start ∈ nodes)
    (hv : g.Accepted nodes functions v) {new : List ℕ} :
    (summaryVisitor follows collect start nodes functions).SeesForward (g, new) [start] v ↔
      ReflTransGen (SummaryStep follows g nodes functions) start v := by
  refine discovered_iff.trans ?_
  simp only [List.mem_singleton, exists_eq_left]
  have hstep : (fun u w ↦
      (summaryVisitor follows collect start nodes functions).Expands (g, new) u ∧
        w ∈ BfsVisitor.Offered
          (summaryVisitor follows collect start nodes functions).examineForwardsEdge
          Edge.target (g, new) (g.graph.outEdges u)) =
      fun u w ↦ g.Accepted nodes functions u ∧ ∃ p, follows p.type = true ∧ g.HasEdge u p w := by
    funext u w
    rw [expands_summaryVisitor hstart, next_summaryVisitor h]
  exact (iff_of_eq (congrArg (ReflTransGen · start v) hstep)).trans
    (reflTransGen_and_iff (Or.inl hstart) hv)

/-- The graph does not change during the search, and the vector holds what the discovered nodes
have added. -/
def Collected (collect : PDG Val Fn → ℕ → List ℕ) (start : ℕ) (nodes : Finset ℕ) (g : PDG Val Fn)
    (C : Set ℕ) (s : PDG Val Fn × List ℕ) : Prop :=
  s.1 = g ∧ ∀ t, t ∈ s.2 ↔ ∃ x ∈ C, x ∈ nodes ∧ x ≠ start ∧ t ∈ collect g x

theorem discoverVertex_of_not {s : PDG Val Fn × List ℕ} (hv : ¬ (v ≠ start ∧ v ∈ nodes)) :
    ((summaryVisitor follows collect start nodes functions).discoverVertex v s).2 = s := by
  unfold summaryVisitor
  by_cases hs : v = start
  · simp [hs]
  · have hmem : v ∉ nodes := fun hmem ↦ hv ⟨hs, hmem⟩
    cases hf : (s.1.node v).function with
    | none => simp [hs, hmem, hf]
    | some f => simp [hs, hmem, hf]

variable (follows collect functions) in
theorem stable_summaryVisitor :
    (summaryVisitor follows collect start nodes functions).Stable
      (Collected collect start nodes g) (g, []) where
  inEdges h _ := congrArg (fun g : PDG Val Fn ↦ g.graph.inEdges _) h.1
  outEdges h _ := congrArg (fun g : PDG Val Fn ↦ g.graph.outEdges _) h.1
  backwards _ _ := rfl
  forwards _ _ := rfl
  wants _ _ := rfl
  expands {C s} h v := by
    obtain ⟨x, new⟩ := s
    obtain rfl : x = g := h.1
    unfold summaryVisitor
    by_cases hv : v = start
    · simp [hv]
    · by_cases hmem : v ∈ nodes
      · simp [hv, hmem]
      · cases hf : (x.node v).function with
        | none => simp [hv, hmem, hf]
        | some f => simp [hv, hmem, hf]
  discover {C s} h v := by
    obtain ⟨x, new⟩ := s
    obtain rfl : x = g := h.1
    by_cases hv : v ≠ start ∧ v ∈ nodes
    · refine ⟨by simp [summaryVisitor, hv], fun t ↦ ?_⟩
      simp only [summaryVisitor, hv.1, hv.2, ne_eq, not_false_eq_true, if_true, List.mem_append,
        h.2 t, Set.mem_insert_iff]
      constructor
      · rintro (⟨y, hy, hrest⟩ | ht)
        · exact ⟨y, Or.inr hy, hrest⟩
        · exact ⟨v, Or.inl rfl, hv.2, hv.1, ht⟩
      · rintro ⟨y, rfl | hy, hrest⟩
        · exact Or.inr hrest.2.2
        · exact Or.inl ⟨y, hy, hrest⟩
    · rw [discoverVertex_of_not hv]
      refine ⟨rfl, fun t ↦ (h.2 t).trans ⟨?_, ?_⟩⟩
      · rintro ⟨y, hy, hrest⟩
        exact ⟨y, Or.inr hy, hrest⟩
      · rintro ⟨y, rfl | hy, hrest⟩
        · exact absurd ⟨hrest.2.1, hrest.1⟩ hv
        · exact ⟨y, hy, hrest⟩
  examineVertex h _ := h
  finishVertex h _ := h
  treeEdge h _ := h
  finished h := h

variable (functions follows collect) in
/-- **One search** ends without changing the graph, and collects what belongs to the other nodes
that a path leads to. -/
theorem summarySearch_spec (h : g.Linked) {colors : ColorMap}
    (hcov : ∀ v < g.graph.capacity, colors.Covers v) (hstart : start ∈ nodes)
    (hlt : start < g.graph.capacity) :
    ∃ s, (summaryVisitor follows collect start nodes functions).breadthFirstSearchForward
        (g, []) [start] colors = some s ∧ s.graph.1 = g ∧
      ∀ t, t ∈ s.graph.2 ↔ ∃ x ∈ nodes, x ≠ start ∧
        ReflTransGen (SummaryStep follows g nodes functions) start x ∧ t ∈ collect g x := by
  have hinside : ∀ v, (summaryVisitor follows collect start nodes functions).SeesForward
      (g, []) [start] v → v < g.graph.capacity := by
    intro v hv
    cases hv with
    | source hv =>
      rw [List.mem_singleton.mp hv]
      exact hlt
    | step _ _ hv =>
      obtain ⟨p, -, he⟩ := (next_summaryVisitor h).mp hv
      exact (h.inside _ p _ he).2
  obtain ⟨s, hs, -, hgraph, hnew⟩ := BfsVisitor.bfsForward_spec
    (stable_summaryVisitor functions follows collect)
    ⟨rfl, fun t ↦ ⟨fun ht ↦ absurd ht List.not_mem_nil, fun ⟨x, hx, _⟩ ↦ hx.elim⟩⟩
    (List.cons_ne_nil start []) colors fun v hv ↦ hcov v (hinside v hv)
  refine ⟨s, hs, hgraph, fun t ↦ (hnew t).trans ?_⟩
  constructor
  · rintro ⟨x, hx, hmem, hne, ht⟩
    exact ⟨x, hmem, hne, (seesForward_summaryVisitor h hstart (Or.inl hmem)).mp hx, ht⟩
  · rintro ⟨x, hmem, hne, hx, ht⟩
    exact ⟨x, (seesForward_summaryVisitor h hstart (Or.inl hmem)).mpr hx, hmem, hne, ht⟩

/-! ## What is added -/

/-- The second graph is the first one with the edges of `E` and possibly more marks. -/
structure Summarized (g : PDG Val Fn) (E : ℕ → PDGEdge → ℕ → Prop) (g' : PDG Val Fn) : Prop where
  capacity : g'.graph.capacity = g.graph.capacity
  function : ∀ v, (g'.node v).function = (g.node v).function
  type : ∀ v, (g'.node v).type = (g.node v).type
  hasEdge : ∀ u p w, g'.HasEdge u p w ↔ g.HasEdge u p w ∨ E u p w
  mirrored : g'.graph.Mirrored

variable {E E' : ℕ → PDGEdge → ℕ → Prop}

omit [DecidableEq Fn] in
theorem Summarized.refl (hm : g.graph.Mirrored) : Summarized g (fun _ _ _ ↦ False) g :=
  ⟨rfl, fun _ ↦ rfl, fun _ ↦ rfl, fun _ _ _ ↦ (or_false _).symm.to_iff, hm⟩

omit [DecidableEq Fn] in
theorem Summarized.trans (h : Summarized g E g') (h' : Summarized g' E' g'') :
    Summarized g (fun u p w ↦ E u p w ∨ E' u p w) g'' where
  capacity := h'.capacity.trans h.capacity
  function v := (h'.function v).trans (h.function v)
  type v := (h'.type v).trans (h.type v)
  hasEdge u p w := by rw [h'.hasEdge, h.hasEdge, or_assoc]
  mirrored := h'.mirrored

omit [DecidableEq Fn] in
theorem Summarized.congr (h : Summarized g E g') (hE : ∀ u p w, E u p w ↔ E' u p w) :
    Summarized g E' g' :=
  ⟨h.capacity, h.function, h.type, fun u p w ↦ (h.hasEdge u p w).trans (or_congr_right (hE u p w)),
    h.mirrored⟩

omit [DecidableEq Fn] in
theorem Summarized.linked (h : Summarized g E g') (hg : g.Linked)
    (hE : ∀ u p w, E u p w → u < g.graph.capacity ∧ w < g.graph.capacity) : g'.Linked where
  mirrored := h.mirrored
  inside u p w he := by
    rw [h.capacity]
    exact ((h.hasEdge u p w).mp he).elim (hg.inside u p w) (hE u p w)

omit [DecidableEq Fn] in
theorem summarized_addEdge (hm : g.graph.Mirrored) (start target : ℕ) (p : PDGEdge) :
    Summarized g (fun u q w ↦ u = start ∧ q = p ∧ w = target) (g.addEdge start target p) where
  capacity := (BaseGraph.sameNodes_addEdge ..).capacity
  function v := by rw [node_addEdge]
  type v := by rw [node_addEdge]
  hasEdge _ _ _ := hasEdge_addEdge
  mirrored := hm.addEdge ..

omit [DecidableEq Fn] in
theorem SinksAdded.summarized (h : SinksAdded g g') (hm : g.graph.Mirrored) :
    Summarized g (fun _ _ _ ↦ False) g' where
  capacity := h.capacity
  function := h.function
  type := h.type
  hasEdge _ _ _ := h.hasEdge_iff.trans (or_false _).symm.to_iff
  mirrored := hm.congr h.outEdges h.inEdges

omit [DecidableEq Fn] in
theorem getDerefOpt_lt (h : g.Linked) {d : ℕ} (hd : g.getDerefOpt v = some d) :
    d < g.graph.capacity := by
  obtain ⟨e, he, rfl⟩ := Option.map_eq_some_iff.mp hd
  exact (h.graphInside v e.target ⟨e, List.mem_of_find?_eq_some he, rfl⟩).2

/-- One iteration of `DataSummaryVisitor::finished` adds its edge. -/
theorem addSummaryData_spec (h : g.Linked) (hs : start < g.graph.capacity) {target : ℕ}
    (ht : target < g.graph.capacity) {derefStart : Option ℕ}
    (hd : ∀ d, derefStart = some d → d < g.graph.capacity) :
    ∃ g', addSummaryData start derefStart g target = some g' ∧
      Summarized g (fun u q w ↦ u = start ∧ q = summaryData ∧ w = target) g' := by
  have hadd := summarized_addEdge h.mirrored start target summaryData
  have hlinked : (g.addEdge start target summaryData).Linked :=
    hadd.linked h fun u p w ⟨hu, _, hw⟩ ↦ ⟨hu ▸ hs, hw ▸ ht⟩
  unfold addSummaryData
  simp only
  cases derefStart with
  | none => exact ⟨_, rfl, hadd⟩
  | some d =>
    simp only
    split
    · exact ⟨_, rfl, hadd⟩
    · split
      · exact ⟨_, rfl, hadd⟩
      · split
        · have hlt : d < (g.addEdge start target summaryData).graph.capacity :=
            hadd.capacity.symm ▸ hd d rfl
          obtain ⟨g', hg', hsinks⟩ := markAsShared_spec hlinked.graphInside hlt
          refine ⟨g', hg', (hadd.trans (hsinks.summarized hlinked.mirrored)).congr fun u p w ↦ ?_⟩
          exact or_iff_left id
        · exact ⟨_, rfl, hadd⟩

/-- **`DataSummaryVisitor::finished`** adds the edges it has collected. -/
theorem foldlM_addSummaryData (h : g.Linked) (hs : start < g.graph.capacity) {new : List ℕ}
    (hnew : ∀ t ∈ new, t < g.graph.capacity) {derefStart : Option ℕ}
    (hd : ∀ d, derefStart = some d → d < g.graph.capacity) :
    ∃ g', new.foldlM (addSummaryData start derefStart) g = some g' ∧
      Summarized g (fun u q w ↦ u = start ∧ q = summaryData ∧ w ∈ new) g' := by
  induction new generalizing g with
  | nil =>
    refine ⟨g, rfl, (Summarized.refl h.mirrored).congr fun u p w ↦ ?_⟩
    simp
  | cons t new ih =>
    have ht := hnew t List.mem_cons_self
    obtain ⟨x, hx, hstep⟩ := addSummaryData_spec h hs ht hd
    have hlinked : x.Linked := hstep.linked h fun u p w ⟨hu, _, hw⟩ ↦ ⟨hu ▸ hs, hw ▸ ht⟩
    rw [← hstep.capacity] at hs hd
    obtain ⟨g', hg', hrest⟩ := ih hlinked hs
      (fun t ht ↦ hstep.capacity.symm ▸ hnew t (List.mem_cons_of_mem _ ht)) hd
    refine ⟨g', by rw [List.foldlM_cons, hx]; exact hg', (hstep.trans hrest).congr fun u p w ↦ ?_⟩
    rw [List.mem_cons]
    tauto

omit [DecidableEq Fn] in
/-- **`InvocationSummaryVisitor::finished`** adds the edges it has collected. -/
theorem invocationSummaryFinished_spec (hm : g.graph.Mirrored) (start : ℕ) (new : List ℕ) :
    Summarized g (fun u q w ↦ u = start ∧ q = summaryInvocation ∧ w ∈ new)
      (g.invocationSummaryFinished start new) := by
  induction new generalizing g with
  | nil =>
    refine (Summarized.refl hm).congr fun u p w ↦ ?_
    simp
  | cons t new ih =>
    have hadd := summarized_addEdge hm start t summaryInvocation
    refine (hadd.trans (ih hadd.mirrored)).congr fun u p w ↦ ?_
    rw [List.mem_cons]
    tauto

/-! ## The loop over the nodes -/

/-- The edge is one that the data part adds. -/
def DataSummary (g : PDG Val Fn) (nodes : Finset ℕ) (functions : List Fn) (u : ℕ) (p : PDGEdge)
    (w : ℕ) : Prop :=
  p = summaryData ∧ w ∈ nodes ∧ w ≠ u ∧ ReflTransGen (SummaryStep followsData g nodes functions) u w

/-- The call may call what comes from the vertex. -/
def InvocationTarget (g : PDG Val Fn) (nodes : Finset ℕ) (functions : List Fn) (u w : ℕ) : Prop :=
  ∃ x ∈ nodes, x ≠ u ∧ ReflTransGen (SummaryStep followsInvocation g nodes functions) u x ∧
    ∃ i, g.HasEdge x ⟨.invocation, i⟩ w

/-- The edge is one that the part for function pointers adds. -/
def InvocationSummary (config : SummaryConfig) (g : PDG Val Fn) (nodes : Finset ℕ)
    (functions : List Fn) (u : ℕ) (p : PDGEdge) (w : ℕ) : Prop :=
  p = summaryInvocation ∧ config.strongFPAnalysis = true ∧
    config.pointerOrFunction (g.node u).type = true ∧ g.InvocationTarget nodes functions u w

/-- The edges that the iterations for the vertices of `D` add. -/
def SummaryOf (config : SummaryConfig) (g : PDG Val Fn) (nodes : Finset ℕ) (functions : List Fn)
    (D : ℕ → Prop) (u : ℕ) (p : PDGEdge) (w : ℕ) : Prop :=
  D u ∧ (g.DataSummary nodes functions u p w ∨ g.InvocationSummary config nodes functions u p w)

omit [DecidableEq Fn] in
/-- **Shortcuts lead nowhere else.**  Edges that join the ends of paths do not change what can
be reached. -/
theorem Summarized.path_iff (h : Summarized g E g')
    (hE : ∀ u p w, E u p w → follows p.type = true →
      ReflTransGen (SummaryStep follows g nodes functions) u w) :
    ReflTransGen (SummaryStep follows g' nodes functions) u w ↔
      ReflTransGen (SummaryStep follows g nodes functions) u w := by
  have haccepted : ∀ v, g'.Accepted nodes functions v ↔ g.Accepted nodes functions v := by
    intro v
    unfold Accepted
    rw [h.function]
  have hold : SummaryStep follows g nodes functions ≤ SummaryStep follows g' nodes functions := by
    rintro u w ⟨⟨p, hp, he⟩, hw⟩
    exact ⟨⟨p, hp, (h.hasEdge u p w).mpr (Or.inl he)⟩, (haccepted w).mpr hw⟩
  have hnew : SummaryStep follows g' nodes functions ≤
      ReflTransGen (SummaryStep follows g nodes functions) := by
    rintro u w ⟨⟨p, hp, he⟩, hw⟩
    rcases (h.hasEdge u p w).mp he with he | he
    · exact .single ⟨⟨p, hp, he⟩, (haccepted w).mp hw⟩
    · exact hE u p w he hp
  exact ⟨reflTransGen_closed hnew u w, ReflTransGen.mono hold u w⟩

omit [DecidableEq Fn] in
theorem mem_invocations (hm : g.graph.Mirrored) {t : ℕ} :
    t ∈ g.invocations v ↔ ∃ i, g.HasEdge v ⟨.invocation, i⟩ t := by
  simp only [invocations, List.mem_map, List.mem_filter, decide_eq_true_eq]
  constructor
  · rintro ⟨e, ⟨he, htype⟩, rfl⟩
    obtain rfl := hm.source_eq he
    refine ⟨e.property.index, ?_⟩
    rw [← htype]
    exact he
  · rintro ⟨i, he⟩
    exact ⟨_, ⟨he, rfl⟩, rfl⟩

/-- The edges of `E` are summary edges, and those for data are shortcuts. -/
def Shortcuts (g : PDG Val Fn) (nodes : Finset ℕ) (functions : List Fn)
    (E : ℕ → PDGEdge → ℕ → Prop) : Prop :=
  ∀ u p w, E u p w → g.DataSummary nodes functions u p w ∨ p = summaryInvocation

omit [DecidableEq Fn] in
theorem Summarized.dataSummary_iff (h : Summarized g E g') (hE : g.Shortcuts nodes functions E) :
    g'.DataSummary nodes functions u p w ↔ g.DataSummary nodes functions u p w := by
  unfold DataSummary
  rw [h.path_iff]
  intro u p w he hp
  rcases hE u p w he with hdata | rfl
  · exact hdata.2.2.2
  · cases hp

omit [DecidableEq Fn] in
theorem Summarized.invocationTarget_iff (h : Summarized g E g')
    (hE : g.Shortcuts nodes functions E) :
    g'.InvocationTarget nodes functions u w ↔ g.InvocationTarget nodes functions u w := by
  have hpath : ∀ x, ReflTransGen (SummaryStep followsInvocation g' nodes functions) u x ↔
      ReflTransGen (SummaryStep followsInvocation g nodes functions) u x := by
    intro x
    refine h.path_iff fun u p w he hp ↦ ?_
    rcases hE u p w he with ⟨rfl, -⟩ | rfl
    · cases hp
    · cases hp
  have hedge : ∀ x i, g'.HasEdge x ⟨.invocation, i⟩ w ↔ g.HasEdge x ⟨.invocation, i⟩ w := by
    intro x i
    refine (h.hasEdge ..).trans (or_iff_left fun he ↦ ?_)
    rcases hE _ _ _ he with ⟨hp, -⟩ | hp
    · cases hp
    · cases hp
  unfold InvocationTarget
  simp only [hpath, hedge]

section Loop

variable {config : SummaryConfig} {colors : ColorMap} {D : ℕ → Prop}

omit [DecidableEq Fn] in
theorem shortcuts_summaryOf :
    g.Shortcuts nodes functions (g.SummaryOf config nodes functions D) := by
  rintro u p w ⟨-, hdata | hinv⟩
  · exact Or.inl hdata
  · exact Or.inr hinv.1

omit [DecidableEq Fn] in
theorem SummaryOf.inside (hg : g.Linked) (hnodes : ∀ v ∈ nodes, v < g.graph.capacity)
    (hD : ∀ v, D v → v ∈ nodes) (h : g.SummaryOf config nodes functions D u p w) :
    u < g.graph.capacity ∧ w < g.graph.capacity := by
  refine ⟨hnodes u (hD u h.1), ?_⟩
  rcases h.2 with ⟨-, hw, -⟩ | ⟨-, -, -, x, -, -, -, i, he⟩
  · exact hnodes w hw
  · exact (hg.inside x _ w he).2

omit [DecidableEq Fn] in
theorem summaryOf_or {p : PDGEdge} :
    g.SummaryOf config nodes functions (fun u ↦ D u ∨ u = v) u p w ↔
      g.SummaryOf config nodes functions D u p w ∨ u = v ∧
        (g.DataSummary nodes functions u p w ∨ g.InvocationSummary config nodes functions u p w) :=
  or_and_right

omit [DecidableEq Fn] in
theorem Linked.summarized (hg : g.Linked) :
    Summarized g (g.SummaryOf config nodes functions fun _ ↦ False) g :=
  (Summarized.refl hg.mirrored).congr fun _ _ _ ↦ ⟨False.elim, fun he ↦ he.1⟩

omit [DecidableEq Fn] in
theorem Summarized.hasEdge_data {p : PDGEdge}
    (h : Summarized g (g.SummaryOf config nodes functions (· ∈ nodes)) g')
    (hp : p.type ≠ .summaryInvocation ∨ config.strongFPAnalysis = false) :
    g'.HasEdge u p w ↔ g.HasEdge u p w ∨ u ∈ nodes ∧ g.DataSummary nodes functions u p w := by
  refine (h.hasEdge u p w).trans (or_congr_right (and_congr_right fun _ ↦ or_iff_left ?_))
  rintro ⟨rfl, hstrong, -⟩
  rcases hp with hp | hp
  · exact hp rfl
  · rw [hstrong] at hp
    cases hp

section

variable (hg : g.Linked) (hcov : ∀ v < g.graph.capacity, colors.Covers v)
  (hnodes : ∀ v ∈ nodes, v < g.graph.capacity)

include hg hcov hnodes

variable (functions) in
theorem dataPart_spec (hv : v ∈ nodes) :
    ∃ s g', (dataSummaryVisitor v nodes functions).breadthFirstSearchForward (g, []) [v] colors =
        some s ∧ s.graph.1.dataSummaryFinished v s.graph.2 = some g' ∧
      Summarized g (fun u p w ↦ u = v ∧ g.DataSummary nodes functions u p w) g' := by
  obtain ⟨s, hs, hgraph, hnew⟩ := summarySearch_spec functions followsData (fun _ v ↦ [v]) hg
    hcov hv (hnodes v hv)
  have hnodes' : ∀ t ∈ s.graph.2, t < g.graph.capacity := by
    intro t ht
    obtain ⟨x, hx, -, -, ht⟩ := (hnew t).mp ht
    rw [List.mem_singleton.mp ht]
    exact hnodes x hx
  obtain ⟨g', hg', hsum⟩ :=
    foldlM_addSummaryData hg (hnodes v hv) hnodes' fun d hd ↦ getDerefOpt_lt hg hd
  refine ⟨s, g', hs, ?_, hsum.congr fun u p w ↦ ?_⟩
  · rw [hgraph]
    exact hg'
  · simp only [hnew, List.mem_singleton]
    constructor
    · rintro ⟨rfl, rfl, x, hx, hne, hpath, rfl⟩
      exact ⟨rfl, rfl, hx, hne, hpath⟩
    · rintro ⟨rfl, rfl, hw, hne, hpath⟩
      exact ⟨rfl, rfl, w, hw, hne, hpath, rfl⟩

variable (functions) in
theorem invocationPart_spec (hv : v ∈ nodes) :
    ∃ s, (invocationSummaryVisitor v nodes functions).breadthFirstSearchForward (g, []) [v]
        colors = some s ∧
      Summarized g (fun u p w ↦ u = v ∧ p = summaryInvocation ∧
        g.InvocationTarget nodes functions u w)
        (s.graph.1.invocationSummaryFinished v s.graph.2) := by
  obtain ⟨s, hs, hgraph, hnew⟩ := summarySearch_spec functions followsInvocation invocations
    hg hcov hv (hnodes v hv)
  refine ⟨s, hs, ?_⟩
  rw [hgraph]
  refine (invocationSummaryFinished_spec hg.mirrored v s.graph.2).congr fun u p w ↦ ?_
  rw [hnew]
  simp only [mem_invocations hg.mirrored]
  constructor
  · rintro ⟨rfl, rfl, htarget⟩
    exact ⟨rfl, rfl, htarget⟩
  · rintro ⟨rfl, rfl, htarget⟩
    exact ⟨rfl, rfl, htarget⟩

/-- **One iteration** adds the edges of its node, as the graph before the loop gives them. -/
theorem summarizeNode_spec (hD : ∀ v, D v → v ∈ nodes) (hv : v ∈ nodes)
    (h : Summarized g (g.SummaryOf config nodes functions D) g') :
    ∃ g'', summarizeNode config colors nodes functions g' v = some g'' ∧
      Summarized g (g.SummaryOf config nodes functions fun u ↦ D u ∨ u = v) g'' := by
  have hlinked : g'.Linked := h.linked hg fun u p w he ↦ he.inside hg hnodes hD
  have hcov' := hcov
  have hnodes' := hnodes
  rw [← h.capacity] at hcov hnodes
  obtain ⟨s, x, hs, hx, hdata⟩ := dataPart_spec functions hlinked hcov hnodes hv
  have hall := h.trans hdata
  have hshort : g.Shortcuts nodes functions fun u p w ↦
      g.SummaryOf config nodes functions D u p w ∨
        u = v ∧ g'.DataSummary nodes functions u p w := by
    rintro u p w (he | ⟨-, he⟩)
    · exact shortcuts_summaryOf u p w he
    · exact Or.inl ((h.dataSummary_iff shortcuts_summaryOf).mp he)
  unfold summarizeNode
  simp only [hs, hx, Option.bind_eq_bind, Option.bind_some]
  split
  · next hcond =>
      rw [Bool.and_eq_true, hall.type] at hcond
      have hlinked' : x.Linked := hdata.linked hlinked fun u p w ⟨hu, he⟩ ↦
        ⟨hu ▸ hnodes v hv, hnodes w he.2.1⟩
      rw [← hall.capacity] at hcov' hnodes'
      obtain ⟨s', hs', hinv⟩ := invocationPart_spec functions hlinked' hcov' hnodes' hv
      refine ⟨_, by rw [hs']; rfl, (hall.trans hinv).congr fun u p w ↦ ?_⟩
      rw [h.dataSummary_iff shortcuts_summaryOf, hall.invocationTarget_iff hshort, summaryOf_or,
        or_assoc, ← and_or_left]
      refine or_congr_right (and_congr_right fun hu ↦ or_congr_right ?_)
      rw [hu, InvocationSummary, and_iff_right hcond.1, and_iff_right hcond.2]
  · next hcond =>
      rw [Bool.and_eq_true, hall.type] at hcond
      refine ⟨x, rfl, hall.congr fun u p w ↦ ?_⟩
      rw [h.dataSummary_iff shortcuts_summaryOf, summaryOf_or]
      refine or_congr_right (and_congr_right fun hu ↦ (or_iff_left ?_).symm)
      rintro ⟨-, hstrong, htype, -⟩
      exact hcond ⟨hstrong, hu ▸ htype⟩

/-- **The loop** adds the edges of its nodes. -/
theorem summarizeNodes_spec (hD : ∀ v, D v → v ∈ nodes) {order : List ℕ}
    (horder : ∀ v ∈ order, v ∈ nodes)
    (h : Summarized g (g.SummaryOf config nodes functions D) g') :
    ∃ g'', summarizeNodes config colors nodes functions order g' = some g'' ∧
      Summarized g (g.SummaryOf config nodes functions fun u ↦ D u ∨ u ∈ order) g'' := by
  induction order generalizing g' D with
  | nil =>
    refine ⟨g', rfl, h.congr fun u p w ↦ ?_⟩
    simp
  | cons v order ih =>
    have hv := horder v List.mem_cons_self
    obtain ⟨x, hx, hstep⟩ := summarizeNode_spec hg hcov hnodes hD hv h
    obtain ⟨g'', hg'', hrest⟩ := ih
      (fun u hu ↦ hu.elim (hD u) fun hu ↦ hu ▸ hv)
      (fun u hu ↦ horder u (List.mem_cons_of_mem _ hu)) hstep
    refine ⟨g'', ?_, hrest.congr fun u p w ↦ ?_⟩
    · rw [summarizeNodes, List.foldlM_cons, hx]
      exact hg''
    · simp only [SummaryOf, List.mem_cons, or_assoc]

theorem exists_summarizeNodes {order : List ℕ} (horder : ∀ v, v ∈ order ↔ v ∈ nodes) :
    ∃ g', summarizeNodes config colors nodes functions order g = some g' ∧
      Summarized g (g.SummaryOf config nodes functions (· ∈ nodes)) g' := by
  obtain ⟨g', hg', h⟩ := summarizeNodes_spec hg hcov hnodes (fun _ ↦ False.elim)
    (fun v hv ↦ (horder v).mp hv) hg.summarized
  refine ⟨g', hg', h.congr fun u p w ↦ ?_⟩
  simp only [SummaryOf, false_or, horder]

end

/-- **The data part of `calculateSummaryEdges` computes data flow inside of the component.**
Two nodes are joined if they were joined before or a path of the graph before the call leads
from one to the other; the data part adds no other edges; and any other order of the nodes
gives the same edges. -/
theorem calculateSummaryEdges_iff (hg : g.Linked)
    (hcov : ∀ v < g.graph.capacity, colors.Covers v)
    (hnodes : ∀ v ∈ nodes, v < g.graph.capacity) (config : SummaryConfig) (functions : List Fn) :
    ∃ g', calculateSummaryEdges config colors nodes functions g = some g' ∧
      (∀ a ∈ nodes, ∀ b ∈ nodes, a ≠ b →
        ((∃ i, g'.HasEdge a ⟨.summaryData, i⟩ b) ↔ (∃ i, g.HasEdge a ⟨.summaryData, i⟩ b) ∨
          ReflTransGen (SummaryStep followsData g nodes functions) a b)) ∧
      (∀ u p w, p.type ≠ .summaryInvocation ∨ config.strongFPAnalysis = false →
        (g'.HasEdge u p w ↔
          g.HasEdge u p w ∨ u ∈ nodes ∧ g.DataSummary nodes functions u p w)) ∧
      ∀ order : List ℕ, (∀ v, v ∈ order ↔ v ∈ nodes) →
        ∃ g'', summarizeNodes config colors nodes functions order g = some g'' ∧
          ∀ u p w, g''.HasEdge u p w ↔ g'.HasEdge u p w := by
  obtain ⟨g', hg', h⟩ := exists_summarizeNodes hg hcov hnodes fun v ↦ mem_ascending
  refine ⟨g', hg', fun a ha b hb hab ↦ ?_, fun u p w hp ↦ h.hasEdge_data hp,
    fun order horder ↦ ?_⟩
  · have hedge : ∀ i, g'.HasEdge a ⟨.summaryData, i⟩ b ↔ _ := fun i ↦
      h.hasEdge_data (Or.inl fun h ↦ by cases h)
    simp only [hedge]
    constructor
    · rintro ⟨i, he | ⟨-, he⟩⟩
      · exact Or.inl ⟨i, he⟩
      · exact Or.inr he.2.2.2
    · rintro (⟨i, he⟩ | hpath)
      · exact ⟨i, Or.inl he⟩
      · exact ⟨0, Or.inr ⟨ha, rfl, hb, hab.symm, hpath⟩⟩
  · obtain ⟨g'', hg'', h'⟩ := exists_summarizeNodes hg hcov hnodes horder
    exact ⟨g'', hg'', fun u p w ↦ (h'.hasEdge u p w).trans (h.hasEdge u p w).symm⟩

end Loop

end PDG

/-- Data flows from the first vertex through the function to the last one, which belongs to
another function. -/
theorem flowToSink_summaryEdges :
    (∃ g', PDG.calculateSummaryEdges ⟨true, fun _ ↦ true⟩ (.ofCapacity 3) {0, 2} [false]
        (flowToSink false false true) = some g' ∧
      ∀ a ∈ ({0, 2} : Finset ℕ), ∀ b ∈ ({0, 2} : Finset ℕ), a ≠ b →
        ((∃ i, g'.HasEdge a ⟨.summaryData, i⟩ b) ↔
          (∃ i, (flowToSink false false true).HasEdge a ⟨.summaryData, i⟩ b) ∨
          ReflTransGen (PDG.SummaryStep PDG.followsData (flowToSink false false true) {0, 2}
            [false]) a b)) ∧
    (PDG.calculateSummaryEdges ⟨true, fun _ ↦ true⟩ (.ofCapacity 3) {0, 2} [false]
      (flowToSink false false true)).any
        (fun g ↦ decide (g.HasEdge 0 ⟨.summaryData, 0⟩ 2 ∧ ¬ g.HasEdge 2 ⟨.summaryData, 0⟩ 0)) =
      true := by
  refine ⟨?_, by decide +kernel⟩
  have hcov : ∀ v < (flowToSink false false true).graph.capacity,
      (ColorMap.ofCapacity 3).Covers v := fun v hv ↦ ColorMap.covers_ofCapacity hv
  have hnodes : ∀ v ∈ ({0, 2} : Finset ℕ), v < (flowToSink false false true).graph.capacity := by
    decide
  obtain ⟨g', hg', hedges, -⟩ := PDG.calculateSummaryEdges_iff
    (indexed_flowToSink false false true).linked hcov hnodes ⟨true, fun _ ↦ true⟩ [false]
  exact ⟨g', hg', hedges⟩

end Cali.Passes
