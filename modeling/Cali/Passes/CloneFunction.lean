import Cali.Graph.Bfs
import Cali.Lib.Record
import Cali.Passes.CloneEdges
import Cali.Passes.Index

/-!
# Cloning the vertices of a function

`cloneGraphForSCCFunction` starts a search at the vertex of a function and at the vertices of
the values that LLVM has cloned, and adds a clone for each vertex that the search examines.

A vertex that is given twice as a source is examined twice, and so cloned twice; `vertex_map`
keeps the second clone only.  The function is one of the cloned values, so that its vertex is
given twice.
-/

namespace Cali.Passes

open Cali.Graph Cali.Lib

variable {Val Fn : Type} [DecidableEq Val] [DecidableEq Fn]

/-- `value_map`, the entries in the order of a loop over it.  A value may have become null. -/
abbrev ValueMap (Val : Type) := List (Val × Option Val)

/-- The result of `value_map.find`, if there is one and it is not null. -/
def ValueMap.find (valueMap : ValueMap Val) (instruction : Option Val) : Option Val :=
  instruction.bind fun value ↦ (valueMap.lookup value).join

section Clone

variable (llvm : Llvm Val Fn) (oldFunction newFunction : Fn) (oldValue : Val)
  (valueMap : ValueMap Val)

/-- The node of the clone of a vertex. -/
def cloneNode (info : PDGNode Val Fn) : PDGNode Val Fn :=
  let n : PDGNode Val Fn :=
    match valueMap.find info.instruction with
    | some value => { info with instruction := some value }
    | none => info
  match n.instruction.bind llvm.asFunction with
  | some function => { n with function := some function }
  | none => if info.function = some oldFunction then { n with function := some newFunction } else n

/-- `ClonedFunctionGen::examine_vertex` -/
def cloneVertex (v : ℕ) (s : PDG Val Fn × VertexMap) : PDG Val Fn × VertexMap :=
  let info := s.1.node v
  let r := s.1.pdgAddVertex (cloneNode llvm oldFunction newFunction valueMap info)
  (match valueMap.find info.instruction with
    | some value =>
      { r.2 with valueToVertex := Function.update r.2.valueToVertex value (some r.1) }
    | none => r.2,
    Function.update s.2 v (some r.1))

/-- `ClonedFunctionGen`; `oldValue` is the function as a value. -/
def clonedFunctionGen : BfsVisitor (PDG Val Fn × VertexMap) PDGEdge where
  inEdges s := s.1.graph.inEdges
  outEdges s := s.1.graph.outEdges
  discoverVertex v s :=
    (decide ((s.1.node v).instruction = some oldValue ∨
      (s.1.node v).function = some oldFunction), s)
  examineVertex := cloneVertex llvm oldFunction newFunction valueMap

/-- The sources of the search, on the graph in which the function has a vertex `v`. -/
def cloneSources (g : PDG Val Fn) (v : ℕ) : List ℕ :=
  v :: (valueMap.map Prod.fst).filterMap g.valueToVertex

/-- `cloneGraphForSCCFunction`; `none` would mean that the search does not end. -/
def cloneGraphForSCCFunction (g : PDG Val Fn) (vertexMap : VertexMap) :
    Option (PDG Val Fn × VertexMap) :=
  let r := g.getVertex llvm oldValue none
  let g := r.2
  ((clonedFunctionGen llvm oldFunction newFunction oldValue valueMap).breadthFirstSearchTwoway
    (g, vertexMap) (cloneSources valueMap g r.1) (.ofCapacity g.graph.capacity)).map
      fun r ↦ r.2.graph

end Clone

/-! ## One clone -/

/-- The clones of `made` have been added to the graph `g`, for the vertices of `log`. -/
structure Cloning (g : PDG Val Fn) (vertexMap : VertexMap) (log : List ℕ) (made : List (ℕ × ℕ))
    (s : PDG Val Fn × VertexMap) : Prop where
  log_eq : made.map Prod.fst = log
  nodup : (made.map Prod.snd).Nodup
  fresh : ∀ c ∈ made.map Prod.snd, ¬ g.Live c
  live_iff : ∀ v, s.1.Live v ↔ g.Live v ∨ v ∈ made.map Prod.snd
  slots : s.1.graph.SlotsOk
  node : ∀ v, g.Live v → s.1.node v = g.node v
  outEdges : ∀ v, g.Live v → s.1.graph.outEdges v = g.graph.outEdges v
  inEdges : ∀ v, g.Live v → s.1.graph.inEdges v = g.graph.inEdges v
  map_eq : s.2 = record vertexMap made

section Cloning

variable {llvm : Llvm Val Fn} {oldFunction newFunction : Fn} {oldValue : Val}
  {valueMap : ValueMap Val} {g : PDG Val Fn} {vertexMap : VertexMap} {log : List ℕ}
  {made : List (ℕ × ℕ)} {s : PDG Val Fn × VertexMap} {v : ℕ}

omit [DecidableEq Val] [DecidableEq Fn] in
theorem cloning_start (hslots : g.graph.SlotsOk) : Cloning g vertexMap [] [] (g, vertexMap) :=
  ⟨rfl, .nil, fun _ h ↦ absurd h List.not_mem_nil,
    fun _ ↦ (or_iff_left List.not_mem_nil).symm, hslots, fun _ _ ↦ rfl, fun _ _ ↦ rfl,
    fun _ _ ↦ rfl, rfl⟩

variable (llvm oldFunction newFunction valueMap) in
theorem graph_cloneVertex (v : ℕ) (s : PDG Val Fn × VertexMap) :
    (cloneVertex llvm oldFunction newFunction valueMap v s).1.graph =
      (s.1.graph.addVertex (cloneNode llvm oldFunction newFunction valueMap (s.1.node v))).2 := by
  unfold cloneVertex
  simp only
  split
  · rfl
  · rfl

variable (llvm oldFunction newFunction valueMap) in
/-- **Examining a vertex** adds one clone, in a slot that was not in use. -/
theorem Cloning.cloneVertex (h : Cloning g vertexMap log made s) (v : ℕ) :
    ∃ c, Cloning g vertexMap (log ++ [v]) (made ++ [(v, c)])
      (cloneVertex llvm oldFunction newFunction valueMap v s) := by
  have hgraph := graph_cloneVertex llvm oldFunction newFunction valueMap v s
  set prop := cloneNode llvm oldFunction newFunction valueMap (s.1.node v) with hprop
  have hnot : ¬ s.1.Live (s.1.graph.addVertex prop).1 := h.slots.not_live_addVertex prop
  have hold : ∀ u, g.Live u → s.1.Live u := fun u hu ↦ (h.live_iff u).mpr (Or.inl hu)
  have hne : ∀ u, g.Live u → u ≠ (s.1.graph.addVertex prop).1 := by
    rintro u hu rfl
    exact hnot (hold _ hu)
  refine ⟨(s.1.graph.addVertex prop).1, ⟨?_, ?_, ?_, fun u ↦ ?_, ?_, fun u hu ↦ ?_, fun u hu ↦ ?_,
    fun u hu ↦ ?_, ?_⟩⟩
  · rw [List.map_append, h.log_eq]
    rfl
  · rw [List.map_append]
    refine List.nodup_append.mpr ⟨h.nodup, List.nodup_singleton _, fun c hc d hd hcd ↦ ?_⟩
    rw [hcd, List.mem_singleton.mp hd] at hc
    exact hnot ((h.live_iff _).mpr (Or.inr hc))
  · intro c hc
    rw [List.map_append, List.mem_append] at hc
    rcases hc with hc | hc
    · exact h.fresh c hc
    · rw [List.mem_singleton.mp hc]
      exact fun hlive ↦ hnot (hold _ hlive)
  · unfold PDG.Live
    rw [hgraph, h.slots.live_addVertex, List.map_append, List.mem_append, ← or_assoc]
    exact or_congr (h.live_iff u) List.mem_singleton.symm
  · rw [hgraph]
    exact h.slots.addVertex prop
  · unfold PDG.node
    rw [hgraph, BaseGraph.property_addVertex, if_neg (hne u hu)]
    exact h.node u hu
  · rw [hgraph, (h.slots.edges_addVertex prop (hold u hu)).1]
    exact h.outEdges u hu
  · rw [hgraph, (h.slots.edges_addVertex prop (hold u hu)).2]
    exact h.inEdges u hu
  · rw [record_append, ← h.map_eq]
    rfl

/-! ## The search -/

/-- The edges of a vertex lead to vertices. -/
structure EdgesLive (g : PDG Val Fn) : Prop where
  target : ∀ u, g.Live u → ∀ e ∈ g.graph.outEdges u, g.Live e.target
  source : ∀ u, g.Live u → ∀ e ∈ g.graph.inEdges u, g.Live e.source

/-- The vertices that the search discovers and accepts. -/
def toClone (llvm : Llvm Val Fn) (oldFunction newFunction : Fn) (oldValue : Val)
    (valueMap : ValueMap Val) (g : PDG Val Fn) (vertexMap : VertexMap) (sources : List ℕ) : Set ℕ :=
  {v | (clonedFunctionGen llvm oldFunction newFunction oldValue valueMap).Sees (g, vertexMap)
      sources v ∧
    (clonedFunctionGen llvm oldFunction newFunction oldValue valueMap).Expands (g, vertexMap) v}

variable (llvm oldFunction newFunction oldValue valueMap vertexMap) in
theorem live_of_sees (he : EdgesLive g) {sources : List ℕ} (hsources : ∀ v ∈ sources, g.Live v)
    (hv : (clonedFunctionGen llvm oldFunction newFunction oldValue valueMap).Sees (g, vertexMap)
      sources v) : g.Live v := by
  refine hv.mem_of_closed (C := {v | g.Live v}) hsources fun u w hu _ hw ↦ ?_
  rcases hw with ⟨e, hmem, -, rfl⟩ | ⟨e, hmem, -, rfl⟩
  · exact he.source u hu e hmem
  · exact he.target u hu e hmem

variable (llvm oldFunction newFunction oldValue valueMap vertexMap) in
theorem stableOn_clonedFunctionGen (he : EdgesLive g) {sources : List ℕ}
    (hsources : ∀ v ∈ sources, g.Live v) :
    (clonedFunctionGen llvm oldFunction newFunction oldValue valueMap).StableOn sources
      (fun _ log s ↦ ∃ made, Cloning g vertexMap log made s) (g, vertexMap) where
  steady log := by
    have hlive := fun v ↦ live_of_sees llvm oldFunction newFunction oldValue valueMap vertexMap
      (v := v) he hsources
    exact
      { inEdges := fun ⟨_, h⟩ u hu ↦ h.inEdges u (hlive u hu)
        outEdges := fun ⟨_, h⟩ u hu ↦ h.outEdges u (hlive u hu)
        backwards := fun _ _ ↦ rfl
        forwards := fun _ _ ↦ rfl
        wants := fun _ _ _ ↦ rfl
        expands := fun ⟨_, h⟩ v hv ↦ by
          simp only [clonedFunctionGen, h.node v (hlive v hv)]
        discover := fun h _ _ ↦ h
        finishVertex := fun h _ ↦ h
        treeEdge := fun h _ ↦ h }
  examineVertex := fun ⟨made, h⟩ v _ _ ↦
    let ⟨c, hc⟩ := h.cloneVertex llvm oldFunction newFunction valueMap v
    ⟨made ++ [(v, c)], hc⟩

variable (llvm oldFunction newFunction oldValue valueMap vertexMap) in
/-- **The search ends**, and the clones it has made are those of the accepted vertices, one for
each but as many for a source as it is given. -/
theorem cloneSearch_spec (hslots : g.graph.SlotsOk) (he : EdgesLive g) {sources : List ℕ}
    (hne : sources ≠ []) (hsources : ∀ v ∈ sources, g.Live v) :
    ∃ r log made, (clonedFunctionGen llvm oldFunction newFunction oldValue
        valueMap).breadthFirstSearchTwoway (g, vertexMap) sources (.ofCapacity g.graph.capacity) =
          some r ∧
      Cloning g vertexMap log made r.2.graph ∧
      (∀ v ∈ log, v ∈ toClone llvm oldFunction newFunction oldValue valueMap g vertexMap sources) ∧
      ∀ v ∈ toClone llvm oldFunction newFunction oldValue valueMap g vertexMap sources,
        log.count v = max 1 (sources.count v) := by
  obtain ⟨r, hr, hout⟩ := BfsVisitor.bfs_outcome
    (stableOn_clonedFunctionGen llvm oldFunction newFunction oldValue valueMap vertexMap he
      hsources)
    ⟨[], cloning_start hslots⟩ hne (.ofCapacity g.graph.capacity) fun v hv ↦
      ColorMap.covers_ofCapacity (live_of_sees llvm oldFunction newFunction oldValue valueMap
        vertexMap he hsources hv).1
  rcases hout with ⟨-, v, -, hw⟩ | ⟨-, -, -, log, x, hx, ⟨made, hmade⟩, hlog, hcount⟩
  · cases hw
  · refine ⟨r, log, made, hr, ?_, hlog, fun v hv ↦ hcount v hv.1 hv.2⟩
    rw [hx]
    exact hmade

/-! ## Exactly once -/

/-- The clone is a vertex of the second graph, but not of the first one. -/
def NewVertex (g g' : PDG Val Fn) (c : ℕ) : Prop := g'.Live c ∧ ¬ g.Live c

/-- The vertices of `S` have been cloned once each: a clone of each of them has been added, and
every vertex that has been added is the clone of exactly one of them. -/
structure ClonedOnce (S : Set ℕ) (g g' : PDG Val Fn) (vertexMap : VertexMap) : Prop where
  cloned : ∀ v ∈ S, ∃ c, NewVertex g g' c ∧ vertexMap v = some c
  image : ∀ c, NewVertex g g' c → ∃ v ∈ S, vertexMap v = some c
  unique : ∀ c, NewVertex g g' c → ∀ u v, vertexMap u = some c → vertexMap v = some c → u = v

omit [DecidableEq Val] [DecidableEq Fn] in
theorem Cloning.newVertex_iff (h : Cloning g vertexMap log made s) {c : ℕ} :
    NewVertex g s.1 c ↔ c ∈ made.map Prod.snd := by
  unfold NewVertex
  rw [h.live_iff]
  constructor
  · rintro ⟨hlive | hc, hnot⟩
    · exact absurd hlive hnot
    · exact hc
  · exact fun hc ↦ ⟨Or.inr hc, h.fresh c hc⟩

omit [DecidableEq Val] [DecidableEq Fn] in
theorem Cloning.mem_made (h : Cloning g vertexMap log made s)
    (hmap : ∀ v c, vertexMap v = some c → g.Live c) {c : ℕ} (hc : c ∈ made.map Prod.snd)
    (hv : s.2 v = some c) : (v, c) ∈ made := by
  rw [h.map_eq] at hv
  rcases mem_of_record hv with hmem | ⟨-, hold⟩
  · exact hmem
  · exact absurd (hmap v c hold) (h.fresh c hc)

omit [DecidableEq Val] [DecidableEq Fn] in
/-- **The vertices are cloned once** if and only if none has been examined twice. -/
theorem Cloning.clonedOnce_iff (h : Cloning g vertexMap log made s)
    (hmap : ∀ v c, vertexMap v = some c → g.Live c) {S : Set ℕ} (hS : ∀ v, v ∈ S ↔ v ∈ log) :
    ClonedOnce S g s.1 s.2 ↔ log.Nodup := by
  have hinj : ∀ {u v c}, (u, c) ∈ made → (v, c) ∈ made → u = v := fun hu hv ↦
    congrArg Prod.fst (List.inj_on_of_nodup_map h.nodup hu hv rfl)
  rw [← h.log_eq, ← forall_record_iff (m := vertexMap) h.nodup, ← h.map_eq]
  constructor
  · rintro honce ⟨v, c⟩ hp
    have hc : c ∈ made.map Prod.snd := List.mem_map_of_mem hp
    obtain ⟨u, -, hu⟩ := honce.image c (h.newVertex_iff.mpr hc)
    obtain rfl := hinj hp (h.mem_made hmap hc hu)
    exact hu
  · intro hall
    refine ⟨fun v hv ↦ ?_, fun c hc ↦ ?_, fun c hc u v hu hv ↦ ?_⟩
    · rw [hS, ← h.log_eq] at hv
      obtain ⟨⟨_, c⟩, hp, rfl⟩ := List.mem_map.mp hv
      exact ⟨c, h.newVertex_iff.mpr (List.mem_map_of_mem hp), hall _ hp⟩
    · obtain ⟨⟨v, _⟩, hp, rfl⟩ := List.mem_map.mp (h.newVertex_iff.mp hc)
      refine ⟨v, ?_, hall _ hp⟩
      rw [hS, ← h.log_eq]
      exact List.mem_map_of_mem hp
    · have hc := h.newVertex_iff.mp hc
      exact hinj (h.mem_made hmap hc hu) (h.mem_made hmap hc hv)

/-! ## The sources -/

omit [DecidableEq Val] in
theorem edgesLive_pdgAddVertex (hc : g.Consistent) (hm : g.graph.Mirrored)
    (hedges : ∀ u p w, g.HasEdge u p w → g.Live u ∧ g.Live w) (prop : PDGNode Val Fn) :
    EdgesLive (g.pdgAddVertex prop).2 := by
  have hout : ∀ u, ∀ e ∈ g.graph.outEdges u, g.Live u ∧ g.Live e.target := fun u e he ↦
    hedges u e.property e.target (hm.mem_outEdges_iff.mp he).2
  have hin : ∀ u, ∀ e ∈ g.graph.inEdges u, g.Live e.source ∧ g.Live u := fun u e he ↦
    hedges e.source e.property u (hm.mem_inEdges_iff_hasEdge.mp he).2
  have hnew : ∀ e, e ∈ (g.pdgAddVertex prop).2.graph.outEdges (g.pdgAddVertex prop).1 ∨
      e ∈ (g.pdgAddVertex prop).2.graph.inEdges (g.pdgAddVertex prop).1 → False := by
    intro e he
    have hnot := hc.slots.not_live_addVertex prop
    rcases hc.slots.edges_addVertex_new prop he with he | he
    · exact hnot (hout _ e he).1
    · exact hnot (hin _ e he).2
  constructor
  · intro u hu e he
    rcases (hc.live_pdgAddVertex prop).mp hu with hu | rfl
    · have hlists := hc.slots.edges_addVertex prop hu
      exact (hc.live_pdgAddVertex prop).mpr (Or.inl (hout u e (hlists.1 ▸ he)).2)
    · exact (hnew e (Or.inl he)).elim
  · intro u hu e he
    rcases (hc.live_pdgAddVertex prop).mp hu with hu | rfl
    · have hlists := hc.slots.edges_addVertex prop hu
      exact (hc.live_pdgAddVertex prop).mpr (Or.inl (hin u e (hlists.2 ▸ he)).1)
    · exact (hnew e (Or.inr he)).elim

/-- The function has a vertex after `getVertex`, and the graph is as good as before. -/
theorem getVertex_function (hc : g.Consistent) (hm : g.graph.Mirrored)
    (hedges : ∀ u p w, g.HasEdge u p w → g.Live u ∧ g.Live w)
    (hfun : llvm.asFunction oldValue = some oldFunction) :
    (g.getVertex llvm oldValue none).2.valueToVertex oldValue =
        some (g.getVertex llvm oldValue none).1 ∧
      EdgesLive (g.getVertex llvm oldValue none).2 ∧
      ∀ v, g.Live v → (g.getVertex llvm oldValue none).2.Live v := by
  unfold PDG.getVertex
  split
  · next v hv =>
      refine ⟨hv, ⟨fun u _ e he ↦ ?_, fun u _ e he ↦ ?_⟩, fun _ ↦ id⟩
      · exact (hedges u e.property e.target (hm.mem_outEdges_iff.mp he).2).2
      · exact (hedges e.source e.property u (hm.mem_inEdges_iff_hasEdge.mp he).2).1
  · unfold PDG.createVertex
    simp only [hfun, Option.isNone_some, Bool.false_eq_true, if_false]
    have hlive := edgesLive_pdgAddVertex hc hm hedges (PDG.valueNode llvm oldValue none)
    refine ⟨Function.update_self .., ⟨hlive.target, hlive.source⟩, fun v hv ↦ ?_⟩
    exact (hc.live_pdgAddVertex _).mpr (Or.inl hv)

omit [DecidableEq Val] [DecidableEq Fn] in
theorem mem_cloneSources {u : ℕ} :
    v ∈ cloneSources valueMap g u ↔
      v = u ∨ ∃ value ∈ valueMap.map Prod.fst, g.valueToVertex value = some v := by
  rw [cloneSources, List.mem_cons, List.mem_filterMap]

omit [DecidableEq Val] [DecidableEq Fn] in
theorem PDG.Consistent.value_inj (hc : g.Consistent) {value value' : Val}
    (h : g.valueToVertex value = some v) (h' : g.valueToVertex value' = some v) :
    value = value' :=
  Option.some.inj ((hc.value value v h).2.symm.trans (hc.value value' v h').2)

omit [DecidableEq Val] [DecidableEq Fn] in
theorem nodup_valueVertices (hc : g.Consistent) (hkeys : (valueMap.map Prod.fst).Nodup) :
    ((valueMap.map Prod.fst).filterMap g.valueToVertex).Nodup :=
  hkeys.filterMap fun _ _ _ h h' ↦ hc.value_inj h h'

omit [DecidableEq Val] [DecidableEq Fn] in
/-- **A source is given twice** if and only if the function is one of the cloned values. -/
theorem nodup_cloneSources_iff (hc : g.Consistent) (hkeys : (valueMap.map Prod.fst).Nodup)
    (hold : g.valueToVertex oldValue = some v) :
    (cloneSources valueMap g v).Nodup ↔ oldValue ∉ valueMap.map Prod.fst := by
  rw [cloneSources, List.nodup_cons, List.mem_filterMap,
    and_iff_left (nodup_valueVertices hc hkeys)]
  refine not_congr ⟨?_, fun hmem ↦ ⟨oldValue, hmem, hold⟩⟩
  rintro ⟨value, hmem, hvalue⟩
  rwa [hc.value_inj hold hvalue]

omit [DecidableEq Val] [DecidableEq Fn] in
theorem live_of_mem_cloneSources {u : ℕ} (hc : g.Consistent)
    (hold : g.valueToVertex oldValue = some u) (hv : v ∈ cloneSources valueMap g u) :
    g.Live v := by
  rcases mem_cloneSources.mp hv with rfl | ⟨value, -, hvalue⟩
  · exact (hc.value oldValue v hold).1
  · exact (hc.value value v hvalue).1

variable (llvm oldFunction newFunction valueMap vertexMap) in
theorem function_mem_toClone (hc : g.Consistent) (hold : g.valueToVertex oldValue = some v) :
    v ∈ toClone llvm oldFunction newFunction oldValue valueMap g vertexMap
      (cloneSources valueMap g v) := by
  refine ⟨.source List.mem_cons_self, ?_⟩
  simp [BfsVisitor.Expands, clonedFunctionGen, (hc.value oldValue v hold).2]

theorem nodup_log_iff {log rest : List ℕ} {u : ℕ} (hu : u ∈ log) (hrest : rest.Nodup)
    (hcount : ∀ v ∈ log, log.count v = max 1 ((u :: rest).count v)) :
    log.Nodup ↔ (u :: rest).Nodup := by
  rw [List.nodup_iff_count_le_one, List.nodup_iff_count_le_one]
  constructor
  · intro hle v
    by_cases hv : v = u
    · subst hv
      exact (Nat.le_max_right 1 _).trans (hcount v hu ▸ hle v)
    · rw [List.count_cons_of_ne (Ne.symm hv)]
      exact List.nodup_iff_count_le_one.mp hrest v
  · intro hle v
    by_cases hv : v ∈ log
    · rw [hcount v hv]
      exact Nat.max_le.mpr ⟨Nat.le_refl 1, hle v⟩
    · rw [List.count_eq_zero.mpr hv]
      exact Nat.zero_le 1

/-- **Each accepted vertex is cloned exactly once if and only if the function is not one of the
cloned values.** -/
theorem clonedOnce_iff_notMem (hc : g.Consistent) (hm : g.graph.Mirrored)
    (hedges : ∀ u p w, g.HasEdge u p w → g.Live u ∧ g.Live w)
    (hfun : llvm.asFunction oldValue = some oldFunction)
    (hkeys : (valueMap.map Prod.fst).Nodup)
    (hmap : ∀ v c, vertexMap v = some c → g.Live c) (newFunction : Fn) :
    ∃ g' vertexMap', cloneGraphForSCCFunction llvm oldFunction newFunction oldValue valueMap g
        vertexMap = some (g', vertexMap') ∧
      (ClonedOnce
          (toClone llvm oldFunction newFunction oldValue valueMap
            (g.getVertex llvm oldValue none).2 vertexMap
            (cloneSources valueMap (g.getVertex llvm oldValue none).2
              (g.getVertex llvm oldValue none).1))
          (g.getVertex llvm oldValue none).2 g' vertexMap' ↔
        oldValue ∉ valueMap.map Prod.fst) := by
  obtain ⟨hold, hlive, hkeep⟩ := getVertex_function hc hm hedges hfun
  have hc' := hc.getVertex llvm oldValue none
  unfold cloneGraphForSCCFunction
  generalize g.getVertex llvm oldValue none = r at hold hlive hkeep hc' ⊢
  obtain ⟨u, x⟩ := r
  simp only at hold hlive hkeep hc' ⊢
  have hne : cloneSources valueMap x u ≠ [] := List.cons_ne_nil _ _
  obtain ⟨r, log, made, hr, hcloning, hlog, hcount⟩ := cloneSearch_spec llvm oldFunction
    newFunction oldValue valueMap vertexMap hc'.slots hlive hne
    fun v hv ↦ live_of_mem_cloneSources hc' hold hv
  have hS : ∀ v, v ∈ toClone llvm oldFunction newFunction oldValue valueMap x vertexMap
      (cloneSources valueMap x u) ↔ v ∈ log := fun v ↦
    ⟨fun hv ↦ List.count_pos_iff.mp (hcount v hv ▸ Nat.le_max_left 1 _), hlog v⟩
  have hu : u ∈ log := (hS u).mp
    (function_mem_toClone llvm oldFunction newFunction valueMap vertexMap hc' hold)
  refine ⟨r.2.graph.1, r.2.graph.2, by rw [hr]; rfl, ?_⟩
  rw [hcloning.clonedOnce_iff (fun v c h ↦ hkeep c (hmap v c h)) hS,
    ← nodup_cloneSources_iff hc' hkeys hold]
  exact nodup_log_iff hu (nodup_valueVertices hc' hkeys) fun v hv ↦ hcount v ((hS v).mpr hv)

end Cloning

/-! ## A function with one instruction -/

/-- The values are the function `0`, its instruction `1`, the clone `2` of the instruction and the
clone `3` of the function. -/
def oneInstructionLlvm : Llvm ℕ Bool where
  asFunction value := if value = 0 then some false else if value = 3 then some true else none
  instructionFunction value := if value = 1 then some false else none
  isConstantGlobal _ := false
  typeOf _ := .other
  pointee _ := .other

/-- The graph has a vertex for the function and one for its instruction. -/
def oneInstruction : PDG ℕ Bool where
  graph := ⟨2, 0, [], 2, fun v ↦ ⟨[], [], { function := some false, instruction := some v }, false⟩⟩
  valueToVertex value := if value < 2 then some value else none
  maxParts := 32
  subnodeLimit := 5
  unitedNodes := ∅
  functionToVertices f := if f = some false then {0, 1} else ∅

theorem live_oneInstruction {v : ℕ} : oneInstruction.Live v ↔ v < 2 := and_iff_left rfl

theorem consistent_oneInstruction : oneInstruction.Consistent := by
  refine ⟨⟨.nil, fun v ↦ ⟨fun h ↦ absurd h List.not_mem_nil, fun h ↦ ?_⟩⟩, fun f v ↦ ?_,
    fun value v h ↦ ?_⟩
  · cases h.2
  · rw [live_oneInstruction]
    change v ∈ (if f = some false then ({0, 1} : Finset ℕ) else ∅) ↔ v < 2 ∧ some false = f
    split
    · next hf =>
        subst hf
        simp only [Finset.mem_insert, Finset.mem_singleton, and_true]
        omega
    · next hf => simp [Ne.symm hf]
  · change (if value < 2 then some value else none) = some v at h
    split at h
    · next hlt =>
        obtain rfl := Option.some.inj h
        exact ⟨live_oneInstruction.mpr hlt, rfl⟩
    · cases h

theorem mirrored_oneInstruction : oneInstruction.graph.Mirrored := by
  refine ⟨fun h ↦ ?_, fun h ↦ ?_, fun _ ↦ Iff.rfl, fun _ ↦ .nil, fun _ ↦ .nil⟩
  · cases h
  · cases h

theorem not_hasEdge_oneInstruction {u w : ℕ} {p : PDGEdge} : ¬ oneInstruction.HasEdge u p w :=
  List.not_mem_nil

/-- Without the function in the value map each of the two vertices is cloned once. -/
theorem clonedOnce_oneInstruction :
    ∃ g' vertexMap', cloneGraphForSCCFunction oneInstructionLlvm false true 0 [(1, some 2)]
        oneInstruction (fun _ ↦ none) = some (g', vertexMap') ∧
      ClonedOnce (toClone oneInstructionLlvm false true 0 [(1, some 2)] oneInstruction
        (fun _ ↦ none) [0, 1]) oneInstruction g' vertexMap' := by
  have hkeys : (([(1, some 2)] : ValueMap ℕ).map Prod.fst).Nodup := List.nodup_singleton 1
  have hfun : oneInstructionLlvm.asFunction 0 = some false := rfl
  have hmap : ∀ v c, (fun _ ↦ none : VertexMap) v = some c → oneInstruction.Live c :=
    fun v c h ↦ by cases h
  obtain ⟨g', vertexMap', hrun, hiff⟩ := clonedOnce_iff_notMem consistent_oneInstruction
    mirrored_oneInstruction (fun u p w h ↦ absurd h not_hasEdge_oneInstruction) hfun hkeys hmap true
  exact ⟨g', vertexMap', hrun, hiff.mpr (by decide)⟩

/-- With the function in the value map, as `cloneSCC` makes it, two clones of the vertex of the
function are added, and nothing is mapped to the first one. -/
theorem not_clonedOnce_oneInstruction :
    ¬ ∀ (g : PDG ℕ Bool) (valueMap : ValueMap ℕ) (g' : PDG ℕ Bool) (vertexMap' : VertexMap),
      g.Consistent → g.graph.Mirrored → (∀ u p w, g.HasEdge u p w → g.Live u ∧ g.Live w) →
      (valueMap.map Prod.fst).Nodup → valueMap.lookup 0 = some (some 3) →
      g.valueToVertex 0 = some 0 →
      cloneGraphForSCCFunction oneInstructionLlvm false true 0 valueMap g (fun _ ↦ none) =
        some (g', vertexMap') →
      ClonedOnce (toClone oneInstructionLlvm false true 0 valueMap g (fun _ ↦ none)
        (cloneSources valueMap g 0)) g g' vertexMap' := by
  intro hall
  have hrun : (cloneGraphForSCCFunction oneInstructionLlvm false true 0 [(1, some 2), (0, some 3)]
      oneInstruction fun _ ↦ none).any
        (fun r ↦ decide (r.1.Live 2 ∧ r.2 0 ≠ some 2 ∧ r.2 1 ≠ some 2)) = true := by
    decide +kernel
  cases hclone : cloneGraphForSCCFunction oneInstructionLlvm false true 0
      [(1, some 2), (0, some 3)] oneInstruction fun _ ↦ none with
  | none =>
    rw [hclone] at hrun
    cases hrun
  | some r =>
    rw [hclone] at hrun
    simp only [Option.any_some, decide_eq_true_eq] at hrun
    have honce := hall _ _ r.1 r.2 consistent_oneInstruction mirrored_oneInstruction
      (fun u p w h ↦ absurd h not_hasEdge_oneInstruction) (by decide) rfl rfl hclone
    obtain ⟨v, hv, heq⟩ := honce.image 2 ⟨hrun.1, fun h ↦ absurd h.1 (by decide)⟩
    have hlive : oneInstruction.Live v := by
      refine live_of_sees oneInstructionLlvm false true 0 _ _ ⟨?_, ?_⟩ (by decide) hv.1
      · exact fun u _ e he ↦ absurd he List.not_mem_nil
      · exact fun u _ e he ↦ absurd he List.not_mem_nil
    have hlt := live_oneInstruction.mp hlive
    obtain rfl | rfl : v = 0 ∨ v = 1 := by omega
    · exact hrun.2.1 heq
    · exact hrun.2.2 heq

end Cali.Passes
