import Cali.Graph.Slots
import Cali.Graph.Tarjan

/-!
# The graph of the strongly connected components

`strong_components_graph` of `graph/scc_algorithms.h` adds one vertex for each component,
collects there the vertices of the component, and adds an edge for each edge between two
components.  `add_edge` keeps the edges of the result unique.

The graphs this is used for have never lost a vertex; `Packed` is what holds for them.
-/

namespace Cali.Graph.BaseGraph

open Cali.Lib Relation

variable {N L K : Type}

/-! ## Graphs without removed vertices -/

/-- A graph whose vertices have never been removed. -/
structure Packed (g : BaseGraph N L) : Prop where
  free : g.freeVertices = []
  mirrored : g.Mirrored
  inside : g.Inside

variable {g : BaseGraph N L}

theorem packed_nil (prop : N) : (nil prop : BaseGraph N L).Packed where
  free := rfl
  mirrored := ⟨nofun, nofun, fun _ ↦ Iff.rfl, fun _ ↦ List.nodup_nil, fun _ ↦ List.nodup_nil⟩
  inside := by
    rintro u w ⟨e, he, -⟩
    cases he

namespace Packed

theorem addVertex_eq (h : g.Packed) (prop : N) :
    g.addVertex prop = (g.capacity, { g with
      size := g.size + 1, freeVertices := [], capacity := g.capacity + 1 }.setVertex g.capacity
        ⟨[], [], prop, false⟩) := by
  unfold addVertex
  rw [h.free]
  rfl

theorem outEdges_capacity (h : g.Packed) : g.outEdges g.capacity = [] :=
  List.eq_nil_iff_forall_not_mem.mpr fun e he ↦
    Nat.lt_irrefl _ (h.inside g.capacity e.target ⟨e, he, rfl⟩).1

theorem inEdges_capacity (h : g.Packed) : g.inEdges g.capacity = [] := by
  refine List.eq_nil_iff_forall_not_mem.mpr fun e he ↦ ?_
  have htarget : e.target = g.capacity := h.mirrored.target_eq he
  have hout := (h.mirrored.mem_inEdges_iff e).mp (htarget ▸ he)
  exact Nat.lt_irrefl _ (htarget ▸ (h.inside e.source e.target ⟨e, hout, rfl⟩).2)

theorem addVertex_fst (h : g.Packed) (prop : N) : (g.addVertex prop).1 = g.capacity := by
  rw [h.addVertex_eq]

theorem capacity_addVertex (h : g.Packed) (prop : N) :
    (g.addVertex prop).2.capacity = g.capacity + 1 := by
  rw [h.addVertex_eq]
  rfl

theorem outEdges_addVertex (h : g.Packed) (prop : N) (u : ℕ) :
    (g.addVertex prop).2.outEdges u = g.outEdges u :=
  outEdges_addVertex_of_nil h.outEdges_capacity prop u

theorem inEdges_addVertex (h : g.Packed) (prop : N) (u : ℕ) :
    (g.addVertex prop).2.inEdges u = g.inEdges u :=
  inEdges_addVertex_of_nil h.inEdges_capacity prop u

theorem adj_addVertex (h : g.Packed) (prop : N) {u w : ℕ} :
    (g.addVertex prop).2.Adj u w ↔ g.Adj u w := by
  unfold Adj
  rw [h.outEdges_addVertex]

theorem addVertex (h : g.Packed) (prop : N) : (g.addVertex prop).2.Packed where
  free := by
    rw [h.addVertex_eq]
    rfl
  mirrored := h.mirrored.congr (h.outEdges_addVertex prop) (h.inEdges_addVertex prop)
  inside u w huw := by
    obtain ⟨hu, hw⟩ := h.inside u w ((h.adj_addVertex prop).mp huw)
    rw [h.capacity_addVertex]
    omega

theorem setProperty (h : g.Packed) (v : ℕ) (prop : N) : (g.setProperty v prop).Packed where
  free := h.free
  mirrored := h.mirrored.congr (outEdges_setProperty v · prop) (inEdges_setProperty v · prop)
  inside u w huw := by
    unfold Adj at huw
    rw [outEdges_setProperty] at huw
    exact h.inside u w huw

end Packed

section AddEdge

variable [DecidableEq L]

theorem adj_addEdge {v1 v2 u w : ℕ} {p : L} :
    (g.addEdge v1 v2 p).Adj u w ↔ g.Adj u w ∨ u = v1 ∧ w = v2 := by
  unfold Adj
  rw [outEdges_addEdge]
  by_cases hu : u = v1
  · subst hu
    simp only [↓reduceIte, mem_uniqueInsert, true_and]
    constructor
    · rintro ⟨e, he | rfl, rfl⟩
      · exact Or.inl ⟨e, he, rfl⟩
      · exact Or.inr rfl
    · rintro (⟨e, he, rfl⟩ | rfl)
      · exact ⟨e, Or.inl he, rfl⟩
      · exact ⟨_, Or.inr rfl, rfl⟩
  · simp [hu]

theorem Packed.addEdge (h : g.Packed) {v1 v2 : ℕ} (h1 : v1 < g.capacity) (h2 : v2 < g.capacity)
    (p : L) : (g.addEdge v1 v2 p).Packed where
  free := (sameNodes_addEdge g v1 v2 p).freeVertices.trans h.free
  mirrored := h.mirrored.addEdge v1 v2 p
  inside u w huw := by
    rw [(sameNodes_addEdge g v1 v2 p).capacity]
    rcases adj_addEdge.mp huw with huw | ⟨rfl, rfl⟩
    · exact h.inside u w huw
    · exact ⟨h1, h2⟩

end AddEdge

/-! ## The construction -/

/-- `outGraph.add_vertex({})` as often as there are components. -/
def addVertices (outGraph : BaseGraph (List ℕ) K) (size : ℕ) : BaseGraph (List ℕ) K :=
  (List.range size).foldl (fun outGraph _ ↦ (outGraph.addVertex []).2) outGraph

variable [DecidableEq K] [Inhabited K]

/-- The edges of the vertex `v1` of `inGraph`, which is in the component `v2`. -/
def condenseEdges (components : ℕ → ℕ) (v2 : ℕ) (outGraph : BaseGraph (List ℕ) K)
    (es : List (Edge L)) : BaseGraph (List ℕ) K :=
  es.foldl (fun outGraph e ↦
    let target2 := components e.target
    if v2 ≠ target2 then outGraph.addEdge v2 target2 default else outGraph) outGraph

/-- One round of the loop over the vertices of `inGraph`. -/
def condenseVertex (inGraph : BaseGraph N L) (components : ℕ → ℕ)
    (outGraph : BaseGraph (List ℕ) K) (v1 : ℕ) : BaseGraph (List ℕ) K :=
  let v2 := components v1
  let outGraph := outGraph.setProperty v2 (outGraph.property v2 ++ [v1])
  condenseEdges components v2 outGraph (inGraph.outEdges v1)

/-- `strong_components_graph`.  A vertex without a component would have the largest
`long` as its component. -/
def strongComponentsGraph (inGraph : BaseGraph N L) (outGraph : BaseGraph (List ℕ) K) :
    Option (ℕ × BaseGraph (List ℕ) K) := do
  let (size, comp) ← inGraph.strongComponents
  let components := fun v ↦ (comp v).getD (2 ^ 63 - 1)
  return (size, (List.range inGraph.capacity).foldl (inGraph.condenseVertex components)
    (outGraph.addVertices size))

/-! ## What it does -/

variable {components : ℕ → ℕ} {out : BaseGraph (List ℕ) K} {total : ℕ}

omit [DecidableEq K] [Inhabited K] in
theorem addVertices_nil (size : ℕ) : ((nil [] : BaseGraph (List ℕ) K).addVertices size).Packed ∧
    ((nil [] : BaseGraph (List ℕ) K).addVertices size).capacity = size ∧
    (∀ c, ((nil [] : BaseGraph (List ℕ) K).addVertices size).property c = []) ∧
    ∀ c d, ¬ ((nil [] : BaseGraph (List ℕ) K).addVertices size).Adj c d := by
  induction size with
  | zero => exact ⟨packed_nil _, rfl, fun _ ↦ rfl, fun c d ⟨e, he, _⟩ ↦ nomatch he⟩
  | succ size ih =>
    obtain ⟨hpacked, hcap, hprop, hadj⟩ := ih
    unfold addVertices at hpacked hcap hprop hadj ⊢
    rw [List.range_succ, List.foldl_concat]
    refine ⟨hpacked.addVertex _, ?_, fun c ↦ ?_, fun c d ↦ ?_⟩
    · rw [hpacked.capacity_addVertex, hcap]
    · rw [property_addVertex, hprop]
      exact ite_self _
    · rw [hpacked.adj_addVertex]
      exact hadj c d

/-- The edges of one vertex: an edge to the component of each target that is in another
component. -/
theorem Packed.condenseEdges (components : ℕ → ℕ) {v2 : ℕ} {es : List (Edge L)}
    (h : out.Packed) (hv2 : v2 < out.capacity)
    (hes : ∀ e ∈ es, components e.target < out.capacity) :
    (condenseEdges components v2 out es).Packed ∧
      SameNodes out (BaseGraph.condenseEdges components v2 out es) ∧
      ∀ c d, (BaseGraph.condenseEdges components v2 out es).Adj c d ↔
        out.Adj c d ∨ c = v2 ∧ c ≠ d ∧ ∃ e ∈ es, components e.target = d := by
  unfold BaseGraph.condenseEdges
  induction es generalizing out with
  | nil => exact ⟨h, .refl _, fun c d ↦ by simp⟩
  | cons e es ih =>
    rw [List.foldl_cons]
    have hlt := hes e List.mem_cons_self
    have hes' := fun e' he' ↦ hes e' (List.mem_cons_of_mem _ he')
    by_cases hne : v2 = components e.target
    · obtain ⟨hpacked, hsame, hadj⟩ := ih h hv2 hes'
      rw [if_neg (not_not.mpr hne)]
      refine ⟨hpacked, hsame, fun c d ↦ ?_⟩
      rw [hadj]
      simp only [List.mem_cons, exists_eq_or_imp]
      refine or_congr_right (and_congr_right fun hc ↦ and_congr_right fun hcd ↦ ?_)
      have hother : components e.target ≠ d := hne ▸ hc ▸ hcd
      rw [or_iff_right hother]
    · have hsame := sameNodes_addEdge out v2 (components e.target) default
      obtain ⟨hpacked, hsame', hadj⟩ := ih (h.addEdge hv2 hlt default)
        (hsame.capacity ▸ hv2) fun e' he' ↦ hsame.capacity ▸ hes' e' he'
      rw [if_pos hne]
      refine ⟨hpacked, hsame.trans hsame', fun c d ↦ ?_⟩
      rw [hadj, adj_addEdge]
      simp only [List.mem_cons, exists_eq_or_imp]
      rw [or_assoc, ← and_or_left]
      refine or_congr_right (and_congr_right fun hc ↦ ?_)
      rw [and_or_left]
      refine or_congr_left ⟨fun hd ↦ ?_, fun h ↦ h.2.symm⟩
      have hcd : c ≠ d := hc ▸ hd ▸ hne
      exact ⟨hcd, hd.symm⟩

/-- `out` has the vertices of the list with the edges that leave them, by components. -/
structure Condenses (g : BaseGraph N L) (components : ℕ → ℕ) (total : ℕ) (vs : List ℕ)
    (out : BaseGraph (List ℕ) K) : Prop where
  packed : out.Packed
  capacity : out.capacity = total
  property : ∀ c, out.property c = vs.filter (components · = c)
  adj_iff : ∀ c d, out.Adj c d ↔
    c ≠ d ∧ ∃ u ∈ vs, ∃ w, g.Adj u w ∧ components u = c ∧ components w = d

theorem Condenses.condenseVertex {vs : List ℕ} {v1 : ℕ} (h : Condenses g components total vs out)
    (hv1 : components v1 < total) (hw : ∀ w, g.Adj v1 w → components w < total) :
    Condenses g components total (vs ++ [v1]) (g.condenseVertex components out v1) := by
  set out' := out.setProperty (components v1) (out.property (components v1) ++ [v1]) with hout'
  have hadj' : ∀ c d, out'.Adj c d ↔ out.Adj c d := fun c d ↦ by
    unfold Adj
    rw [hout', outEdges_setProperty]
  have hcap : out'.capacity = total := h.capacity
  obtain ⟨hpacked, hsame, hadj⟩ := (h.packed.setProperty _ _ : out'.Packed).condenseEdges
    components (hcap ▸ hv1) (fun e (he : e ∈ g.outEdges v1) ↦ hcap ▸ hw e.target ⟨e, he, rfl⟩)
  refine ⟨hpacked, hsame.capacity.trans hcap, fun c ↦ ?_, fun c d ↦ ?_⟩
  · rw [BaseGraph.condenseVertex, hsame.property, property_setProperty, h.property, h.property,
      List.filter_append]
    by_cases hc : c = components v1
    · simp [hc]
    · simp [hc, Ne.symm hc]
  · rw [BaseGraph.condenseVertex, hadj, hadj', h.adj_iff]
    constructor
    · rintro (⟨hcd, u, hu, w, huw, hc, hd⟩ | ⟨hc, hcd, e, he, hd⟩)
      · exact ⟨hcd, u, List.mem_append_left _ hu, w, huw, hc, hd⟩
      · exact ⟨hcd, v1, List.mem_append_right _ List.mem_cons_self, e.target, ⟨e, he, rfl⟩,
          hc.symm, hd⟩
    · rintro ⟨hcd, u, hu, w, huw, hc, hd⟩
      rcases List.mem_append.mp hu with hu | hu
      · exact Or.inl ⟨hcd, u, hu, w, huw, hc, hd⟩
      · obtain rfl := List.mem_singleton.mp hu
        obtain ⟨e, he, rfl⟩ := huw
        exact Or.inr ⟨hc.symm, hcd, e, he, hd⟩

/-- **The graph of the components**, for an output graph that is empty. -/
theorem strongComponentsGraph_spec (hg : g.Inside) :
    ∃ total components out, g.strongComponentsGraph (nil [] : BaseGraph (List ℕ) K) =
        some (total, out) ∧
      Components g total components ∧
      Condenses g components total (List.range g.capacity) out := by
  obtain ⟨total, comp, hcomp, hspec, hsome⟩ := strongComponents_spec hg
  have hspec' : Components g total fun u ↦ (comp u).getD (2 ^ 63 - 1) :=
    hspec.congr hg fun u hu ↦ by rw [hsome u hu]; rfl
  have hloop : ∀ vs : List ℕ, (∀ v ∈ vs, v < g.capacity) →
      Condenses g (fun u ↦ (comp u).getD (2 ^ 63 - 1)) total vs
        (vs.foldl (g.condenseVertex fun u ↦ (comp u).getD (2 ^ 63 - 1))
          ((nil [] : BaseGraph (List ℕ) K).addVertices total)) := by
    intro vs
    induction vs using List.reverseRecOn with
    | nil =>
      intro _
      obtain ⟨hpacked, hcap, hprop, hadj⟩ := addVertices_nil (K := K) total
      exact ⟨hpacked, hcap, hprop, fun c d ↦ by simp [hadj c d]⟩
    | append_singleton vs v ih =>
      intro hlt
      rw [List.foldl_concat]
      refine (ih fun u hu ↦ hlt u (List.mem_append_left _ hu)).condenseVertex
        (hspec'.lt v (hlt v (by simp))) fun w hw ↦ hspec'.lt w (hg v w hw).2
  refine ⟨total, _, _, ?_, hspec', hloop _ fun v ↦ List.mem_range.mp⟩
  unfold strongComponentsGraph
  rw [hcomp]
  rfl

end Cali.Graph.BaseGraph
