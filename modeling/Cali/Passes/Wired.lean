import Cali.Passes.Index

/-!
# Graphs whose edges join vertices

The passes only add edges between vertices of the graph, and removing a vertex removes its
edges.  So in every graph that they build the slot of a removed vertex has no edges, and
a vertex that gets the slot starts without edges.
-/

namespace Cali.Passes

open Cali.Graph

variable {Val Fn : Type}

namespace PDG

/-- The free ids are exactly the empty slots, and the edges are stored in both directions and join
vertices of the graph. -/
structure Wired (g : PDG Val Fn) : Prop where
  slots : g.graph.SlotsOk
  mirrored : g.graph.Mirrored
  live : ∀ u p w, g.HasEdge u p w → g.Live u ∧ g.Live w

variable {g : PDG Val Fn} {u v w : ℕ} {p q : PDGEdge}

theorem Wired.not_hasEdge_left (h : g.Wired) (hu : ¬ g.Live u) : ¬ g.HasEdge u p w :=
  fun he ↦ hu (h.live u p w he).1

theorem Wired.not_hasEdge_right (h : g.Wired) (hw : ¬ g.Live w) : ¬ g.HasEdge u p w :=
  fun he ↦ hw (h.live u p w he).2

theorem Wired.linked (h : g.Wired) : g.Linked :=
  ⟨h.mirrored, fun u p w he ↦ (h.live u p w he).imp And.left And.left⟩

theorem addEdge_of_hasEdge (h : g.HasEdge u p w) : g.addEdge u w p = g := by
  have hins : uniqueInsert (g.graph.outEdges u) ⟨u, w, p⟩ = (g.graph.outEdges u, false) :=
    if_pos h
  have hsame : g.graph.setOutEdges u (g.graph.outEdges u) = g.graph := by
    unfold BaseGraph.setOutEdges BaseGraph.setVertex BaseGraph.outEdges
    rw [Function.update_eq_self_iff.mpr rfl]
  have hgraph : g.graph.addEdge u w p = g.graph := by
    simp only [BaseGraph.addEdge, hins, hsame, Bool.false_eq_true, if_false]
  unfold addEdge
  rw [hgraph]

theorem live_addEdge : (g.addEdge u w p).Live v ↔ g.Live v := (sameIndex_addEdge ..).live_iff

/-! ## The operations -/

theorem not_hasEdge_init (maxParts : ℕ) (subnodeLimit : ℤ) :
    ¬ (init maxParts subnodeLimit : PDG Val Fn).HasEdge u p w :=
  List.not_mem_nil

theorem wired_init (maxParts : ℕ) (subnodeLimit : ℤ) :
    (init maxParts subnodeLimit : PDG Val Fn).Wired where
  slots := BaseGraph.slotsOk_nil _
  mirrored :=
    { source_eq := fun he ↦ absurd he List.not_mem_nil
      target_eq := fun he ↦ absurd he List.not_mem_nil
      mem_inEdges_iff := fun _ ↦ Iff.rfl
      outEdges_nodup := fun _ ↦ .nil
      inEdges_nodup := fun _ ↦ .nil }
  live _ _ _ he := absurd he (not_hasEdge_init maxParts subnodeLimit)

theorem Wired.addEdge (h : g.Wired) (hu : g.Live u) (hw : g.Live w) (p : PDGEdge) :
    (g.addEdge u w p).Wired where
  slots := (sameIndex_addEdge ..).slotsOk h.slots
  mirrored := h.mirrored.addEdge ..
  live a q b he := by
    rw [live_addEdge, live_addEdge]
    rcases hasEdge_addEdge.mp he with he | ⟨rfl, -, rfl⟩
    · exact h.live a q b he
    · exact ⟨hu, hw⟩

theorem live_ofEdges {n : ℕ} {es : List (Edge PDGEdge)} :
    (ofEdges n es : PDG Val Fn).Live v ↔ v < n :=
  (sameIndex_addEdges ..).live_iff.trans (and_iff_left rfl)

theorem wired_ofEdges {n : ℕ} {es : List (Edge PDGEdge)}
    (hes : ∀ e ∈ es, e.source < n ∧ e.target < n) : (ofEdges n es : PDG Val Fn).Wired where
  slots := (sameIndex_addEdges ..).slotsOk
    ⟨List.nodup_nil, fun _ ↦ ⟨fun hv ↦ absurd hv List.not_mem_nil,
      fun hv ↦ absurd hv.2 Bool.false_ne_true⟩⟩
  mirrored := mirrored_ofEdges
  live u p w he := by
    rw [live_ofEdges, live_ofEdges]
    exact hes ⟨u, w, p⟩ (hasEdge_ofEdges.mp he)

variable [DecidableEq Fn]

theorem Linked.edges_pdgAddVertex (h : g.Linked) (prop : PDGNode Val Fn) (v : ℕ) :
    (g.pdgAddVertex prop).2.graph.outEdges v = g.graph.outEdges v ∧
      (g.pdgAddVertex prop).2.graph.inEdges v = g.graph.inEdges v := by
  have hout : g.graph.outEdges g.graph.capacity = [] :=
    List.eq_nil_iff_forall_not_mem.mpr fun e he ↦ Nat.lt_irrefl _
      (h.inside _ _ _ (h.mirrored.mem_outEdges_iff.mp he).2).1
  have hin : g.graph.inEdges g.graph.capacity = [] :=
    List.eq_nil_iff_forall_not_mem.mpr fun e he ↦ Nat.lt_irrefl _
      (h.inside _ _ _ (h.mirrored.mem_inEdges_iff_hasEdge.mp he).2).2
  exact ⟨BaseGraph.outEdges_addVertex_of_nil hout prop v,
    BaseGraph.inEdges_addVertex_of_nil hin prop v⟩

theorem Linked.hasEdge_pdgAddVertex (h : g.Linked) {prop : PDGNode Val Fn} :
    (g.pdgAddVertex prop).2.HasEdge u p w ↔ g.HasEdge u p w := by
  unfold HasEdge BaseGraph.HasEdge
  rw [(h.edges_pdgAddVertex prop u).1]

theorem Wired.hasEdge_pdgAddVertex (h : g.Wired) {prop : PDGNode Val Fn} :
    (g.pdgAddVertex prop).2.HasEdge u p w ↔ g.HasEdge u p w := h.linked.hasEdge_pdgAddVertex

theorem Wired.live_pdgAddVertex (h : g.Wired) {prop : PDGNode Val Fn} :
    (g.pdgAddVertex prop).2.Live v ↔ g.Live v ∨ v = (g.pdgAddVertex prop).1 :=
  h.slots.live_addVertex

theorem Wired.pdgAddVertex (h : g.Wired) (prop : PDGNode Val Fn) :
    (g.pdgAddVertex prop).2.Wired where
  slots := h.slots.addVertex prop
  mirrored := h.mirrored.congr (fun v ↦ (h.linked.edges_pdgAddVertex prop v).1)
    fun v ↦ (h.linked.edges_pdgAddVertex prop v).2
  live a q b he := by
    rw [h.live_pdgAddVertex, h.live_pdgAddVertex]
    exact (h.live a q b (h.hasEdge_pdgAddVertex.mp he)).imp Or.inl Or.inl

/-! ## A vertex for a part -/

/-- Add a vertex for a part of `u`, and the edge to it. -/
def addSubnode (g : PDG Val Fn) (u : ℕ) (ty : Ty) (isConstant : Bool) (p : PDGEdge) :
    ℕ × PDG Val Fn :=
  let r := g.pdgAddVertex (g.subnode u ty isConstant)
  (r.1, r.2.addEdge u r.1 p)

section AddSubnode

variable {ty : Ty} {c : Bool}

theorem Wired.not_live_addSubnode (h : g.Wired) : ¬ g.Live (g.addSubnode u ty c p).1 :=
  h.slots.not_live_addVertex _

theorem Wired.live_addSubnode (h : g.Wired) :
    (g.addSubnode u ty c p).2.Live v ↔ g.Live v ∨ v = (g.addSubnode u ty c p).1 :=
  live_addEdge.trans h.live_pdgAddVertex

theorem Wired.hasEdge_addSubnode (h : g.Wired) {a b : ℕ} :
    (g.addSubnode u ty c p).2.HasEdge a q b ↔
      g.HasEdge a q b ∨ a = u ∧ q = p ∧ b = (g.addSubnode u ty c p).1 := by
  refine hasEdge_addEdge.trans ?_
  rw [h.hasEdge_pdgAddVertex]
  rfl

theorem node_addSubnode :
    (g.addSubnode u ty c p).2.node v =
      if v = (g.addSubnode u ty c p).1 then g.subnode u ty c else g.node v := by
  refine (node_addEdge ..).trans ?_
  rw [node_pdgAddVertex]
  rfl

theorem maxParts_addSubnode : (g.addSubnode u ty c p).2.maxParts = g.maxParts := rfl

theorem Wired.addSubnode (h : g.Wired) (hu : g.Live u) : (g.addSubnode u ty c p).2.Wired :=
  (h.pdgAddVertex _).addEdge (h.live_pdgAddVertex.mpr (Or.inl hu))
    (h.live_pdgAddVertex.mpr (Or.inr rfl)) p

theorem Wired.not_hasEdge_new (h : g.Wired) (hu : g.Live u) :
    ¬ (g.addSubnode u ty c p).2.HasEdge (g.addSubnode u ty c p).1 q w := by
  have hnew : ¬ g.Live (g.addSubnode u ty c p).1 := h.not_live_addSubnode
  intro he
  rcases h.hasEdge_addSubnode.mp he with he | ⟨heq, -⟩
  · exact h.not_hasEdge_left hnew he
  · exact hnew (heq.symm ▸ hu)

end AddSubnode

end PDG

end Cali.Passes
