import Cali.Passes.Reachability
import Cali.Passes.TypeTree

/-!
# What `getVertex` and the marks leave as it was

`getVertex` may create a vertex and the tree of its parts.  All of them are new, so what
was in the graph before stays there with the same edges, in the same order; a vertex may
only get a function it did not have.  Setting `reaches_ipc_sink` changes no edges either.
-/

namespace Cali.Passes

open Cali.Graph

variable {Val Fn : Type}

namespace PDG

/-- The vertices of `g` are in `g'` with the same edges, and with at least the same marks. -/
structure Extends (g g' : PDG Val Fn) : Prop where
  live : ∀ v, g.Live v → g'.Live v
  outEdges : ∀ v, g.Live v → g'.graph.outEdges v = g.graph.outEdges v
  inEdges : ∀ v, g.Live v → g'.graph.inEdges v = g.graph.inEdges v
  ipcsink : ∀ v, g.Live v → (g.node v).ipcsink = true → (g'.node v).ipcsink = true
  reaches : ∀ v, g.Live v → (g.node v).reachesIpcSink = true → (g'.node v).reachesIpcSink = true
  valueToVertex : ∀ value v, g.valueToVertex value = some v → g'.valueToVertex value = some v
  maxParts : g'.maxParts = g.maxParts

variable {g g' g'' x : PDG Val Fn} {u v w root : ℕ} {p : PDGEdge}

theorem Extends.refl (g : PDG Val Fn) : Extends g g :=
  ⟨fun _ h ↦ h, fun _ _ ↦ rfl, fun _ _ ↦ rfl, fun _ _ h ↦ h, fun _ _ h ↦ h, fun _ _ h ↦ h, rfl⟩

theorem Extends.trans (h : Extends g g') (h' : Extends g' g'') : Extends g g'' where
  live v hv := h'.live v (h.live v hv)
  outEdges v hv := (h'.outEdges v (h.live v hv)).trans (h.outEdges v hv)
  inEdges v hv := (h'.inEdges v (h.live v hv)).trans (h.inEdges v hv)
  ipcsink v hv hsink := h'.ipcsink v (h.live v hv) (h.ipcsink v hv hsink)
  reaches v hv hreach := h'.reaches v (h.live v hv) (h.reaches v hv hreach)
  valueToVertex value v hv := h'.valueToVertex value v (h.valueToVertex value v hv)
  maxParts := h'.maxParts.trans h.maxParts

theorem Extends.marked (h : Extends g g') (hv : g.Live v) (hmark : g.Marked v) : g'.Marked v :=
  hmark.imp (h.ipcsink v hv) (h.reaches v hv)

theorem Extends.hasEdge_iff (h : Extends g g') (hu : g.Live u) :
    g'.HasEdge u p w ↔ g.HasEdge u p w := by
  unfold HasEdge BaseGraph.HasEdge
  rw [h.outEdges u hu]

theorem Extends.getDerefOpt (h : Extends g g') (hv : g.Live v) :
    g'.getDerefOpt v = g.getDerefOpt v := by
  unfold PDG.getDerefOpt
  rw [h.outEdges v hv]

theorem Extends.getPartOpt (h : Extends g g') (hv : g.Live v) (i : ℕ) :
    g'.getPartOpt v i = g.getPartOpt v i := by
  unfold PDG.getPartOpt
  rw [h.outEdges v hv, h.maxParts]

/-! ## Assigning to a node -/

theorem live_setNode {n : PDGNode Val Fn} : (g.setNode u n).Live v ↔ g.Live v :=
  BaseGraph.live_setProperty

theorem Wired.setNode (h : g.Wired) (v : ℕ) (n : PDGNode Val Fn) : (g.setNode v n).Wired where
  slots := h.slots.setProperty v n
  mirrored := mirrored_setNode h.mirrored v n
  live a q b he := by
    rw [live_setNode, live_setNode]
    exact h.live a q b ((hasEdge_setNode ..).mp he)

theorem extends_setNode {n : PDGNode Val Fn}
    (hsink : (g.node u).ipcsink = true → n.ipcsink = true)
    (hreach : (g.node u).reachesIpcSink = true → n.reachesIpcSink = true) :
    Extends g (g.setNode u n) where
  live _ := live_setNode.mpr
  outEdges _ _ := outEdges_setNode ..
  inEdges _ _ := inEdges_setNode ..
  ipcsink v _ h := by
    rw [node_setNode]
    split
    · next heq => exact hsink (heq ▸ h)
    · exact h
  reaches v _ h := by
    rw [node_setNode]
    split
    · next heq => exact hreach (heq ▸ h)
    · exact h
  valueToVertex _ _ h := h
  maxParts := rfl

theorem extends_setReaches (g : PDG Val Fn) (v : ℕ) : Extends g (g.setReaches v) :=
  extends_setNode (fun h ↦ h) fun _ ↦ rfl

/-! ## `getVertex` -/

variable [DecidableEq Fn]

/-- The tree below `root` changes nothing at the other vertices. -/
theorem Grows.edges_eq {added : List Added} (h : Grows g root added x) (hg : g.Wired)
    (hroot : g.Live root) (hv : g.Live v) (hne : v ≠ root) :
    x.graph.outEdges v = g.graph.outEdges v ∧ x.graph.inEdges v = g.graph.inEdges v := by
  induction h with
  | refl => exact ⟨rfl, rfl⟩
  | @add added x u n p ty c h hu hp ih =>
    have ht := h.tree hg hroot
    have hlive : x.Live v := (ht.live_iff v).mpr (Or.inl hv)
    have hnew : v ≠ (x.addSubnode u ty c p).1 := fun heq ↦
      ht.wired.not_live_addSubnode (heq ▸ hlive)
    have hvu : v ≠ u := by
      rintro rfl
      rcases hu with ⟨heq, -⟩ | ⟨a, ha, heq, -⟩
      · exact hne heq
      · exact ht.fresh a ha (heq ▸ hv)
    have hadd := ht.wired.linked.edges_pdgAddVertex (x.subnode u ty c) v
    have hout := BaseGraph.outEdges_addEdge (g := (x.pdgAddVertex (x.subnode u ty c)).2.graph) u
      (x.addSubnode u ty c p).1 v p
    have hin := BaseGraph.inEdges_addEdge (g := (x.pdgAddVertex (x.subnode u ty c)).2.graph) u
      (x.addSubnode u ty c p).1 v p
    rw [if_neg hvu, hadd.1, ih.1] at hout
    rw [if_neg fun h ↦ hnew h.1, hadd.2, ih.2] at hin
    exact ⟨hout, hin⟩

theorem Grows.valueToVertex_eq {added : List Added} (h : Grows g root added x) :
    x.valueToVertex = g.valueToVertex := by
  induction h with
  | refl => rfl
  | add _ _ _ _ _ ih => exact ih

/-- `createSubnodes` for a vertex that has no parts yet. -/
theorem grows_createSubnodes (llvm : Llvm Val Fn) (limit : ℤ) (hg : g.Wired) (hroot : g.Live root)
    (hnone : ∀ p w, p.Structural → ¬ g.HasEdge root p w) :
    ∃ added, Grows g root added (g.createSubnodes llvm root limit) := by
  unfold createSubnodes createSubnodesInt
  split
  · next ty _ =>
      have hbuilt := createSubnodesOf_built llvm g root ty limit hg hroot hnone
      cases hx : createSubnodesOf llvm g root ty limit with
      | none => exact ⟨[], .refl⟩
      | some x =>
        rw [hx] at hbuilt
        obtain ⟨-, ⟨added, hadded⟩, -⟩ := hbuilt
        exact ⟨added, hadded.grows⟩
  · exact ⟨[], .refl⟩

theorem extends_updateFunction (g : PDG Val Fn) (v : ℕ) (function : Option Fn) :
    Extends g (g.updateFunction v function) :=
  let h : Extends g (g.setNode v { g.node v with function := function }) :=
    extends_setNode (fun h ↦ h) fun h ↦ h
  ⟨h.live, h.outEdges, h.inEdges, h.ipcsink, h.reaches, h.valueToVertex, h.maxParts⟩

theorem Wired.updateFunction (h : g.Wired) (v : ℕ) (function : Option Fn) :
    (g.updateFunction v function).Wired :=
  let hset := h.setNode v { g.node v with function := function }
  ⟨hset.slots, hset.mirrored, hset.live⟩

variable [DecidableEq Val]

/-- What `createVertex` makes is new. -/
theorem createVertex_spec (llvm : Llvm Val Fn) {value : Val} (function : Option Fn) (hg : g.Wired)
    (hvalue : g.valueToVertex value = none) :
    (g.createVertex llvm value function).2.Wired ∧
      Extends g (g.createVertex llvm value function).2 := by
  let r := g.pdgAddVertex (valueNode llvm value function)
  let g₁ : PDG Val Fn :=
    { r.2 with valueToVertex := Function.update r.2.valueToVertex value (some r.1) }
  have hr := hg.pdgAddVertex (valueNode llvm value function)
  have hg₁ : g₁.Wired := ⟨hr.slots, hr.mirrored, hr.live⟩
  have hnew : ¬ g.Live r.1 := hg.slots.not_live_addVertex _
  have hlive₁ : ∀ v, g.Live v → g₁.Live v := fun v hv ↦ hg.live_pdgAddVertex.mpr (Or.inl hv)
  have hnode : ∀ v, g.Live v → g₁.node v = g.node v := by
    intro v hv
    have hne : v ≠ r.1 := fun heq ↦ hnew (heq ▸ hv)
    exact (node_pdgAddVertex _ v).trans (if_neg hne)
  have hvalues : ∀ value' v, g.valueToVertex value' = some v →
      g₁.valueToVertex value' = some v := by
    intro value' v hv
    have hne : value' ≠ value := by
      rintro rfl
      rw [hvalue] at hv
      cases hv
    exact (Function.update_of_ne hne ..).trans hv
  have hext : Extends g g₁ :=
    ⟨hlive₁, fun v _ ↦ (hg.linked.edges_pdgAddVertex _ v).1,
      fun v _ ↦ (hg.linked.edges_pdgAddVertex _ v).2,
      fun v hv h ↦ (hnode v hv).symm ▸ h, fun v hv h ↦ (hnode v hv).symm ▸ h, hvalues, rfl⟩
  change (if (llvm.asFunction value).isNone then g₁.createSubnodes llvm r.1 g₁.subnodeLimit
      else g₁).Wired ∧
    Extends g (if (llvm.asFunction value).isNone then g₁.createSubnodes llvm r.1 g₁.subnodeLimit
      else g₁)
  split
  · have hroot : g₁.Live r.1 := hg.live_pdgAddVertex.mpr (Or.inr rfl)
    have hnone : ∀ p w, p.Structural → ¬ g₁.HasEdge r.1 p w := fun p w _ he ↦
      hg.not_hasEdge_left hnew (hg.hasEdge_pdgAddVertex.mp he)
    obtain ⟨added, hgrows⟩ := grows_createSubnodes llvm g₁.subnodeLimit hg₁ hroot hnone
    have ht := hgrows.tree hg₁ hroot
    -- the vertices of `g` are not the root of the tree
    have hedges : ∀ v, g.Live v → _ := fun v hv ↦
      hgrows.edges_eq hg₁ hroot (hlive₁ v hv) fun heq ↦ hnew (heq ▸ hv)
    refine ⟨ht.wired, fun v hv ↦ (ht.live_iff v).mpr (Or.inl (hlive₁ v hv)),
      fun v hv ↦ (hedges v hv).1.trans (hext.outEdges v hv),
      fun v hv ↦ (hedges v hv).2.trans (hext.inEdges v hv), fun v hv h ↦ ?_, fun v hv h ↦ ?_,
      fun value' v hv ↦ ?_, ht.maxParts⟩
    · rw [ht.node_eq v (hlive₁ v hv)]
      exact hext.ipcsink v hv h
    · rw [ht.node_eq v (hlive₁ v hv)]
      exact hext.reaches v hv h
    · rw [hgrows.valueToVertex_eq]
      exact hvalues value' v hv
  · exact ⟨hg₁, hext⟩

/-- `getVertex` keeps what is there. -/
theorem getVertex_spec (llvm : Llvm Val Fn) (value : Val) (function : Option Fn) (hg : g.Wired) :
    (g.getVertex llvm value function).2.Wired ∧ Extends g (g.getVertex llvm value function).2 := by
  unfold getVertex
  split
  · dsimp only
    split
    · exact ⟨hg.updateFunction _ function, extends_updateFunction g _ function⟩
    · exact ⟨hg, .refl g⟩
  · next hvalue => exact createVertex_spec llvm function hg hvalue

theorem getVertex_fst {llvm : Llvm Val Fn} {value : Val} {function : Option Fn}
    (h : g.valueToVertex value = some v) : (g.getVertex llvm value function).1 = v := by
  unfold getVertex
  rw [h]

end PDG

end Cali.Passes
