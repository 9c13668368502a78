import Mathlib.Algebra.BigOperators.Group.Finset.Basic
import Cali.Graph.Tarjan
import Cali.Lib.Loop
import Cali.Passes.Subnodes

/-!
# Marking what is shared

`markAsShared` follows the structure of a value, which may be cyclic, and stops at vertices
that are marked.  Here the steps of its calls are put together to a function on graphs.
-/

namespace Cali.Passes

open Cali.Graph Cali.Lib

variable {Val Fn : Type} [DecidableEq Fn]

/-- The configuration after the next step, if there is one. -/
def Config.next (c : Config Val Fn) : Option (Config Val Fn) :=
  match machineStep c with
  | .next c' => some c'
  | _ => none

theorem machineStep_of_next {c c' : Config Val Fn} (h : c.next = some c') :
    machineStep c = .next c' := by
  unfold Config.next at h
  split at h
  · next heq => exact heq.trans (congrArg _ (Option.some.inj h))
  · cases h

namespace PDG

/-- How many edges are stored at the vertices that are not marked. -/
def unmarkedEdges (g : PDG Val Fn) : ℕ :=
  ∑ v ∈ Finset.range g.graph.capacity with (g.node v).ipcsink = false, (g.graph.outEdges v).length

/-- Set `ipcsink`. -/
def setSink (g : PDG Val Fn) (v : ℕ) : PDG Val Fn :=
  g.setNode v { g.node v with ipcsink := true }

/-- `markAsShared`; `none` would mean that it does not end. -/
def markAsShared (g : PDG Val Fn) (v : ℕ) : Option (PDG Val Fn) :=
  (iterate Config.next (g.unmarkedEdges + 2) ⟨g, [.markAsShared v]⟩).map Config.pdg

/-- The second graph is the first one with more vertices marked `ipcsink`. -/
structure SinksAdded (g g' : PDG Val Fn) : Prop where
  capacity : g'.graph.capacity = g.graph.capacity
  outEdges : ∀ v, g'.graph.outEdges v = g.graph.outEdges v
  inEdges : ∀ v, g'.graph.inEdges v = g.graph.inEdges v
  node : ∀ v, g'.node v = g.node v ∨ g'.node v = { g.node v with ipcsink := true }

variable {g g' g'' : PDG Val Fn} {u v w : ℕ} {p : PDGEdge}

omit [DecidableEq Fn] in
theorem SinksAdded.refl (g : PDG Val Fn) : SinksAdded g g :=
  ⟨rfl, fun _ ↦ rfl, fun _ ↦ rfl, fun _ ↦ Or.inl rfl⟩

omit [DecidableEq Fn] in
theorem SinksAdded.trans (h : SinksAdded g g') (h' : SinksAdded g' g'') : SinksAdded g g'' where
  capacity := h'.capacity.trans h.capacity
  outEdges v := (h'.outEdges v).trans (h.outEdges v)
  inEdges v := (h'.inEdges v).trans (h.inEdges v)
  node v := by
    rcases h.node v with hv | hv
    · rw [← hv]
      exact h'.node v
    · rcases h'.node v with hv' | hv'
      · exact Or.inr (hv'.trans hv)
      · rw [hv', hv]
        exact Or.inr rfl

omit [DecidableEq Fn] in
theorem sinksAdded_setSink (g : PDG Val Fn) (v : ℕ) : SinksAdded g (g.setSink v) where
  capacity := rfl
  outEdges _ := outEdges_setNode ..
  inEdges _ := inEdges_setNode ..
  node u := by
    rw [setSink, node_setNode]
    split
    · next h =>
        rw [h]
        exact Or.inr rfl
    · exact Or.inl rfl

omit [DecidableEq Fn] in
theorem SinksAdded.hasEdge_iff (h : SinksAdded g g') : g'.HasEdge u p w ↔ g.HasEdge u p w := by
  unfold HasEdge BaseGraph.HasEdge
  rw [h.outEdges]

omit [DecidableEq Fn] in
theorem SinksAdded.inside (h : SinksAdded g g') (hin : g.graph.Inside) : g'.graph.Inside := by
  intro u w
  unfold BaseGraph.Adj
  rw [h.outEdges, h.capacity]
  exact hin u w

omit [DecidableEq Fn] in
theorem SinksAdded.function (h : SinksAdded g g') (v : ℕ) :
    (g'.node v).function = (g.node v).function := by
  rcases h.node v with hv | hv
  · rw [hv]
  · rw [hv]

omit [DecidableEq Fn] in
theorem SinksAdded.type (h : SinksAdded g g') (v : ℕ) :
    (g'.node v).type = (g.node v).type := by
  rcases h.node v with hv | hv
  · rw [hv]
  · rw [hv]

omit [DecidableEq Fn] in
theorem SinksAdded.reachesIpcSink (h : SinksAdded g g') (v : ℕ) :
    (g'.node v).reachesIpcSink = (g.node v).reachesIpcSink := by
  rcases h.node v with hv | hv
  · rw [hv]
  · rw [hv]

/-! ## Termination -/

omit [DecidableEq Fn] in
theorem unmarkedEdges_setSink (hv : v < g.graph.capacity) (hmark : (g.node v).ipcsink = false) :
    (g.graph.outEdges v).length + (g.setSink v).unmarkedEdges = g.unmarkedEdges := by
  have hset : (Finset.range g.graph.capacity).filter
      (fun u ↦ ((g.setSink v).node u).ipcsink = false) =
      ((Finset.range g.graph.capacity).filter fun u ↦ (g.node u).ipcsink = false).erase v := by
    ext u
    rw [Finset.mem_erase, Finset.mem_filter, Finset.mem_filter, setSink, node_setNode]
    by_cases huv : u = v
    · simp [huv]
    · simp [huv]
  have hmem : v ∈ (Finset.range g.graph.capacity).filter fun u ↦ (g.node u).ipcsink = false :=
    Finset.mem_filter.mpr ⟨Finset.mem_range.mpr hv, hmark⟩
  rw [unmarkedEdges, unmarkedEdges, (sinksAdded_setSink g v).capacity, hset]
  simp only [(sinksAdded_setSink g v).outEdges]
  exact Finset.add_sum_erase _ (fun u ↦ (g.graph.outEdges u).length) hmem

omit [DecidableEq Fn] in
theorem adj_of_mem_markCalls {f : Frame} (h : f ∈ g.markCalls v .markAsShared) :
    ∃ w, g.graph.Adj v w ∧ f = .markAsShared w := by
  obtain ⟨e, he, hcase⟩ := exists_of_mem_markCalls h
  exact ⟨e.target, ⟨e, he, rfl⟩, hcase.elim And.right And.right⟩

/-- The calls that are going on mark vertices of the graph. -/
structure Marking (g : PDG Val Fn) (c : Config Val Fn) : Prop where
  sinksAdded : SinksAdded g c.pdg
  stack : ∀ f ∈ c.stack, ∃ v < g.graph.capacity, f = .markAsShared v

/-- **One step** goes on marking, and there is less to do than before. -/
theorem Marking.next (hin : g.graph.Inside) {c c' : Config Val Fn} (h : Marking g c)
    (hstep : c.next = some c') :
    Marking g c' ∧
      c'.stack.length + c'.pdg.unmarkedEdges < c.stack.length + c.pdg.unmarkedEdges := by
  obtain ⟨hsinks, hstack⟩ := h
  cases frameStep_of_machineStep (machineStep_of_next hstep) with
  | marked =>
    refine ⟨⟨hsinks, (Config.forall_stack hstack).2⟩, ?_⟩
    simp only [List.length_cons]
    omega
  | @mark x v stack hmark =>
    obtain ⟨⟨v', hv, heq⟩, hrest⟩ := Config.forall_stack hstack
    cases heq
    have hlt : v < x.graph.capacity := hsinks.capacity.symm ▸ hv
    have hsum : (x.graph.outEdges v).length + (x.setSink v).unmarkedEdges = x.unmarkedEdges :=
      unmarkedEdges_setSink hlt hmark
    have hlen : (x.markCalls v .markAsShared).length ≤ (x.graph.outEdges v).length :=
      List.length_filterMap_le ..
    refine ⟨⟨hsinks.trans (sinksAdded_setSink x v),
      List.forall_mem_append.mpr ⟨fun f hf ↦ ?_, hrest⟩⟩, ?_⟩
    · obtain ⟨w, hw, rfl⟩ := adj_of_mem_markCalls hf
      have hw := (hsinks.inside hin v w hw).2
      exact ⟨w, hsinks.capacity ▸ hw, rfl⟩
    · change (x.markCalls v .markAsShared ++ stack).length + (x.setSink v).unmarkedEdges <
        (Frame.markAsShared v :: stack).length + x.unmarkedEdges
      rw [List.length_append, List.length_cons]
      omega
  | _ =>
    obtain ⟨w, -, heq⟩ := (Config.forall_stack hstack).1
    cases heq

theorem Marking.stack_eq_nil {c : Config Val Fn} (h : Marking g c) (hend : c.next = none) :
    c.stack = [] := by
  obtain ⟨x, stack⟩ := c
  cases stack with
  | nil => rfl
  | cons f stack =>
    obtain ⟨v, -, rfl⟩ := h.stack f List.mem_cons_self
    simp only [Config.next, machineStep] at hend
    by_cases hmark : (x.node v).ipcsink = true
    · simp only [hmark, if_true] at hend
      cases hend
    · simp only [hmark, Bool.false_eq_true, if_false] at hend
      cases hend

/-- **`markAsShared` ends**, and it changes nothing but the marks. -/
theorem markAsShared_spec (hin : g.graph.Inside) (hv : v < g.graph.capacity) :
    ∃ g', g.markAsShared v = some g' ∧ SinksAdded g g' := by
  have hstart : Marking g ⟨g, [.markAsShared v]⟩ :=
    ⟨.refl g, fun f hf ↦ ⟨v, hv, List.mem_singleton.mp hf⟩⟩
  have hrounds : 1 + g.unmarkedEdges < g.unmarkedEdges + 2 := by omega
  obtain ⟨c, hc, hmarking, -⟩ := iterate_spec
    (fun c : Config Val Fn ↦ c.stack.length + c.pdg.unmarkedEdges)
    (fun c c' h hstep ↦ h.next hin hstep) hstart hrounds
  exact ⟨c.pdg, by rw [markAsShared, hc]; rfl, hmarking.sinksAdded⟩

end PDG

end Cali.Passes
