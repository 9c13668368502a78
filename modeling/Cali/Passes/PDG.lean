import Mathlib.Data.Finset.Basic
import Mathlib.Data.Finset.Lattice.Fold
import Mathlib.Order.Lattice.Nat
import Cali.Graph.BaseGraph

/-!
# The program dependence graph

A vertex of the program dependence graph stands for an LLVM value or for a part of
one.  `Deref` and `Part` edges describe the structure of a value (what a pointer
points to, the members of a struct), the other edges describe how values flow.

Values and functions are opaque: the passes only compare them, so they are type
parameters.  `std::set` and `std::map` are finite sets and functions.
-/

namespace Cali.Passes

open Cali.Graph

/-- The order in which a loop visits the elements of a `std::set`. -/
def ascending (s : Finset ℕ) : List ℕ := (List.range (s.sup id + 1)).filter fun v ↦ v ∈ s

@[simp] theorem mem_ascending {s : Finset ℕ} {v : ℕ} : v ∈ ascending s ↔ v ∈ s := by
  unfold ascending
  rw [List.mem_filter, List.mem_range, decide_eq_true_eq, and_iff_right_iff_imp]
  exact fun h ↦ Nat.lt_succ_of_le (Finset.le_sup (f := id) h)

/-- `PDGEdge::PDGEdgeType` -/
inductive PDGEdgeType where
  | control
  | data
  | equals
  | part
  | deref
  | param
  | return
  | invocation
  | summaryData
  | summaryEquals
  | summaryInvocation
deriving DecidableEq, Repr

/-- `PDGEdge`; `index` is the member of a struct or the position of a parameter. -/
structure PDGEdge where
  type : PDGEdgeType
  index : ℕ
deriving DecidableEq, Repr

/-- A `Data` edge. -/
def PDGEdge.dataEdge : PDGEdge := ⟨.data, 0⟩

/-- The edges that describe the structure of a value. -/
def PDGEdge.Structural (p : PDGEdge) : Prop := p.type = .deref ∨ p.type = .part

instance (p : PDGEdge) : Decidable p.Structural :=
  inferInstanceAs (Decidable (_ ∨ _))

/-- `Deref` edges have no index, and all members behind the limit have the limit as index. -/
def PDGEdge.Clamped (maxParts : ℕ) (p : PDGEdge) : Prop :=
  (p.type = .deref → p.index = 0) ∧ (p.type = .part → p.index ≤ maxParts)

instance (maxParts : ℕ) (p : PDGEdge) : Decidable (p.Clamped maxParts) :=
  inferInstanceAs (Decidable (_ ∧ _))

/-- LLVM types as far as `createSubnodes` looks at them.  A pointer names its target
in a table of types, so that types may be recursive through pointers only. -/
inductive Ty where
  | array (element : Ty)
  | pointer (pointee : ℕ)
  | struct (elements : List Ty)
  | other
deriving Repr

/-- `PDGNode`; `function` is null for globals, `instruction` for parts of a value. -/
structure PDGNode (Val Fn : Type) where
  function : Option Fn := none
  instruction : Option Val := none
  type : Option Ty := none
  subnode : Bool := false
  dummy : Bool := false
  source : Bool := false
  ipcsink : Bool := false
  reachesIpcSink : Bool := false
  constant : Bool := false
  filedescriptor : Bool := false
  sourceType : ℕ := 0

/-- `PDG`, without the two tables about struct clusters. -/
structure PDG (Val Fn : Type) where
  graph : BaseGraph (PDGNode Val Fn) PDGEdge
  valueToVertex : Val → Option ℕ
  maxParts : ℕ
  subnodeLimit : ℤ
  unitedNodes : Finset (ℕ × ℕ)
  functionToVertices : Option Fn → Finset ℕ

namespace PDG

variable {Val Fn : Type}

/-- The graph of the constructor. -/
def init (maxParts : ℕ) (subnodeLimit : ℤ) : PDG Val Fn :=
  ⟨.nil {}, fun _ ↦ none, maxParts, subnodeLimit, ∅, fun _ ↦ ∅⟩

/-- `(*this)[v]` -/
def node (g : PDG Val Fn) (v : ℕ) : PDGNode Val Fn := g.graph.property v

/-- Assign to `(*this)[v]`. -/
def setNode (g : PDG Val Fn) (v : ℕ) (n : PDGNode Val Fn) : PDG Val Fn :=
  { g with graph := g.graph.setProperty v n }

/-- `add_edge` -/
def addEdge (g : PDG Val Fn) (v1 v2 : ℕ) (p : PDGEdge) : PDG Val Fn :=
  { g with graph := g.graph.addEdge v1 v2 p }

/-- `getDerefOpt` -/
def getDerefOpt (g : PDG Val Fn) (v : ℕ) : Option ℕ :=
  ((g.graph.outEdges v).find? fun e ↦ e.property.type = .deref).map (·.target)

/-- `getPartOpt` -/
def getPartOpt (g : PDG Val Fn) (v index : ℕ) : Option ℕ :=
  let index := if index > g.maxParts then g.maxParts else index
  ((g.graph.outEdges v).find? fun e ↦
    e.property.type = .part ∧ e.property.index = index).map (·.target)

/-- Where the edge `p` of another vertex leads to at `v`. -/
def follow (g : PDG Val Fn) (p : PDGEdge) (v : ℕ) : Option ℕ :=
  match p.type with
  | .deref => g.getDerefOpt v
  | .part => g.getPartOpt v p.index
  | _ => none

section FunctionIndex

variable [DecidableEq Fn]

/-- `pdg_add_vertex` -/
def pdgAddVertex (g : PDG Val Fn) (prop : PDGNode Val Fn) : ℕ × PDG Val Fn :=
  let r := g.graph.addVertex prop
  (r.1, { g with
    graph := r.2
    functionToVertices := Function.update g.functionToVertices prop.function
      (insert r.1 (g.functionToVertices prop.function)) })

/-- `pdg_remove_vertex` -/
def pdgRemoveVertex (g : PDG Val Fn) (v : ℕ) : PDG Val Fn :=
  { g with
    functionToVertices := Function.update g.functionToVertices (g.node v).function
      ((g.functionToVertices (g.node v).function).erase v)
    graph := g.graph.removeVertex v }

/-- `updateFunction` -/
def updateFunction (g : PDG Val Fn) (v : ℕ) (function : Option Fn) : PDG Val Fn :=
  let index := Function.update g.functionToVertices (g.node v).function
    ((g.functionToVertices (g.node v).function).erase v)
  { g.setNode v { g.node v with function := function } with
    functionToVertices := Function.update index function (insert v (index function)) }

end FunctionIndex

/-- There is an edge from `u` to `w`. -/
def HasEdge (g : PDG Val Fn) (u : ℕ) (p : PDGEdge) (w : ℕ) : Prop := g.graph.HasEdge u p w

instance (g : PDG Val Fn) (u : ℕ) (p : PDGEdge) (w : ℕ) : Decidable (g.HasEdge u p w) :=
  inferInstanceAs (Decidable (g.graph.HasEdge u p w))

/-- The edges are stored in both directions and join vertices of the graph. -/
structure Linked (g : PDG Val Fn) : Prop where
  mirrored : g.graph.Mirrored
  inside : ∀ u p w, g.HasEdge u p w → u < g.graph.capacity ∧ w < g.graph.capacity

/-! ## Frame lemmas -/

variable {g : PDG Val Fn}

@[simp] theorem node_setNode (v u : ℕ) (n : PDGNode Val Fn) :
    (g.setNode v n).node u = if u = v then n else g.node u :=
  BaseGraph.property_setProperty ..

@[simp] theorem outEdges_setNode (v u : ℕ) (n : PDGNode Val Fn) :
    (g.setNode v n).graph.outEdges u = g.graph.outEdges u :=
  BaseGraph.outEdges_setProperty ..

@[simp] theorem inEdges_setNode (v u : ℕ) (n : PDGNode Val Fn) :
    (g.setNode v n).graph.inEdges u = g.graph.inEdges u :=
  BaseGraph.inEdges_setProperty ..

@[simp] theorem hasEdge_setNode (v : ℕ) (n : PDGNode Val Fn) (u : ℕ) (p : PDGEdge) (w : ℕ) :
    (g.setNode v n).HasEdge u p w ↔ g.HasEdge u p w := by
  unfold HasEdge BaseGraph.HasEdge
  rw [outEdges_setNode]

theorem mirrored_setNode (hm : g.graph.Mirrored) (v : ℕ) (n : PDGNode Val Fn) :
    (g.setNode v n).graph.Mirrored :=
  hm.congr (fun _ ↦ outEdges_setNode ..) fun _ ↦ inEdges_setNode ..

@[simp] theorem node_addEdge (v1 v2 u : ℕ) (p : PDGEdge) :
    (g.addEdge v1 v2 p).node u = g.node u :=
  (BaseGraph.sameNodes_addEdge ..).property u

@[simp] theorem hasEdge_addEdge {v1 v2 u w : ℕ} {p q : PDGEdge} :
    (g.addEdge v1 v2 p).HasEdge u q w ↔ g.HasEdge u q w ∨ u = v1 ∧ q = p ∧ w = v2 :=
  BaseGraph.hasEdge_addEdge

theorem exists_hasEdge_of_follow (hm : g.graph.Mirrored) {v w : ℕ} {p : PDGEdge}
    (h : g.follow p v = some w) : ∃ q, q.type = p.type ∧ g.HasEdge v q w := by
  have hfind : ∀ cond : Edge PDGEdge → Bool, (∀ e, cond e = true → e.property.type = p.type) →
      ((g.graph.outEdges v).find? cond).map (·.target) = some w →
        ∃ q, q.type = p.type ∧ g.HasEdge v q w := by
    intro cond htype hcond
    obtain ⟨e, he, rfl⟩ := Option.map_eq_some_iff.mp hcond
    exact ⟨e.property, htype e (List.find?_some he),
      (hm.mem_outEdges_iff.mp (List.mem_of_find?_eq_some he)).2⟩
  unfold follow at h
  split at h
  · next ht => exact hfind _ (fun e he ↦ (decide_eq_true_eq.mp he).trans ht.symm) h
  · next ht => exact hfind _ (fun e he ↦ (decide_eq_true_eq.mp he).1.trans ht.symm) h
  · cases h

end PDG

end Cali.Passes
