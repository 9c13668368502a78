import Mathlib.Data.List.Flatten
import Cali.Graph.BottomUp
import Cali.Graph.Condensation

/-!
# Data-driven strongly connected components

`DataDrivenSCCPass.cpp` builds a graph of the calls that transfer data, condenses it to
the graph of its strongly connected components and stores these bottom-up, callees
before callers.  Which calls are considered is decided elsewhere; here the call graph is
whatever a sequence of `getVertex` and `add_edge` builds.

`Built` relates the graph to the functions and calls it has been built from.  The order
of the components then follows from what is known of the three algorithms the pass is
composed of.
-/

namespace Cali.Passes

open Cali.Graph Relation

variable {Fn : Type}

/-- `DataCallGraph`; the properties are pointers to functions. -/
structure DataCallGraph (Fn : Type) where
  graph : BaseGraph (Option Fn) Unit
  functionToVertex : Fn → Option ℕ

/-- What the pass does to the graph while it looks at functions and calls. -/
inductive CallGraphOp (Fn : Type)
  | getVertex (function : Fn)
  | addEdge (caller callee : Fn)
deriving DecidableEq, Repr

/-- The functions an operation names. -/
def CallGraphOp.functions : CallGraphOp Fn → List Fn
  | .getVertex function => [function]
  | .addEdge caller callee => [caller, callee]

namespace DataCallGraph

/-- The empty graph. -/
def empty : DataCallGraph Fn := ⟨.nil none, fun _ ↦ none⟩

/-- `add_edge`, with an empty property. -/
def addEdge (d : DataCallGraph Fn) (v1 v2 : ℕ) : DataCallGraph Fn :=
  { d with graph := d.graph.addEdge v1 v2 () }

/-- The part of `runOnModule` after the graph has been built: `dataSCCs`. -/
def dataSCCs (d : DataCallGraph Fn) : Option (List (List (Option Fn))) := do
  let (_, sccGraph) ← d.graph.strongComponentsGraph (.nil [] : BaseGraph (List ℕ) Unit)
  sccGraph.bottomUpTraversal
    (fun v dataSCCs ↦ dataSCCs ++ [(sccGraph.property v).map d.graph.property]) []

variable [DecidableEq Fn]

/-- `getVertex` -/
def getVertex (d : DataCallGraph Fn) (function : Fn) : ℕ × DataCallGraph Fn :=
  match d.functionToVertex function with
  | some v => (v, d)
  | none =>
    let (v, graph) := d.graph.addVertex (some function)
    (v, ⟨graph, Function.update d.functionToVertex function (some v)⟩)

/-- One operation on the graph. -/
def exec (d : DataCallGraph Fn) : CallGraphOp Fn → DataCallGraph Fn
  | .getVertex function => (d.getVertex function).2
  | .addEdge caller callee =>
    let (v1, d) := d.getVertex caller
    let (v2, d) := d.getVertex callee
    d.addEdge v1 v2

/-- The graph that is built from the empty one. -/
def build (ops : List (CallGraphOp Fn)) : DataCallGraph Fn := ops.foldl exec empty

/-! ## The graph represents the calls -/

/-- `d` has a vertex for each of the functions and an edge for each of the calls. -/
structure Built (functions : Fn → Prop) (calls : Fn → Fn → Prop) (d : DataCallGraph Fn) :
    Prop where
  packed : d.graph.Packed
  vertex_iff : ∀ f v, d.functionToVertex f = some v ↔
    v < d.graph.capacity ∧ d.graph.property v = some f
  named : ∀ v < d.graph.capacity, ∃ f, d.functionToVertex f = some v
  function_iff : ∀ f, functions f ↔ ∃ v, d.functionToVertex f = some v
  calls_functions : ∀ f g, calls f g → functions f ∧ functions g
  adj_iff : ∀ v w, d.graph.Adj v w ↔
    ∃ f g, calls f g ∧ d.functionToVertex f = some v ∧ d.functionToVertex g = some w

variable {functions : Fn → Prop} {calls : Fn → Fn → Prop} {d : DataCallGraph Fn} {f g : Fn}
  {v w : ℕ}

omit [DecidableEq Fn] in
theorem built_empty : Built (fun _ : Fn ↦ False) (fun _ _ ↦ False) empty where
  packed := BaseGraph.packed_nil none
  vertex_iff _ v := ⟨nofun, fun h ↦ absurd h.1 (Nat.not_lt_zero v)⟩
  named v hv := absurd hv (Nat.not_lt_zero v)
  function_iff _ := ⟨nofun, nofun⟩
  calls_functions := nofun
  adj_iff _ _ := ⟨fun ⟨_, he, _⟩ ↦ (nomatch he), nofun⟩

theorem Built.addVertex (h : Built functions calls d) (hf : d.functionToVertex f = none) :
    Built (fun x ↦ functions x ∨ x = f) calls
      ⟨(d.graph.addVertex (some f)).2,
        Function.update d.functionToVertex f (some d.graph.capacity)⟩ := by
  have hnot : ¬ functions f := fun hfun ↦ by
    obtain ⟨v, hv⟩ := (h.function_iff f).mp hfun
    exact nomatch hf.symm.trans hv
  have hold : ∀ x, x ≠ f → Function.update d.functionToVertex f (some d.graph.capacity) x =
      d.functionToVertex x := fun x hx ↦ Function.update_of_ne hx ..
  have hself : Function.update d.functionToVertex f (some d.graph.capacity) f =
      some d.graph.capacity := Function.update_self ..
  have hne : ∀ x, functions x → x ≠ f := fun x hx hxf ↦ hnot (hxf ▸ hx)
  have hcap := h.packed.capacity_addVertex (some f)
  refine ⟨h.packed.addVertex _, fun x v ↦ ?_, fun v hv ↦ ?_, fun x ↦ ?_,
    fun x y hxy ↦ (h.calls_functions x y hxy).imp Or.inl Or.inl, fun v w ↦ ?_⟩
  · simp only
    rw [hcap, BaseGraph.property_addVertex, h.packed.addVertex_fst]
    by_cases hx : x = f
    · subst hx
      rw [hself, Option.some.injEq]
      by_cases hv : v = d.graph.capacity
      · simp [hv]
      · -- an old vertex does not carry the new function
        rw [if_neg hv]
        refine ⟨fun heq ↦ absurd heq.symm hv, fun ⟨hlt, hprop⟩ ↦ ?_⟩
        have hv' := (h.vertex_iff x v).mpr ⟨by omega, hprop⟩
        exact nomatch hf.symm.trans hv'
    · rw [hold x hx, h.vertex_iff]
      by_cases hv : v = d.graph.capacity
      · simp [hv, Ne.symm hx]
      · rw [if_neg hv]
        exact and_congr_left fun _ ↦ by omega
  · simp only at hv ⊢
    rw [hcap] at hv
    by_cases hvc : v = d.graph.capacity
    · exact ⟨f, hvc ▸ hself⟩
    · obtain ⟨x, hx⟩ := h.named v (by omega)
      exact ⟨x, (hold x (hne x ((h.function_iff x).mpr ⟨v, hx⟩))).trans hx⟩
  · simp only
    by_cases hx : x = f
    · subst hx
      exact ⟨fun _ ↦ ⟨_, hself⟩, fun _ ↦ Or.inr rfl⟩
    · rw [or_iff_left hx, hold x hx]
      exact h.function_iff x
  · simp only
    rw [h.packed.adj_addVertex, h.adj_iff]
    refine exists₂_congr fun x y ↦ and_congr_right fun hxy ↦ ?_
    obtain ⟨hx, hy⟩ := h.calls_functions x y hxy
    rw [hold x (hne x hx), hold y (hne y hy)]

/-- `getVertex` gives the vertex of the function, which it may have added. -/
theorem Built.getVertex (h : Built functions calls d) (f : Fn) :
    Built (fun x ↦ functions x ∨ x = f) calls (d.getVertex f).2 ∧
      (d.getVertex f).2.functionToVertex f = some (d.getVertex f).1 ∧
      ∀ x v, d.functionToVertex x = some v →
        (d.getVertex f).2.functionToVertex x = some v := by
  unfold DataCallGraph.getVertex
  cases hf : d.functionToVertex f with
  | some v =>
    have hfun : functions f := (h.function_iff f).mpr ⟨v, hf⟩
    have heq : (fun x ↦ functions x ∨ x = f) = functions :=
      funext fun x ↦ propext (or_iff_left_of_imp fun hx ↦ hx ▸ hfun)
    rw [heq]
    exact ⟨h, hf, fun _ _ hx ↦ hx⟩
  | none =>
    simp only [h.packed.addVertex_fst]
    refine ⟨h.addVertex hf, Function.update_self .., fun x v hx ↦ ?_⟩
    have hxf : x ≠ f := by
      rintro rfl
      exact nomatch hf.symm.trans hx
    rw [Function.update_of_ne hxf]
    exact hx

omit [DecidableEq Fn] in
theorem Built.addEdge (h : Built functions calls d) (hf : d.functionToVertex f = some v)
    (hg : d.functionToVertex g = some w) :
    Built functions (fun x y ↦ calls x y ∨ x = f ∧ y = g) (d.addEdge v w) := by
  have hsame := BaseGraph.sameNodes_addEdge d.graph v w ()
  refine ⟨h.packed.addEdge ((h.vertex_iff f v).mp hf).1 ((h.vertex_iff g w).mp hg).1 (),
    fun x u ↦ ?_, fun u hu ↦ h.named u (hsame.capacity ▸ hu), h.function_iff,
    fun x y hxy ↦ ?_, fun u u' ↦ ?_⟩
  · simp only [DataCallGraph.addEdge]
    rw [hsame.capacity, hsame.property]
    exact h.vertex_iff x u
  · rcases hxy with hxy | ⟨rfl, rfl⟩
    · exact h.calls_functions x y hxy
    · exact ⟨(h.function_iff x).mpr ⟨v, hf⟩, (h.function_iff y).mpr ⟨w, hg⟩⟩
  · simp only [DataCallGraph.addEdge]
    rw [BaseGraph.adj_addEdge, h.adj_iff]
    constructor
    · rintro (⟨x, y, hxy, hx, hy⟩ | ⟨rfl, rfl⟩)
      · exact ⟨x, y, Or.inl hxy, hx, hy⟩
      · exact ⟨f, g, Or.inr ⟨rfl, rfl⟩, hf, hg⟩
    · rintro ⟨x, y, hxy | ⟨rfl, rfl⟩, hx, hy⟩
      · exact Or.inl ⟨x, y, hxy, hx, hy⟩
      · rw [hf, Option.some.injEq] at hx
        rw [hg, Option.some.injEq] at hy
        exact Or.inr ⟨hx.symm, hy.symm⟩

theorem Built.exec (h : Built functions calls d) (op : CallGraphOp Fn) :
    Built (fun x ↦ functions x ∨ x ∈ op.functions)
      (fun x y ↦ calls x y ∨ op = .addEdge x y) (d.exec op) := by
  cases op with
  | getVertex f =>
    have h' := (h.getVertex f).1
    simpa [CallGraphOp.functions, DataCallGraph.exec] using h'
  | addEdge f g =>
    obtain ⟨h₁, hf, -⟩ := h.getVertex f
    obtain ⟨h₂, hg, hkeep⟩ := h₁.getVertex g
    have h₃ := h₂.addEdge (hkeep f _ hf) hg
    simpa [CallGraphOp.functions, DataCallGraph.exec, or_assoc, eq_comm] using h₃

/-- **The graph that a sequence of operations builds.** -/
theorem built_build (ops : List (CallGraphOp Fn)) :
    Built (· ∈ ops.flatMap CallGraphOp.functions) (fun f g ↦ .addEdge f g ∈ ops) (build ops) := by
  induction ops using List.reverseRecOn with
  | nil => simpa [build] using built_empty
  | append_singleton ops op ih =>
    unfold build at ih ⊢
    rw [List.foldl_concat]
    simpa [eq_comm] using ih.exec op

omit [DecidableEq Fn] in
theorem Built.reach_iff (h : Built functions calls d) (hf : d.functionToVertex f = some v)
    (hg : d.functionToVertex g = some w) :
    ReflTransGen d.graph.Adj v w ↔ ReflTransGen calls f g := by
  constructor
  · intro hreach
    induction hreach generalizing g with
    | refl =>
      have hprop := ((h.vertex_iff f v).mp hf).2.symm.trans ((h.vertex_iff g v).mp hg).2
      obtain rfl := Option.some.inj hprop
      exact .refl
    | @tail w' w _ hadj ih =>
      obtain ⟨x, y, hxy, hx, hy⟩ := (h.adj_iff w' w).mp hadj
      have hprop := ((h.vertex_iff y w).mp hy).2.symm.trans ((h.vertex_iff g w).mp hg).2
      obtain rfl := Option.some.inj hprop
      exact (ih hx).tail hxy
  · intro hreach
    induction hreach generalizing w with
    | refl =>
      obtain rfl := Option.some.inj (hf.symm.trans hg)
      exact .refl
    | @tail x y _ hxy ih =>
      obtain ⟨w', hw'⟩ := (h.function_iff x).mp (h.calls_functions x y hxy).1
      exact (ih hw').tail ((h.adj_iff w' w).mpr ⟨x, y, hxy, hw', hg⟩)

/-! ## The order of the components -/

/-- The lists are the strongly connected components of the calls, callees before
callers: every function is in one of them and in no other one, and not twice. -/
structure SccOrder (functions : Fn → Prop) (calls : Fn → Fn → Prop)
    (sccs : List (List (Option Fn))) : Prop where
  nonempty : ∀ scc ∈ sccs, scc ≠ []
  mem_iff : ∀ x, x ∈ sccs.flatten ↔ ∃ f, functions f ∧ x = some f
  nodup : sccs.flatten.Nodup
  same_iff : ∀ f g, functions f → functions g →
    ((∃ scc ∈ sccs, some f ∈ scc ∧ some g ∈ scc) ↔
      ReflTransGen calls f g ∧ ReflTransGen calls g f)
  before : ∀ f g, calls f g → ¬ ReflTransGen calls g f →
    ∃ first sccg between sccf last, sccs = first ++ sccg :: (between ++ sccf :: last) ∧
      some g ∈ sccg ∧ some f ∈ sccf

omit [DecidableEq Fn] in
theorem Built.dataSCCs_eq (h : Built functions calls d) :
    ∃ total components order, BaseGraph.Components d.graph total components ∧
      d.dataSCCs = some (order.map fun c ↦
        ((List.range d.graph.capacity).filter (components · = c)).map d.graph.property) ∧
      order.Nodup ∧ (∀ c, c ∈ order ↔ c < total) ∧
      ∀ v w, d.graph.Adj v w → components v ≠ components w →
        ∀ first last, order = first ++ components v :: last → components w ∈ first := by
  obtain ⟨total, components, out, hout, hcomp, hcond⟩ :=
    BaseGraph.strongComponentsGraph_spec (K := Unit) h.packed.inside
  obtain ⟨order, horder, hnodup, hmem, hordered⟩ :=
    BaseGraph.bottomUpOrder_spec hcond.packed.mirrored hcond.packed.inside
  -- edges between components lead to smaller numbers, so every component gets its turn
  have hall : ∀ c < total, c ∈ order := by
    intro c
    induction c using Nat.strong_induction_on with
    | _ c ih =>
      intro hc
      refine (hmem c).mpr ⟨hcond.capacity ▸ hc, fun e he ↦ ?_⟩
      obtain ⟨hne, v, -, w, hvw, rfl, hw⟩ := (hcond.adj_iff c e.target).mp ⟨e, he, rfl⟩
      have hle := hcomp.le v w hvw
      exact ih e.target (by omega) (by omega)
  refine ⟨total, components, order, hcomp, ?_, hnodup, fun c ↦ ⟨fun hc ↦ ?_, hall c⟩, ?_⟩
  · unfold dataSCCs BaseGraph.bottomUpTraversal
    simp only [hout, horder, Option.bind_eq_bind, Option.bind_some, Option.map_some,
      hcond.property]
    congr 1
    rw [List.map_eq_flatMap, List.flatMap_eq_foldl]
  · exact hcond.capacity ▸ ((hmem c).mp hc).1
  · intro v w hvw hne first last heq
    obtain ⟨e, he, hw⟩ := (hcond.adj_iff (components v) (components w)).mpr
      ⟨hne, v, List.mem_range.mpr (h.packed.inside v w hvw).1, w, hvw, rfl, rfl⟩
    exact hw ▸ hordered first _ last heq e he

omit [DecidableEq Fn] in
theorem Built.property_eq_iff (h : Built functions calls d) (hv : v < d.graph.capacity) :
    d.graph.property v = some f ↔ d.functionToVertex f = some v := by
  rw [h.vertex_iff, and_iff_right hv]

omit [DecidableEq Fn] in
theorem Built.property_inj (h : Built functions calls d) (hv : v < d.graph.capacity)
    (hw : w < d.graph.capacity) (heq : d.graph.property v = d.graph.property w) : v = w := by
  obtain ⟨f, hf⟩ := h.named v hv
  have hf' := (h.property_eq_iff hw).mp (heq ▸ (h.property_eq_iff hv).mpr hf)
  exact Option.some.inj (hf.symm.trans hf')

omit [DecidableEq Fn] in
theorem Built.mem_component_iff (h : Built functions calls d)
    (hf : d.functionToVertex f = some v) {p : ℕ → Bool} :
    some f ∈ ((List.range d.graph.capacity).filter p).map d.graph.property ↔ p v = true := by
  have hv := ((h.vertex_iff f v).mp hf).1
  rw [List.mem_map]
  constructor
  · rintro ⟨w, hw, hprop⟩
    obtain ⟨hlt, hpw⟩ := List.mem_filter.mp hw
    have hfw := (h.property_eq_iff (List.mem_range.mp hlt)).mp hprop
    rwa [Option.some.inj (hf.symm.trans hfw)]
  · intro hpv
    exact ⟨v, List.mem_filter.mpr ⟨List.mem_range.mpr hv, hpv⟩, (h.property_eq_iff hv).mpr hf⟩

omit [DecidableEq Fn] in
theorem Built.sccOrder (h : Built functions calls d) :
    ∃ sccs, d.dataSCCs = some sccs ∧ SccOrder functions calls sccs := by
  obtain ⟨total, components, order, hcomp, hsccs, hnodup, hmem, hbefore⟩ := h.dataSCCs_eq
  refine ⟨_, hsccs, ?_, fun x ↦ ?_, ?_, fun f g hf hg ↦ ?_, fun f g hfg hnot ↦ ?_⟩
  · intro scc hscc
    obtain ⟨c, hc, rfl⟩ := List.mem_map.mp hscc
    obtain ⟨v, hv, rfl⟩ := hcomp.used c ((hmem c).mp hc)
    exact List.ne_nil_of_mem (List.mem_map_of_mem
      (List.mem_filter.mpr ⟨List.mem_range.mpr hv, decide_eq_true rfl⟩))
  · rw [List.mem_flatten]
    constructor
    · rintro ⟨scc, hscc, hx⟩
      obtain ⟨c, -, rfl⟩ := List.mem_map.mp hscc
      obtain ⟨v, hv, rfl⟩ := List.mem_map.mp hx
      have hlt := List.mem_range.mp (List.mem_filter.mp hv).1
      obtain ⟨f, hf⟩ := h.named v hlt
      exact ⟨f, (h.function_iff f).mpr ⟨v, hf⟩, (h.property_eq_iff hlt).mpr hf⟩
    · rintro ⟨f, hf, rfl⟩
      obtain ⟨v, hv⟩ := (h.function_iff f).mp hf
      have hlt := ((h.vertex_iff f v).mp hv).1
      exact ⟨_, List.mem_map_of_mem ((hmem _).mpr (hcomp.lt v hlt)),
        (h.mem_component_iff hv).mpr (decide_eq_true rfl)⟩
  · refine List.nodup_flatten.mpr ⟨fun scc hscc ↦ ?_, ?_⟩
    · obtain ⟨c, -, rfl⟩ := List.mem_map.mp hscc
      refine List.Nodup.map_on (fun v hv w hw ↦ h.property_inj ?_ ?_) (List.nodup_range.filter _)
      · exact List.mem_range.mp (List.mem_filter.mp hv).1
      · exact List.mem_range.mp (List.mem_filter.mp hw).1
    · refine List.pairwise_map.mpr (hnodup.imp fun {c c'} hne x hx hx' ↦ hne ?_)
      obtain ⟨v, hv, rfl⟩ := List.mem_map.mp hx
      obtain ⟨w, hw, hvw⟩ := List.mem_map.mp hx'
      obtain ⟨hv, hvc⟩ := List.mem_filter.mp hv
      obtain ⟨hw, hwc⟩ := List.mem_filter.mp hw
      obtain rfl := h.property_inj (List.mem_range.mp hw) (List.mem_range.mp hv) hvw
      exact (of_decide_eq_true hvc).symm.trans (of_decide_eq_true hwc)
  · obtain ⟨v, hv⟩ := (h.function_iff f).mp hf
    obtain ⟨w, hw⟩ := (h.function_iff g).mp hg
    have hlt := ((h.vertex_iff f v).mp hv).1
    rw [← h.reach_iff hv hw, ← h.reach_iff hw hv,
      ← hcomp.eq_iff v hlt w ((h.vertex_iff g w).mp hw).1]
    simp only [List.mem_map, exists_exists_and_eq_and, h.mem_component_iff hv,
      h.mem_component_iff hw, decide_eq_true_eq]
    constructor
    · rintro ⟨c, -, rfl, hc⟩
      exact hc.symm
    · intro heq
      exact ⟨components v, (hmem _).mpr (hcomp.lt v hlt), rfl, heq.symm⟩
  · obtain ⟨hf, hg⟩ := h.calls_functions f g hfg
    obtain ⟨v, hv⟩ := (h.function_iff f).mp hf
    obtain ⟨w, hw⟩ := (h.function_iff g).mp hg
    have hadj : d.graph.Adj v w := (h.adj_iff v w).mpr ⟨f, g, hfg, hv, hw⟩
    obtain ⟨hltv, hltw⟩ := h.packed.inside v w hadj
    have hne : components v ≠ components w := fun heq ↦
      hnot ((h.reach_iff hw hv).mp ((hcomp.eq_iff v hltv w hltw).mp heq).2)
    obtain ⟨first, last, hsplit⟩ := List.append_of_mem ((hmem _).mpr (hcomp.lt v hltv))
    obtain ⟨first, between, rfl⟩ := List.append_of_mem (hbefore v w hadj hne first last hsplit)
    have hmap : ∀ scc : ℕ → List (Option Fn), order.map scc = first.map scc ++
        scc (components w) :: (between.map scc ++ scc (components v) :: last.map scc) := by
      intro scc
      rw [hsplit, List.append_assoc, List.cons_append, List.map_append, List.map_cons,
        List.map_append, List.map_cons]
    exact ⟨_, _, _, _, _, hmap _, (h.mem_component_iff hw).mpr (decide_eq_true rfl),
      (h.mem_component_iff hv).mpr (decide_eq_true rfl)⟩

/-- **Data-driven order**: for every call graph that is built with `getVertex` and
`add_edge`, the pass ends and `dataSCCs` are the strongly connected components, callees
before callers. -/
theorem dataSCCs_build (ops : List (CallGraphOp Fn)) :
    ∃ sccs, (build ops).dataSCCs = some sccs ∧
      SccOrder (· ∈ ops.flatMap CallGraphOp.functions) (fun f g ↦ .addEdge f g ∈ ops) sccs :=
  (built_build ops).sccOrder

/-- A function that calls one of two functions that call each other. -/
example : (build [.addEdge 0 1, .addEdge 1 2, .addEdge 2 1, .addEdge 2 3]).dataSCCs =
    some [[some 3], [some 1, some 2], [some 0]] := by
  decide +kernel

end DataCallGraph

end Cali.Passes
