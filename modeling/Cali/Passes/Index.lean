import Mathlib.Data.Fintype.Basic
import Cali.Lib.Index
import Cali.Passes.Creation
import Cali.Passes.Subnodes

/-!
# The indexes of the program dependence graph

The graph is described four times: by the vector of vertices, the stack of free ids,
the index of vertices by function and the index of vertices by value.  `Consistent`
says that the four agree.  Every operation keeps them so except `removeFunction`,
which clears a copy of the entry of the function index and leaves the ids of dead
vertices in the index itself.
-/

namespace Cali.Passes

open Cali.Graph Cali.Lib

variable {Val Fn : Type}

namespace PDG

/-- The vertex is in the graph. -/
def Live (g : PDG Val Fn) (v : ℕ) : Prop := g.graph.Live v

instance (g : PDG Val Fn) (v : ℕ) : Decidable (g.Live v) :=
  inferInstanceAs (Decidable (g.graph.Live v))

/-- The indexes of the graph are consistent: the function index lists exactly the live
vertices by their function, the value index leads to live vertices of the value, no id
is free twice, and so the next vertex gets an id that is not in use. -/
structure IndexConsistent (g : PDG Val Fn) : Prop where
  function : ∀ f v, v ∈ g.functionToVertices f ↔ g.Live v ∧ (g.node v).function = f
  value : ∀ value v, g.valueToVertex value = some v →
    g.Live v ∧ (g.node v).instruction = some value
  free : g.graph.freeVertices.Nodup
  fresh : ∀ prop, ¬ g.Live (g.graph.addVertex prop).1

/-- The invariant: the free ids are exactly the empty slots. -/
structure Consistent (g : PDG Val Fn) : Prop where
  slots : g.graph.SlotsOk
  index : Indexes g.functionToVertices g.Live fun v ↦ (g.node v).function
  value : ∀ value v, g.valueToVertex value = some v →
    g.Live v ∧ (g.node v).instruction = some value

theorem Consistent.indexConsistent {g : PDG Val Fn} (h : g.Consistent) : g.IndexConsistent :=
  ⟨h.index, h.value, h.slots.nodup, h.slots.not_live_addVertex⟩

theorem consistent_init (maxParts : ℕ) (subnodeLimit : ℤ) :
    (init maxParts subnodeLimit : PDG Val Fn).Consistent where
  slots := BaseGraph.slotsOk_nil _
  index _ v := ⟨fun h ↦ absurd h (Finset.notMem_empty v), fun h ↦ absurd h.1.1 (Nat.not_lt_zero v)⟩
  value _ _ h := nomatch h

/-! ## Operations that leave the indexes alone -/

/-- The two graphs agree in everything the indexes speak about. -/
structure SameIndex (g g' : PDG Val Fn) : Prop where
  capacity : g'.graph.capacity = g.graph.capacity
  free : g'.graph.freeVertices = g.graph.freeVertices
  isEmpty : ∀ v, g'.graph.isEmpty v = g.graph.isEmpty v
  function : ∀ v, (g'.node v).function = (g.node v).function
  instruction : ∀ v, (g'.node v).instruction = (g.node v).instruction
  functionToVertices : g'.functionToVertices = g.functionToVertices
  valueToVertex : g'.valueToVertex = g.valueToVertex

variable {g g' g'' : PDG Val Fn} {u v : ℕ}

theorem SameIndex.refl (g : PDG Val Fn) : SameIndex g g :=
  ⟨rfl, rfl, fun _ ↦ rfl, fun _ ↦ rfl, fun _ ↦ rfl, rfl, rfl⟩

theorem SameIndex.trans (h : SameIndex g g') (h' : SameIndex g' g'') : SameIndex g g'' :=
  ⟨h'.capacity.trans h.capacity, h'.free.trans h.free,
    fun v ↦ (h'.isEmpty v).trans (h.isEmpty v), fun v ↦ (h'.function v).trans (h.function v),
    fun v ↦ (h'.instruction v).trans (h.instruction v),
    h'.functionToVertices.trans h.functionToVertices, h'.valueToVertex.trans h.valueToVertex⟩

theorem SameIndex.live_iff (h : SameIndex g g') : g'.Live v ↔ g.Live v := by
  unfold Live BaseGraph.Live
  rw [h.capacity, h.isEmpty]

theorem SameIndex.slotsOk (h : SameIndex g g') (hg : g.graph.SlotsOk) : g'.graph.SlotsOk := by
  refine ⟨h.free ▸ hg.nodup, fun v ↦ ?_⟩
  rw [h.free, h.capacity, h.isEmpty]
  exact hg.mem_free v

theorem SameIndex.consistent (h : SameIndex g g') (hg : g.Consistent) : g'.Consistent where
  slots := h.slotsOk hg.slots
  index := by
    rw [h.functionToVertices]
    exact hg.index.congr (fun v ↦ h.live_iff) h.function
  value value v hv := by
    rw [h.live_iff, h.instruction]
    exact hg.value value v (h.valueToVertex ▸ hv)

theorem sameIndex_addEdge (g : PDG Val Fn) (v1 v2 : ℕ) (p : PDGEdge) :
    SameIndex g (g.addEdge v1 v2 p) :=
  have h := BaseGraph.sameNodes_addEdge g.graph v1 v2 p
  ⟨h.capacity, h.freeVertices, h.isEmpty, fun v ↦ congrArg _ (h.property v),
    fun v ↦ congrArg _ (h.property v), rfl, rfl⟩

theorem sameIndex_addEdges (g : PDG Val Fn) (es : List (Edge PDGEdge)) :
    SameIndex g (g.addEdges es) := by
  induction es generalizing g with
  | nil => exact .refl g
  | cons e es ih => exact (sameIndex_addEdge ..).trans (ih (g.addEdge ..))

theorem sameIndex_setNode {n : PDGNode Val Fn} (hf : n.function = (g.node v).function)
    (hi : n.instruction = (g.node v).instruction) : SameIndex g (g.setNode v n) := by
  refine ⟨rfl, rfl, fun u ↦ BaseGraph.isEmpty_setProperty .., fun u ↦ ?_, fun u ↦ ?_, rfl, rfl⟩
  · rw [node_setNode]
    split
    · next h => rw [h, hf]
    · rfl
  · rw [node_setNode]
    split
    · next h => rw [h, hi]
    · rfl

theorem sameIndex_linkInto (g : PDG Val Fn) (a b : ℕ) : SameIndex g (g.linkInto a b) := by
  refine (sameIndex_setNode ?_ ?_).trans (sameIndex_addEdges _ _)
  · rw [joinAttributes_eq]
  · rw [joinAttributes_eq]

/-! ## Operations on vertices -/

variable [DecidableEq Fn]

theorem Consistent.live_pdgAddVertex (h : g.Consistent) (prop : PDGNode Val Fn) :
    (g.pdgAddVertex prop).2.Live v ↔ g.Live v ∨ v = (g.pdgAddVertex prop).1 :=
  h.slots.live_addVertex

theorem node_pdgAddVertex (prop : PDGNode Val Fn) (v : ℕ) :
    (g.pdgAddVertex prop).2.node v = if v = (g.pdgAddVertex prop).1 then prop else g.node v :=
  BaseGraph.property_addVertex ..

theorem Consistent.pdgAddVertex (h : g.Consistent) (prop : PDGNode Val Fn) :
    (g.pdgAddVertex prop).2.Consistent where
  slots := h.slots.addVertex prop
  index := by
    refine h.index.insert (h.slots.not_live_addVertex prop) (fun v ↦ h.live_pdgAddVertex prop)
      fun v ↦ ?_
    rw [node_pdgAddVertex]
    exact apply_ite PDGNode.function ..
  value value v hv := by
    obtain ⟨hlive, hi⟩ := h.value value v hv
    have hne : v ≠ (g.pdgAddVertex prop).1 := fun heq ↦
      h.slots.not_live_addVertex prop (heq ▸ hlive)
    rw [h.live_pdgAddVertex, node_pdgAddVertex, if_neg hne]
    exact ⟨Or.inl hlive, hi⟩

theorem Consistent.createSubnodes (h : g.Consistent) (llvm : Llvm Val Fn) (parent : ℕ)
    (limit : ℤ) : (g.createSubnodes llvm parent limit).Consistent :=
  have hkept : @Kept Val Fn _ Consistent fun _ _ ↦ True :=
    ⟨fun _ _ hg ↦ ⟨hg.pdgAddVertex _, trivial, fun _ _ ↦ trivial⟩,
      fun g u w p hg _ _ _ ↦ ⟨(sameIndex_addEdge g u w p).consistent hg, fun _ _ ↦ trivial⟩,
      fun _ _ _ _ _ _ ↦ trivial⟩
  hkept.createSubnodes llvm h trivial limit

/-- `pdg_remove_vertex` for a live vertex that is not the vertex of a value. -/
theorem Consistent.pdgRemoveVertex (h : g.Consistent) (hv : g.Live v)
    (hvalue : ∀ value, g.valueToVertex value ≠ some v) : (g.pdgRemoveVertex v).Consistent where
  slots := h.slots.removeVertex hv
  index := by
    refine h.index.erase v (fun u ↦ BaseGraph.live_removeVertex) fun u _ ↦ ?_
    exact congrArg _ (BaseGraph.property_removeVertex ..)
  value value u hu := by
    obtain ⟨hlive, hi⟩ := h.value value u hu
    have hne : u ≠ v := fun heq ↦ hvalue value (heq ▸ hu)
    exact ⟨BaseGraph.live_removeVertex.mpr ⟨hlive, hne⟩,
      (congrArg _ (BaseGraph.property_removeVertex ..)).trans hi⟩

theorem Consistent.updateFunction (h : g.Consistent) (hv : g.Live v) (function : Option Fn) :
    (g.updateFunction v function).Consistent where
  slots := h.slots.setProperty ..
  index := by
    -- the vertex is taken out of one entry and put into another one
    have hout : Indexes _ (fun u ↦ g.Live u ∧ u ≠ v) fun u ↦ (g.node u).function :=
      h.index.erase v (fun _ ↦ Iff.rfl) fun _ _ ↦ rfl
    refine hout.insert (fun hno ↦ hno.2 rfl) (fun u ↦ ?_) fun u ↦ ?_
    · refine BaseGraph.live_setProperty.trans ?_
      by_cases huv : u = v
      · exact ⟨fun _ ↦ Or.inr huv, fun _ ↦ huv ▸ hv⟩
      · simp [huv, Live]
    · refine (congrArg PDGNode.function (node_setNode ..)).trans ?_
      exact apply_ite PDGNode.function ..
  value value u hu := by
    obtain ⟨hlive, hi⟩ := h.value value u hu
    refine ⟨BaseGraph.live_setProperty.mpr hlive, ?_⟩
    refine (congrArg PDGNode.instruction (node_setNode ..)).trans ?_
    split
    · next huv => exact huv ▸ hi
    · exact hi

theorem Consistent.mergeInto {a b : ℕ} (h : g.Consistent) (hb : g.Live b)
    (hi : g.hasInstruction b = false) : (g.mergeInto a b).Consistent := by
  have hlink := sameIndex_linkInto g a b
  have hsame : SameIndex g ((g.linkInto a b).setNode b
      { (g.linkInto a b).node b with ipcsink := false, reachesIpcSink := false }) :=
    hlink.trans (sameIndex_setNode rfl rfl)
  refine (hsame.consistent h).pdgRemoveVertex (hsame.live_iff.mpr hb) fun value hvalue ↦ ?_
  have hb' := (h.value value b (hsame.valueToVertex ▸ hvalue)).2
  rw [hasInstruction, hb'] at hi
  cases hi

variable [DecidableEq Val]

theorem Consistent.createVertex (h : g.Consistent) (llvm : Llvm Val Fn) (value : Val)
    (function : Option Fn) : (g.createVertex llvm value function).2.Consistent := by
  have hadd := h.pdgAddVertex (valueNode llvm value function)
  have hnode : (g.pdgAddVertex (valueNode llvm value function)).2.node
      (g.pdgAddVertex (valueNode llvm value function)).1 = valueNode llvm value function := by
    rw [node_pdgAddVertex, if_pos rfl]
  set r := g.pdgAddVertex (valueNode llvm value function) with hr
  have hmapped : Consistent { r.2 with
      valueToVertex := Function.update r.2.valueToVertex value (some r.1) } := by
    refine ⟨hadd.slots, hadd.index, fun value' v hv ↦ ?_⟩
    by_cases hvalue : value' = value
    · subst hvalue
      change Function.update r.2.valueToVertex value' (some r.1) value' = some v at hv
      rw [Function.update_self] at hv
      obtain rfl := Option.some.inj hv
      exact ⟨(h.live_pdgAddVertex _).mpr (Or.inr rfl), congrArg PDGNode.instruction hnode⟩
    · exact hadd.value value' v ((Function.update_of_ne hvalue ..).symm.trans hv)
  unfold PDG.createVertex
  simp only
  split
  · exact hmapped.createSubnodes ..
  · exact hmapped

theorem Consistent.getVertex (h : g.Consistent) (llvm : Llvm Val Fn) (value : Val)
    (function : Option Fn) : (g.getVertex llvm value function).2.Consistent := by
  unfold PDG.getVertex
  split
  · next v hv =>
      simp only
      split
      · exact h.updateFunction (h.value value v hv).1 function
      · exact h
  · exact h.createVertex ..

end PDG

/-! ## Runs -/

/-- The operations on vertices. -/
inductive Operation (Val Fn : Type) where
  | getVertex (value : Val) (function : Option Fn)
  | createVertex (value : Val) (function : Option Fn)
  | createDummyVertex (value : Val) (function : Option Fn)
  | pdgAddVertex (prop : PDGNode Val Fn)
  | pdgRemoveVertex (v : ℕ)
  | updateFunction (v : ℕ) (function : Option Fn)
  | removeFunction (function : Fn)

/-- An operation on vertices, or an event of the functions that go along the structure
of values, `uniteSubnodes` among them. -/
inductive IndexEvent (Val Fn : Type) where
  | operation (o : Operation Val Fn)
  | machine (e : MachineEvent)

section Runs

variable [DecidableEq Val] [DecidableEq Fn]

/-- The graph after an operation. -/
def Operation.apply (llvm : Llvm Val Fn) (g : PDG Val Fn) : Operation Val Fn → PDG Val Fn
  | .getVertex value function => (g.getVertex llvm value function).2
  | .createVertex value function => (g.createVertex llvm value function).2
  | .createDummyVertex value function => (g.createDummyVertex llvm value function).2
  | .pdgAddVertex prop => (g.pdgAddVertex prop).2
  | .pdgRemoveVertex v => g.pdgRemoveVertex v
  | .updateFunction v function => g.updateFunction v function
  | .removeFunction function => g.removeFunction function

/-- An operation happens when no other call is going on. -/
inductive IndexStep (llvm : Llvm Val Fn) :
    Config Val Fn → IndexEvent Val Fn → Config Val Fn → Prop
  | operation {g : PDG Val Fn} (o : Operation Val Fn) :
      IndexStep llvm ⟨g, []⟩ (.operation o) ⟨o.apply llvm g, []⟩
  | machine {c c' : Config Val Fn} {e : MachineEvent} (h : MachineStep c e c') :
      IndexStep llvm c (.machine e) c'

/-- The operation is applied to a live vertex, a vertex that is removed is not the
vertex of a value, and a function that is removed has no vertices. -/
def Operation.Safe (g : PDG Val Fn) : Operation Val Fn → Prop
  | .pdgRemoveVertex v => g.Live v ∧ ∀ value, g.valueToVertex value ≠ some v
  | .updateFunction v _ => g.Live v
  | .removeFunction function => g.functionToVertices (some function) = ∅
  | _ => True

instance [Fintype Val] (g : PDG Val Fn) : (o : Operation Val Fn) → Decidable (o.Safe g)
  | .pdgRemoveVertex _ => inferInstanceAs (Decidable (_ ∧ ∀ _, _))
  | .updateFunction _ _ => inferInstanceAs (Decidable (PDG.Live _ _))
  | .removeFunction _ => inferInstanceAs (Decidable (_ = _))
  | .getVertex _ _ => isTrue trivial
  | .createVertex _ _ => isTrue trivial
  | .createDummyVertex _ _ => isTrue trivial
  | .pdgAddVertex _ => isTrue trivial

/-- The vertex that the next merge removes, if there is one, is live. -/
def Config.RemovesLive (c : Config Val Fn) : Prop := ∀ p ∈ c.nextMerge, c.pdg.Live p.2

instance (c : Config Val Fn) : Decidable c.RemovesLive :=
  inferInstanceAs (Decidable (∀ _ ∈ _, _))

/-- Before an event: the operation is safe, or the next merge removes a live vertex. -/
def IndexEvent.Safe (c : Config Val Fn) : IndexEvent Val Fn → Prop
  | .operation o => o.Safe c.pdg
  | .machine _ => c.RemovesLive

instance [Fintype Val] (c : Config Val Fn) : (e : IndexEvent Val Fn) → Decidable (e.Safe c)
  | .operation _ => inferInstanceAs (Decidable (Operation.Safe _ _))
  | .machine _ => inferInstanceAs (Decidable (Config.RemovesLive _))

theorem PDG.Consistent.apply {g : PDG Val Fn} {o : Operation Val Fn} (h : g.Consistent)
    (llvm : Llvm Val Fn) (ho : o.Safe g) : (o.apply llvm g).Consistent := by
  cases o with
  | getVertex value function => exact h.getVertex ..
  | createVertex value function => exact h.createVertex ..
  | createDummyVertex value function => exact h.pdgAddVertex _
  | pdgAddVertex prop => exact h.pdgAddVertex prop
  | pdgRemoveVertex v => exact h.pdgRemoveVertex ho.1 ho.2
  | updateFunction v function => exact h.updateFunction ho function
  | removeFunction function =>
    have hset : g.functionToVertices (some function) = ∅ := ho
    have hsame : g.removeFunction function = g := by
      simp only [PDG.removeFunction, hset]
      rfl
    change (g.removeFunction function).Consistent
    rwa [hsame]

omit [DecidableEq Val] in
theorem PDG.Consistent.machineStep {c c' : Config Val Fn} (h : c.pdg.Consistent)
    (hok : c.RemovesLive) (hstep : Passes.machineStep c = .next c') : c'.pdg.Consistent := by
  cases frameStep_of_machineStep hstep with
  | addData => exact (sameIndex_addEdge ..).consistent h
  | link => exact ⟨h.slots, h.index, h.value⟩
  | mergeNext hs =>
    obtain hsame | ⟨a, b, hnext, -, hi, hmerge⟩ := hs.pdg_cases
    · exact hsame.symm ▸ h
    · exact hmerge.symm ▸ h.mergeInto (hok (a, b) hnext) hi
  | @mark g v _ _ =>
    have hsame : PDG.SameIndex g (g.setNode v { g.node v with ipcsink := true }) :=
      sameIndex_setNode rfl rfl
    exact hsame.consistent h
  | _ => exact h

theorem IndexStep.consistent {llvm : Llvm Val Fn} {c c' : Config Val Fn} {e : IndexEvent Val Fn}
    (h : c.pdg.Consistent) (hok : e.Safe c) (hstep : IndexStep llvm c e c') :
    c'.pdg.Consistent := by
  cases hstep with
  | operation o => exact h.apply llvm hok
  | machine hstep =>
    cases hstep with
    | call => exact h
    | internal hnext => exact h.machineStep hok hnext

/-- **The indexes stay consistent** in every run from the empty graph whose operations
are all safe and whose merges all remove a live vertex. -/
theorem indexConsistent_of_safe {llvm : Llvm Val Fn} {maxParts : ℕ} {subnodeLimit : ℤ}
    {t : List (IndexEvent Val Fn × Config Val Fn)}
    (hrun : IsRun (IndexStep llvm) ⟨.init maxParts subnodeLimit, []⟩ t)
    (hok : RunOk (fun c e ↦ IndexEvent.Safe c e) ⟨.init maxParts subnodeLimit, []⟩ t) :
    ∀ c ∈ runStates ⟨.init maxParts subnodeLimit, []⟩ t, c.pdg.IndexConsistent := by
  have hinv := hrun.invariant (I := fun c ↦ c.pdg.Consistent)
    (fun _ _ _ h hok hst ↦ hst.consistent h hok) (PDG.consistent_init maxParts subnodeLimit) hok
  exact fun c hc ↦ (hinv c hc).indexConsistent

/-- The state after an event that can happen. -/
def Config.execIndex (llvm : Llvm Val Fn) (c : Config Val Fn) : IndexEvent Val Fn → Config Val Fn
  | .operation o => ⟨o.apply llvm c.pdg, []⟩
  | .machine e => c.exec e

/-- The event can happen. -/
def Config.enabledIndex (c : Config Val Fn) : IndexEvent Val Fn → Bool
  | .operation _ => c.stack.isEmpty
  | .machine e => c.enabled e

theorem isRun_execIndex {llvm : Llvm Val Fn} {c : Config Val Fn} {es : List (IndexEvent Val Fn)}
    (h : RunOk (fun c e ↦ Config.enabledIndex c e = true) c (trace (Config.execIndex llvm) c es)) :
    IsRun (IndexStep llvm) c (trace (Config.execIndex llvm) c es) := by
  refine isRun_trace (h.mono ?_)
  rintro ⟨g, stack⟩ e he
  cases e with
  | operation o =>
    obtain rfl : stack = [] := List.isEmpty_iff.mp he
    exact .operation o
  | machine e => exact .machine (machineStep_exec _ e he)

end Runs

/-- A module with one function. -/
def oneFunction : Llvm Unit Unit where
  asFunction _ := some ()
  instructionFunction _ := none
  isConstantGlobal _ := false
  typeOf _ := .other
  pointee _ := .other

/-- The function gets its vertex, and two other vertices are united. -/
def oneFunctionEvents : List (IndexEvent Unit Unit) :=
  [.operation (.getVertex () none), .operation (.pdgAddVertex {}), .operation (.pdgAddVertex {}),
    .machine (.call (.uniteSubnodes 1 2)), .machine .internal, .machine .internal,
    .machine .internal, .operation (.updateFunction 1 (some ()))]

theorem oneFunction_indexConsistent :
    ∃ t, t.length = 8 ∧ IsRun (IndexStep oneFunction) ⟨.init 32 5, []⟩ t ∧
      RunOk (fun c e ↦ IndexEvent.Safe c e) ⟨.init 32 5, []⟩ t ∧
      ∀ c ∈ runStates ⟨.init 32 5, []⟩ t, c.pdg.IndexConsistent := by
  have hrun : IsRun (IndexStep oneFunction) ⟨.init 32 5, []⟩
      (trace (Config.execIndex oneFunction) ⟨.init 32 5, []⟩ oneFunctionEvents) :=
    isRun_execIndex (by decide +kernel)
  have hok : RunOk (fun c e ↦ IndexEvent.Safe c e) ⟨.init 32 5, []⟩
      (trace (Config.execIndex oneFunction) ⟨.init 32 5, []⟩ oneFunctionEvents) := by
    decide +kernel
  exact ⟨_, rfl, hrun, hok, indexConsistent_of_safe hrun hok⟩

/-- The only vertex of a function is removed together with the function, twice. -/
def removedTwiceEvents : List (IndexEvent Unit Unit) :=
  [.operation (.pdgAddVertex { function := some () }), .operation (.removeFunction ()),
    .operation (.removeFunction ()), .operation (.pdgAddVertex {})]

/-- Then its id is free twice, and the two next vertices get the same id. -/
theorem not_indexConsistent_removedTwice :
    ¬ ∀ (llvm : Llvm Unit Unit) (t : List (IndexEvent Unit Unit × Config Unit Unit)),
      IsRun (IndexStep llvm) ⟨.init 32 5, []⟩ t →
      ∀ c ∈ runStates ⟨.init 32 5, []⟩ t, c.pdg.IndexConsistent := by
  intro hall
  have hrun : IsRun (IndexStep oneFunction) ⟨.init 32 5, []⟩
      (trace (Config.execIndex oneFunction) ⟨.init 32 5, []⟩ removedTwiceEvents) :=
    isRun_execIndex (by decide +kernel)
  have hcons := hall oneFunction _ hrun _ (List.getLast_mem (List.cons_ne_nil _ _))
  exact hcons.fresh {} (by decide +kernel)

end Cali.Passes
