import Cali.Passes.Frames
import Cali.Passes.Marking
import Cali.Passes.Wired

/-!
# Vertices that are linked instead of merged

`uniteSubnodes` does not merge two vertices with instructions, vertices of different functions
and constants.  It links them by `Data` edges in both directions, and remembers the pair in
`united_nodes`, so that it does not link the pair again.  The pair is remembered by the ids of
the vertices.  When one of them is removed, its id is given to another vertex, but the pair is
still remembered.
-/

namespace Cali.Passes

open Cali.Graph Cali.Lib

variable {Val Fn : Type}

namespace PDG

/-- There are `Data` edges in both directions, except to a constant. -/
def LinkedBothWays (g : PDG Val Fn) (v1 v2 : ℕ) : Prop :=
  ((g.node v2).constant = false → g.HasEdge v1 .dataEdge v2) ∧
    ((g.node v1).constant = false → g.HasEdge v2 .dataEdge v1)

end PDG

/-- The operations on vertices, and the events of `addSubnodeEdges` and `uniteSubnodes`. -/
inductive GraphEvent (Val Fn : Type) where
  | pdgAddVertex (prop : PDGNode Val Fn)
  | pdgRemoveVertex (v : ℕ)
  | machine (e : MachineEvent)

variable [DecidableEq Fn]

/-- An operation happens when no call is going on; its arguments are ids of slots. -/
inductive GraphStep : Config Val Fn → GraphEvent Val Fn → Config Val Fn → Prop
  | pdgAddVertex {g : PDG Val Fn} (prop : PDGNode Val Fn) :
      GraphStep ⟨g, []⟩ (.pdgAddVertex prop) ⟨(g.pdgAddVertex prop).2, []⟩
  | pdgRemoveVertex {g : PDG Val Fn} {v : ℕ} (hv : v < g.graph.capacity) :
      GraphStep ⟨g, []⟩ (.pdgRemoveVertex v) ⟨g.pdgRemoveVertex v, []⟩
  | call {g : PDG Val Fn} {f : Frame} (hf : f.IsCall) (hrange : f.InRange g.graph.capacity) :
      GraphStep ⟨g, []⟩ (.machine (.call f)) ⟨g, [f]⟩
  | internal {c c' : Config Val Fn} (h : machineStep c = .next c') :
      GraphStep c (.machine .internal) c'

/-- A new vertex does not get an id that is in a remembered pair. -/
def GraphEvent.Fresh (c : Config Val Fn) : GraphEvent Val Fn → Prop
  | .pdgAddVertex prop =>
    ∀ pair ∈ c.pdg.unitedNodes, pair.1 ≠ (c.pdg.pdgAddVertex prop).1 ∧
      pair.2 ≠ (c.pdg.pdgAddVertex prop).1
  | _ => True

instance (c : Config Val Fn) : (e : GraphEvent Val Fn) → Decidable (e.Fresh c)
  | .pdgAddVertex _ => inferInstanceAs (Decidable (∀ pair ∈ c.pdg.unitedNodes, _))
  | .pdgRemoveVertex _ | .machine _ => .isTrue trivial

/-- The call `f` returns with the graph `g'`. -/
def Returns (g : PDG Val Fn) (f : Frame) (g' : PDG Val Fn) : Prop :=
  Relation.ReflTransGen (fun c c' ↦ machineStep c = .next c') ⟨g, [f]⟩ ⟨g', []⟩

/-! ## Pairs that are linked, or will be -/

/-- As long as both vertices are there, there is an edge, or the call that adds it is still to
be made. -/
def Config.Joined (c : Config Val Fn) (a b : ℕ) : Prop :=
  c.pdg.Live a → c.pdg.Live b → (c.pdg.node b).constant = false →
    c.pdg.HasEdge a .dataEdge b ∨ .addSubnodeEdges a b 0 ∈ c.stack

variable {c c' : Config Val Fn} {a b : ℕ}

/-- The call that adds the edge is the topmost one, or it is still to be made. -/
theorem FrameStep.joined (h : FrameStep c c') (hm : c.pdg.graph.Mirrored) (hab : a ≠ b)
    (hc : c.Joined a b) : c'.Joined a b := by
  intro ha hb hconstant
  have hconstant' : (c.pdg.node b).constant = false := (h.constant b).symm.trans hconstant
  rcases hc (h.live ha) (h.live hb) hconstant' with he | hmem
  · exact Or.inl (h.hasEdge hm he ha hb)
  · cases h with
    | nothingToAdd hret =>
      rcases List.mem_cons.mp hmem with heq | hmem
      · cases heq
        rcases hret with heq | hret
        · exact absurd heq hab
        · rw [hret] at hconstant'
          cases hconstant'
      · exact Or.inr hmem
    | addData =>
      rcases List.mem_cons.mp hmem with heq | hmem
      · cases heq
        exact Or.inl (PDG.hasEdge_addEdge.mpr (Or.inr ⟨rfl, rfl, rfl⟩))
      · exact Or.inr (List.mem_cons_of_mem _ hmem)
    | _ =>
      rcases List.mem_cons.mp hmem with heq | hmem
      · cases heq
      · simp only [List.mem_append, List.mem_cons, hmem, or_true]

omit [DecidableEq Fn] in
theorem unitedNodes_addEdges (g : PDG Val Fn) (es : List (Edge PDGEdge)) :
    (g.addEdges es).unitedNodes = g.unitedNodes := by
  induction es generalizing g with
  | nil => rfl
  | cons e es ih => exact ih (g.addEdge e.source e.target e.property)

theorem unitedNodes_mergeInto (g : PDG Val Fn) (a b : ℕ) :
    (g.mergeInto a b).unitedNodes = g.unitedNodes :=
  unitedNodes_addEdges ..

theorem FrameStep.mem_unitedNodes (h : FrameStep c c') {pair : ℕ × ℕ}
    (hpair : pair ∈ c'.pdg.unitedNodes) :
    pair ∈ c.pdg.unitedNodes ∨ .addSubnodeEdges pair.1 pair.2 0 ∈ c'.stack ∧
      .addSubnodeEdges pair.2 pair.1 0 ∈ c'.stack := by
  cases h with
  | link =>
    rcases Finset.mem_insert.mp hpair with rfl | hpair
    · exact Or.inr ⟨List.mem_cons_self, List.mem_cons_of_mem _ List.mem_cons_self⟩
    · exact Or.inl hpair
  | mergeNext h =>
    obtain hsame | ⟨a, b, -, -, -, hmerge⟩ := h.pdg_cases
    · rw [hsame] at hpair
      exact Or.inl hpair
    · rw [hmerge, unitedNodes_mergeInto] at hpair
      exact Or.inl hpair
  | _ => exact Or.inl hpair

/-- Both edges of each remembered pair are there, or will be. -/
def Config.Remembers (c : Config Val Fn) : Prop :=
  ∀ pair ∈ c.pdg.unitedNodes, pair.1 ≠ pair.2 →
    c.Joined pair.1 pair.2 ∧ c.Joined pair.2 pair.1

theorem FrameStep.remembers (h : FrameStep c c') (hm : c.pdg.graph.Mirrored)
    (hc : c.Remembers) : c'.Remembers := by
  intro pair hpair hne
  rcases h.mem_unitedNodes hpair with hold | ⟨hcall, hcall'⟩
  · obtain ⟨hfst, hsnd⟩ := hc pair hold hne
    exact ⟨h.joined hm hne hfst, h.joined hm hne.symm hsnd⟩
  · exact ⟨fun _ _ _ ↦ Or.inr hcall, fun _ _ _ ↦ Or.inr hcall'⟩

/-! ## Runs -/

namespace PDG

variable {g : PDG Val Fn} {u v w : ℕ} {p : PDGEdge}

theorem Linked.pdgAddVertex (h : g.Linked) (prop : PDGNode Val Fn) :
    (g.pdgAddVertex prop).2.Linked where
  mirrored := h.mirrored.congr (fun v ↦ (h.edges_pdgAddVertex prop v).1)
    fun v ↦ (h.edges_pdgAddVertex prop v).2
  inside u p w he := by
    have hold := h.inside u p w (h.hasEdge_pdgAddVertex.mp he)
    have hle := BaseGraph.capacity_le_addVertex g.graph prop
    exact ⟨hold.1.trans_le hle, hold.2.trans_le hle⟩

theorem Linked.pdgRemoveVertex (h : g.Linked) (v : ℕ) :
    (g.pdgRemoveVertex v).Linked where
  mirrored := h.mirrored.removeVertex v
  inside u p w he := by
    have hcapacity : (g.pdgRemoveVertex v).graph.capacity = g.graph.capacity :=
      BaseGraph.capacity_removeVertex v
    rw [hcapacity]
    exact h.inside u p w (h.mirrored.hasEdge_removeVertex.mp he).1

omit [DecidableEq Fn] in
theorem linked_init (maxParts : ℕ) (subnodeLimit : ℤ) :
    (init maxParts subnodeLimit : PDG Val Fn).Linked where
  mirrored := (wired_init maxParts subnodeLimit).mirrored
  inside _ _ _ he := absurd he (not_hasEdge_init maxParts subnodeLimit)

omit [DecidableEq Fn] in
theorem LinkedBothWays.symm (h : g.LinkedBothWays v w) : g.LinkedBothWays w v := And.symm h

end PDG

theorem GraphStep.inRange {e : GraphEvent Val Fn} (h : GraphStep c e c') (hc : c.InRange) :
    c'.InRange := by
  cases h with
  | pdgAddVertex prop => exact ⟨hc.pdg.pdgAddVertex prop, fun _ hf ↦ absurd hf List.not_mem_nil⟩
  | pdgRemoveVertex => exact ⟨hc.pdg.pdgRemoveVertex _, fun _ hf ↦ absurd hf List.not_mem_nil⟩
  | call _ hrange => exact ⟨hc.pdg, List.forall_mem_singleton.mpr hrange⟩
  | internal h => exact (frameStep_of_machineStep h).inRange hc

/-- The memory stays in step with the graph if no id that it mentions is given to a new
vertex. -/
theorem GraphStep.remembers {e : GraphEvent Val Fn} (h : GraphStep c e c') (hc : c.InRange)
    (hfresh : e.Fresh c) (hr : c.Remembers) : c'.Remembers := by
  cases h with
  | @pdgAddVertex g prop =>
    have hjoined : ∀ {a b}, a ≠ (g.pdgAddVertex prop).1 → b ≠ (g.pdgAddVertex prop).1 →
        (⟨g, []⟩ : Config Val Fn).Joined a b →
          (⟨(g.pdgAddVertex prop).2, []⟩ : Config Val Fn).Joined a b := by
      intro a b ha hb hab hlivea hliveb hconstant
      have hnode : (g.pdgAddVertex prop).2.node b = g.node b :=
        (PDG.node_pdgAddVertex prop b).trans (if_neg hb)
      have hconstant' : (g.node b).constant = false := hnode ▸ hconstant
      refine (hab (BaseGraph.live_of_live_addVertex hlivea ha)
        (BaseGraph.live_of_live_addVertex hliveb hb) hconstant').imp_left ?_
      exact hc.pdg.hasEdge_pdgAddVertex.mpr
    intro pair hpair hne
    obtain ⟨hfst, hsnd⟩ := hfresh pair hpair
    exact (hr pair hpair hne).imp (hjoined hfst hsnd) (hjoined hsnd hfst)
  | @pdgRemoveVertex g v _ =>
    have hjoined : ∀ {a b}, (⟨g, []⟩ : Config Val Fn).Joined a b →
        (⟨g.pdgRemoveVertex v, []⟩ : Config Val Fn).Joined a b := by
      intro a b hab ha hb hconstant
      obtain ⟨ha, hav⟩ := BaseGraph.live_removeVertex.mp ha
      obtain ⟨hb, hbv⟩ := BaseGraph.live_removeVertex.mp hb
      have hnode : (g.pdgRemoveVertex v).node b = g.node b := BaseGraph.property_removeVertex ..
      have hconstant' : (g.node b).constant = false := hnode ▸ hconstant
      exact (hab ha hb hconstant').imp_left fun he ↦
        hc.pdg.mirrored.hasEdge_removeVertex.mpr ⟨he, hav, hbv⟩
    exact fun pair hpair hne ↦ (hr pair hpair hne).imp hjoined hjoined
  | call =>
    intro pair hpair hne
    have hjoined : ∀ {a b g} {f : Frame}, (⟨g, []⟩ : Config Val Fn).Joined a b →
        (⟨g, [f]⟩ : Config Val Fn).Joined a b := fun hab ha hb hconstant ↦
      (hab ha hb hconstant).imp_right fun hmem ↦ absurd hmem List.not_mem_nil
    exact (hr pair hpair hne).imp hjoined hjoined
  | internal h => exact (frameStep_of_machineStep h).remembers hc.pdg.mirrored hr

/-! ## Calls of `uniteSubnodes` -/

section Calls

variable {g g' : PDG Val Fn} {v1 v2 : ℕ}

omit [DecidableEq Fn] in
theorem linkedBothWays_of_joined (h : (⟨g, []⟩ : Config Val Fn).Joined a b)
    (h' : (⟨g, []⟩ : Config Val Fn).Joined b a) (ha : g.Live a) (hb : g.Live b) :
    g.LinkedBothWays a b :=
  ⟨fun hconstant ↦ (h ha hb hconstant).resolve_right List.not_mem_nil,
    fun hconstant ↦ (h' hb ha hconstant).resolve_right List.not_mem_nil⟩

theorem linkedBothWays_of_reaches (hm : c.pdg.graph.Mirrored) (hab : a ≠ b)
    (h : c.Joined a b) (h' : c.Joined b a)
    (hreach : Relation.ReflTransGen (fun c c' ↦ machineStep c = .next c') c ⟨g', []⟩)
    (ha : g'.Live a) (hb : g'.Live b) : g'.LinkedBothWays a b := by
  have hinv := invariant_of_reaches
    (I := fun c : Config Val Fn ↦ c.pdg.graph.Mirrored ∧ c.Joined a b ∧ c.Joined b a)
    (fun c c' hc hstep ↦
      let hframe := frameStep_of_machineStep hstep
      ⟨hframe.mirrored hc.1, hframe.joined hc.1 hab hc.2.1, hframe.joined hc.1 hab.symm hc.2.2⟩)
    hreach ⟨hm, h, h'⟩
  exact linkedBothWays_of_joined hinv.2.1 hinv.2.2 ha hb

/-- **Vertices that are not merged are linked**, unless the pair is remembered and not linked. -/
theorem linkedBothWays_of_call (hm : g.graph.Mirrored) (hne : v1 ≠ v2)
    (hpath : ¬ g.MergingPath v1 v2)
    (hmemo : sortedPair v1 v2 ∈ g.unitedNodes → g.LinkedBothWays v1 v2)
    (hret : Returns g (.uniteSubnodes v1 v2) g') (hv1 : g'.Live v1) (hv2 : g'.Live v2) :
    g'.LinkedBothWays v1 v2 := by
  rcases Relation.ReflTransGen.cases_head hret with heq | ⟨c, hstep, hreach⟩
  · cases heq
  · cases frameStep_of_machineStep hstep with
    | merge h => exact absurd h hpath
    | remembered _ hmem =>
      rcases Relation.ReflTransGen.cases_head hreach with heq | ⟨c', hstep', -⟩
      · cases heq
        exact hmemo hmem
      · cases hstep'
    | link =>
      have hcall : ∀ {f : Frame} {a b}, f = .addSubnodeEdges a b 0 → ∀ {g : PDG Val Fn} {stack},
          f ∈ stack → (⟨g, stack⟩ : Config Val Fn).Joined a b :=
        fun heq _ _ hmem _ _ _ ↦ Or.inr (heq ▸ hmem)
      rcases sortedPair_cases v1 v2 with heq | heq
      · rw [heq] at hreach
        exact linkedBothWays_of_reaches hm hne (hcall rfl List.mem_cons_self)
          (hcall rfl (List.mem_cons_of_mem _ List.mem_cons_self)) hreach hv1 hv2
      · rw [heq] at hreach
        exact (linkedBothWays_of_reaches hm hne.symm (hcall rfl List.mem_cons_self)
          (hcall rfl (List.mem_cons_of_mem _ List.mem_cons_self)) hreach hv2 hv1).symm

end Calls

/-- **Vertices that `uniteSubnodes` does not merge are linked in both directions** when it returns,
in every run in which no id of a remembered pair is given to a new vertex, and in every run if
the pair is not remembered or is linked. -/
theorem linkedBothWays_of_run {maxParts : ℕ} {subnodeLimit : ℤ}
    {t : List (GraphEvent Val Fn × Config Val Fn)}
    (hrun : IsRun GraphStep ⟨.init maxParts subnodeLimit, []⟩ t) {g : PDG Val Fn}
    (hg : ⟨g, []⟩ ∈ runStates ⟨.init maxParts subnodeLimit, []⟩ t) {v1 v2 : ℕ} (hne : v1 ≠ v2)
    (hpath : ¬ g.MergingPath v1 v2)
    (hmemo : RunOk (fun c e ↦ GraphEvent.Fresh c e) ⟨.init maxParts subnodeLimit, []⟩ t ∨
      (sortedPair v1 v2 ∈ g.unitedNodes → g.LinkedBothWays v1 v2))
    {g' : PDG Val Fn} (hret : Returns g (.uniteSubnodes v1 v2) g') (hv1 : g'.Live v1)
    (hv2 : g'.Live v2) : g'.LinkedBothWays v1 v2 := by
  have hinit : (⟨.init maxParts subnodeLimit, []⟩ : Config Val Fn).InRange :=
    ⟨PDG.linked_init maxParts subnodeLimit, fun _ hf ↦ absurd hf List.not_mem_nil⟩
  have hrange : (⟨g, []⟩ : Config Val Fn).InRange :=
    hrun.always (fun _ _ _ hc hstep ↦ hstep.inRange hc) hinit _ hg
  -- no step of the call adds a vertex
  have hlive : ∀ v, g'.Live v → g.Live v := fun v hv ↦
    (invariant_of_reaches (I := fun c : Config Val Fn ↦ c.pdg.Live v → g.Live v)
      (fun _ _ hc hstep hv ↦ hc ((frameStep_of_machineStep hstep).live hv)) hret fun h ↦ h) hv
  refine linkedBothWays_of_call hrange.pdg.mirrored hne hpath ?_ hret hv1 hv2
  rcases hmemo with hfresh | hmemo
  · have hremembers := hrun.invariant
      (I := fun c ↦ c.InRange ∧ c.Remembers)
      (fun _ _ _ hc hok hstep ↦ ⟨hstep.inRange hc.1, hstep.remembers hc.1 hok hc.2⟩)
      ⟨hinit, fun _ hpair ↦ absurd hpair (Finset.notMem_empty _)⟩ hfresh _ hg
    intro hmem
    rcases sortedPair_cases v1 v2 with heq | heq
    · rw [heq] at hmem
      obtain ⟨hfst, hsnd⟩ := hremembers.2 _ hmem hne
      exact linkedBothWays_of_joined hfst hsnd (hlive _ hv1) (hlive _ hv2)
    · rw [heq] at hmem
      obtain ⟨hfst, hsnd⟩ := hremembers.2 _ hmem hne.symm
      exact (linkedBothWays_of_joined hfst hsnd (hlive _ hv2) (hlive _ hv1)).symm
  · exact hmemo

/-! ### Two vertices of different functions -/

/-- The state after an event that can happen. -/
def Config.execGraph (c : Config Val Fn) : GraphEvent Val Fn → Config Val Fn
  | .pdgAddVertex prop => ⟨(c.pdg.pdgAddVertex prop).2, []⟩
  | .pdgRemoveVertex v => ⟨c.pdg.pdgRemoveVertex v, []⟩
  | .machine e => c.exec e

/-- The event can happen; the only call is one of `uniteSubnodes`. -/
def Config.enabledGraph (c : Config Val Fn) : GraphEvent Val Fn → Bool
  | .pdgAddVertex _ => c.stack.isEmpty
  | .pdgRemoveVertex v => c.stack.isEmpty && decide (v < c.pdg.graph.capacity)
  | .machine (.call (.uniteSubnodes v1 v2)) => c.stack.isEmpty &&
      decide (v1 < c.pdg.graph.capacity ∧ v2 < c.pdg.graph.capacity)
  | .machine (.call _) => false
  | .machine .internal => c.enabled .internal

theorem isRun_execGraph {es : List (GraphEvent Val Fn)}
    (h : RunOk (fun c e ↦ Config.enabledGraph c e = true) c (trace Config.execGraph c es)) :
    IsRun GraphStep c (trace Config.execGraph c es) := by
  refine isRun_trace (h.mono ?_)
  rintro ⟨g, stack⟩ e he
  cases e with
  | pdgAddVertex prop =>
    obtain rfl : stack = [] := List.isEmpty_iff.mp he
    exact .pdgAddVertex prop
  | pdgRemoveVertex v =>
    obtain ⟨hempty, hv⟩ := (Bool.and_eq_true _ _).mp he
    obtain rfl : stack = [] := List.isEmpty_iff.mp hempty
    exact .pdgRemoveVertex (of_decide_eq_true hv)
  | machine e =>
    cases e with
    | internal =>
      cases machineStep_exec _ .internal he with
      | internal hnext => exact .internal hnext
    | call f =>
      cases f with
      | uniteSubnodes v1 v2 =>
        obtain ⟨hempty, hv⟩ := (Bool.and_eq_true _ _).mp he
        obtain rfl : stack = [] := List.isEmpty_iff.mp hempty
        have hrange : v1 < g.graph.capacity ∧ v2 < g.graph.capacity := of_decide_eq_true hv
        exact .call trivial hrange
      | _ => cases he

theorem exists_returns (g : PDG Val Fn) (f : Frame) (rounds : ℕ) (check : PDG Val Fn → Bool)
    (h : (iterate Config.next rounds ⟨g, [f]⟩).map
      (fun c ↦ c.stack.isEmpty && check c.pdg) = some true) :
    ∃ g', Returns g f g' ∧ check g' = true := by
  obtain ⟨⟨g', stack⟩, hrun, hcheck⟩ := Option.map_eq_some_iff.mp h
  obtain ⟨hempty, hcheck⟩ := (Bool.and_eq_true _ _).mp hcheck
  obtain rfl : stack = [] := List.isEmpty_iff.mp hempty
  refine ⟨g', reaches_of_iterate (fun c c' hnext ↦ ?_) hrun, hcheck⟩
  exact machineStep_of_next hnext

/-- A vertex without a function and one with a function are united. -/
def twoFunctionsEvents : List (GraphEvent Empty Unit) :=
  [.pdgAddVertex {}, .pdgAddVertex { function := some () }, .machine (.call (.uniteSubnodes 0 1))]
    ++ List.replicate 7 (.machine .internal)

/-- The graph after these events. -/
def twoFunctions : Config Empty Unit := twoFunctionsEvents.foldl Config.execGraph ⟨.init 32 5, []⟩

/-- The second time the pair is remembered, and the two vertices stay linked. -/
theorem twoFunctions_linkedBothWays :
    ∃ t g', IsRun GraphStep ⟨.init 32 5, []⟩ t ∧
      RunOk (fun c e ↦ GraphEvent.Fresh c e) ⟨.init 32 5, []⟩ t ∧
      ⟨twoFunctions.pdg, []⟩ ∈ runStates ⟨.init 32 5, []⟩ t ∧
      ¬ twoFunctions.pdg.MergingPath 0 1 ∧ sortedPair 0 1 ∈ twoFunctions.pdg.unitedNodes ∧
      Returns twoFunctions.pdg (.uniteSubnodes 0 1) g' ∧ g'.Live 0 ∧ g'.Live 1 ∧
      g'.LinkedBothWays 0 1 := by
  have hrun : IsRun GraphStep ⟨.init 32 5, []⟩
      (trace Config.execGraph ⟨.init 32 5, []⟩ twoFunctionsEvents) :=
    isRun_execGraph (by decide +kernel)
  have hfresh : RunOk (fun c e ↦ GraphEvent.Fresh c e) ⟨.init 32 5, []⟩
      (trace Config.execGraph ⟨.init 32 5, []⟩ twoFunctionsEvents) := by decide +kernel
  have hstack : twoFunctions = ⟨twoFunctions.pdg, []⟩ := by
    have hempty : twoFunctions.stack.isEmpty = true := by decide +kernel
    exact congrArg (Config.mk twoFunctions.pdg) (List.isEmpty_iff.mp hempty)
  have hmem : ⟨twoFunctions.pdg, []⟩ ∈ runStates ⟨.init 32 5, []⟩
      (trace Config.execGraph ⟨.init 32 5, []⟩ twoFunctionsEvents) :=
    hstack ▸ foldl_mem_runStates_trace ..
  have hpath : ¬ twoFunctions.pdg.MergingPath 0 1 := by decide +kernel
  have hpair : sortedPair 0 1 ∈ twoFunctions.pdg.unitedNodes := by decide +kernel
  obtain ⟨g', hret, hlive⟩ := exists_returns twoFunctions.pdg (.uniteSubnodes 0 1) 10
    (fun g ↦ decide (g.Live 0 ∧ g.Live 1)) (by decide +kernel)
  obtain ⟨hv1, hv2⟩ := of_decide_eq_true hlive
  exact ⟨_, g', hrun, hfresh, hmem, hpath, hpair, hret, hv1, hv2,
    linkedBothWays_of_run hrun hmem Nat.zero_ne_one hpath (Or.inl hfresh) hret hv1 hv2⟩

/-- Then the second vertex is removed, and another one gets its id. -/
def recycledEvents : List (GraphEvent Empty Unit) :=
  twoFunctionsEvents ++ [.pdgRemoveVertex 1, .pdgAddVertex { function := some () }]

/-- The new vertex is not linked, because the pair is still remembered. -/
theorem not_linkedBothWays_recycled :
    ¬ ∀ t : List (GraphEvent Empty Unit × Config Empty Unit),
      IsRun GraphStep ⟨.init 32 5, []⟩ t → ∀ g, ⟨g, []⟩ ∈ runStates ⟨.init 32 5, []⟩ t →
      ∀ v1 v2, v1 ≠ v2 → g.Live v1 → g.Live v2 → ¬ g.MergingPath v1 v2 →
      ∀ g', Returns g (.uniteSubnodes v1 v2) g' → g'.Live v1 → g'.Live v2 →
        g'.LinkedBothWays v1 v2 := by
  intro hall
  let c : Config Empty Unit := recycledEvents.foldl Config.execGraph ⟨.init 32 5, []⟩
  have hrun : IsRun GraphStep ⟨.init 32 5, []⟩
      (trace Config.execGraph ⟨.init 32 5, []⟩ recycledEvents) :=
    isRun_execGraph (by decide +kernel)
  have hmem : ⟨c.pdg, []⟩ ∈ runStates ⟨.init 32 5, []⟩
      (trace Config.execGraph ⟨.init 32 5, []⟩ recycledEvents) :=
    foldl_mem_runStates_trace ..
  obtain ⟨g', hret, hcheck⟩ := exists_returns c.pdg (.uniteSubnodes 0 1) 10
    (fun g ↦ decide (g.Live 0 ∧ g.Live 1 ∧ (g.node 1).constant = false ∧
      ¬ g.HasEdge 0 .dataEdge 1)) (by decide +kernel)
  obtain ⟨hv1, hv2, hconstant, hnot⟩ := of_decide_eq_true hcheck
  have hlinked := hall _ hrun c.pdg hmem 0 1 Nat.zero_ne_one (by decide +kernel)
    (by decide +kernel) (by decide +kernel) g' hret hv1 hv2
  exact hnot (hlinked.1 hconstant)

end Cali.Passes
