import Cali.Lib.Run
import Cali.Passes.Unite

/-!
# Propagation along the structure of values

`addSubnodeEdges` and `uniteSubnodes` call each other, and `markAsShared` and
`markAsPointerToShared` call themselves, on graphs whose structure may be cyclic.
The calls that are going on are a stack of frames, and `machineStep` executes the
topmost one for one step: the start of a call, one iteration of a loop, or a return.
-/

namespace Cali.Passes

open Cali.Graph Cali.Lib

variable {Val Fn : Type}

/-- A call that is going on. -/
inductive Frame where
  | addSubnodeEdges (v1 v2 : ℕ) (constantLevels : ℤ)
  /-- The loop of `addSubnodeEdges` at the index `i`. -/
  | addLoop (v1 v2 : ℕ) (constantLevels : ℤ) (i : ℕ)
  | uniteSubnodes (v1 v2 : ℕ)
  /-- The loop on the merging path of `uniteSubnodes`. -/
  | uniteLoop (queue : List (ℕ × ℕ)) (oldToNew : ℕ → Option ℕ)
  | markAsShared (v : ℕ)
  | markAsPointerToShared (v : ℕ)

/-- The graph and the calls that are going on, the innermost one first. -/
structure Config (Val Fn : Type) where
  pdg : PDG Val Fn
  stack : List Frame

/-- What the loop of `addSubnodeEdges` calls for the edge `e` of `v1`. -/
def PDG.subnodeCalls (g : PDG Val Fn) (v1 v2 : ℕ) (constantLevels : ℤ) (e : Edge PDGEdge) :
    List Frame :=
  match e.property.type with
  | .deref =>
    match g.getDerefOpt v2 with
    | some v2s =>
      if e.target ≠ v2s then
        if constantLevels ≤ 0 then [.uniteSubnodes e.target v2s]
        else [.addSubnodeEdges e.target v2s (constantLevels - 1)]
      else []
    | none => []
  | .part =>
    match g.getPartOpt v2 e.property.index with
    | some v2s =>
      if v1 ≠ e.target ∨ v2 ≠ v2s then [.addSubnodeEdges e.target v2s constantLevels] else []
    | none => []
  | _ => []

/-- What `markAsShared` and `markAsPointerToShared` call for the edges of `v`; the calls
change no edges, so the loop over the edges can be unrolled. -/
def PDG.markCalls (g : PDG Val Fn) (v : ℕ) (onPart : ℕ → Frame) : List Frame :=
  (g.graph.outEdges v).filterMap fun e ↦
    match e.property.type with
    | .deref => some (.markAsShared e.target)
    | .part => some (onPart e.target)
    | _ => none

/-- Execute the topmost call for one step. -/
def machineStep [DecidableEq Fn] (c : Config Val Fn) : Iteration (Config Val Fn) :=
  match c.stack with
  | [] => .finished
  | .addSubnodeEdges v1 v2 k :: stack =>
    if v1 = v2 then .next ⟨c.pdg, stack⟩
    else if (c.pdg.node v2).constant then .next ⟨c.pdg, stack⟩
    else .next ⟨c.pdg.addEdge v1 v2 .dataEdge, .addLoop v1 v2 k 0 :: stack⟩
  | .addLoop v1 v2 k i :: stack =>
    match (c.pdg.graph.outEdges v1)[i]? with
    | none => .next ⟨c.pdg, stack⟩
    | some e => .next ⟨c.pdg, c.pdg.subnodeCalls v1 v2 k e ++ .addLoop v1 v2 k (i + 1) :: stack⟩
  | .uniteSubnodes v1 v2 :: stack =>
    if c.pdg.MergingPath v1 v2 then .next ⟨c.pdg, .uniteLoop [(v1, v2)] (fun _ ↦ none) :: stack⟩
    else
      let v := if v1 > v2 then (v2, v1) else (v1, v2)
      if v ∈ c.pdg.unitedNodes then .next ⟨c.pdg, stack⟩
      else .next ⟨{ c.pdg with unitedNodes := insert v c.pdg.unitedNodes },
        .addSubnodeEdges v.1 v.2 0 :: .addSubnodeEdges v.2 v.1 0 :: stack⟩
  | .uniteLoop queue oldToNew :: stack =>
    match uniteIteration ⟨c.pdg, queue, oldToNew⟩ with
    | .finished => .next ⟨c.pdg, stack⟩
    | .next s => .next ⟨s.pdg, .uniteLoop s.queue s.oldToNew :: stack⟩
    | .throw what s => .throw what ⟨s.pdg, stack⟩
    | .diverge => .diverge
  | .markAsShared v :: stack =>
    if (c.pdg.node v).ipcsink then .next ⟨c.pdg, stack⟩
    else .next ⟨c.pdg.setNode v { c.pdg.node v with ipcsink := true },
      c.pdg.markCalls v .markAsShared ++ stack⟩
  | .markAsPointerToShared v :: stack =>
    .next ⟨c.pdg, c.pdg.markCalls v .markAsPointerToShared ++ stack⟩

/-- The merge that the next step makes, if it makes one. -/
def Config.nextMerge (c : Config Val Fn) : Option (ℕ × ℕ) :=
  match c.stack with
  | .uniteLoop queue oldToNew :: _ => UniteState.nextMerge ⟨c.pdg, queue, oldToNew⟩
  | _ => none

theorem Config.forall_stack {g : PDG Val Fn} {f : Frame} {stack : List Frame} {P : Frame → Prop}
    (h : ∀ f' ∈ (⟨g, f :: stack⟩ : Config Val Fn).stack, P f') : P f ∧ ∀ f' ∈ stack, P f' :=
  List.forall_mem_cons.mp h

/-! ## The steps

There is a case for each thing that the topmost call can do: it returns, it calls something, it
adds a `Data` edge, it remembers a pair of vertices, it merges two vertices or it marks one. -/

/-- The pair that `uniteSubnodes` looks up in `united_nodes`. -/
def sortedPair (v1 v2 : ℕ) : ℕ × ℕ := if v1 > v2 then (v2, v1) else (v1, v2)

theorem sortedPair_cases (v1 v2 : ℕ) :
    sortedPair v1 v2 = (v1, v2) ∨ sortedPair v1 v2 = (v2, v1) := by
  unfold sortedPair
  split
  · exact Or.inr rfl
  · exact Or.inl rfl

theorem sortedPair_of_symm {R : ℕ → ℕ → Prop} (hsymm : ∀ a b, R a b → R b a) {v1 v2 : ℕ}
    (h : R v1 v2) : R (sortedPair v1 v2).1 (sortedPair v1 v2).2 := by
  rcases sortedPair_cases v1 v2 with heq | heq
  · rw [heq]
    exact h
  · rw [heq]
    exact hsymm v1 v2 h

/-- One step of the topmost call. -/
inductive FrameStep [DecidableEq Fn] : Config Val Fn → Config Val Fn → Prop
  /-- `addSubnodeEdges` returns at once. -/
  | nothingToAdd {g : PDG Val Fn} {v1 v2 : ℕ} {k : ℤ} {stack : List Frame}
      (h : v1 = v2 ∨ (g.node v2).constant = true) :
      FrameStep ⟨g, .addSubnodeEdges v1 v2 k :: stack⟩ ⟨g, stack⟩
  | addData {g : PDG Val Fn} {v1 v2 : ℕ} {k : ℤ} {stack : List Frame} (hne : v1 ≠ v2)
      (hconstant : (g.node v2).constant = false) :
      FrameStep ⟨g, .addSubnodeEdges v1 v2 k :: stack⟩
        ⟨g.addEdge v1 v2 .dataEdge, .addLoop v1 v2 k 0 :: stack⟩
  | loopReturn {g : PDG Val Fn} {v1 v2 i : ℕ} {k : ℤ} {stack : List Frame}
      (h : (g.graph.outEdges v1)[i]? = none) :
      FrameStep ⟨g, .addLoop v1 v2 k i :: stack⟩ ⟨g, stack⟩
  | loopNext {g : PDG Val Fn} {v1 v2 i : ℕ} {k : ℤ} {stack : List Frame} {e : Edge PDGEdge}
      (h : (g.graph.outEdges v1)[i]? = some e) :
      FrameStep ⟨g, .addLoop v1 v2 k i :: stack⟩
        ⟨g, g.subnodeCalls v1 v2 k e ++ .addLoop v1 v2 k (i + 1) :: stack⟩
  | merge {g : PDG Val Fn} {v1 v2 : ℕ} {stack : List Frame} (h : g.MergingPath v1 v2) :
      FrameStep ⟨g, .uniteSubnodes v1 v2 :: stack⟩
        ⟨g, .uniteLoop [(v1, v2)] (fun _ ↦ none) :: stack⟩
  | remembered {g : PDG Val Fn} {v1 v2 : ℕ} {stack : List Frame} (h : ¬ g.MergingPath v1 v2)
      (hmem : sortedPair v1 v2 ∈ g.unitedNodes) :
      FrameStep ⟨g, .uniteSubnodes v1 v2 :: stack⟩ ⟨g, stack⟩
  | link {g : PDG Val Fn} {v1 v2 : ℕ} {stack : List Frame} (h : ¬ g.MergingPath v1 v2)
      (hmem : sortedPair v1 v2 ∉ g.unitedNodes) :
      FrameStep ⟨g, .uniteSubnodes v1 v2 :: stack⟩
        ⟨{ g with unitedNodes := insert (sortedPair v1 v2) g.unitedNodes },
          .addSubnodeEdges (sortedPair v1 v2).1 (sortedPair v1 v2).2 0 ::
            .addSubnodeEdges (sortedPair v1 v2).2 (sortedPair v1 v2).1 0 :: stack⟩
  | mergeReturn {g : PDG Val Fn} {oldToNew : ℕ → Option ℕ} {stack : List Frame} :
      FrameStep ⟨g, .uniteLoop [] oldToNew :: stack⟩ ⟨g, stack⟩
  | mergeNext {g : PDG Val Fn} {queue : List (ℕ × ℕ)} {oldToNew : ℕ → Option ℕ}
      {stack : List Frame} {s : UniteState Val Fn} (h : UniteStep ⟨g, queue, oldToNew⟩ s) :
      FrameStep ⟨g, .uniteLoop queue oldToNew :: stack⟩
        ⟨s.pdg, .uniteLoop s.queue s.oldToNew :: stack⟩
  | marked {g : PDG Val Fn} {v : ℕ} {stack : List Frame} (h : (g.node v).ipcsink = true) :
      FrameStep ⟨g, .markAsShared v :: stack⟩ ⟨g, stack⟩
  | mark {g : PDG Val Fn} {v : ℕ} {stack : List Frame} (h : (g.node v).ipcsink = false) :
      FrameStep ⟨g, .markAsShared v :: stack⟩
        ⟨g.setNode v { g.node v with ipcsink := true }, g.markCalls v .markAsShared ++ stack⟩
  | markPointer {g : PDG Val Fn} {v : ℕ} {stack : List Frame} :
      FrameStep ⟨g, .markAsPointerToShared v :: stack⟩
        ⟨g, g.markCalls v .markAsPointerToShared ++ stack⟩

theorem frameStep_of_machineStep [DecidableEq Fn] {c c' : Config Val Fn}
    (h : machineStep c = .next c') : FrameStep c c' := by
  obtain ⟨g, stack⟩ := c
  cases stack with
  | nil => cases h
  | cons f stack =>
    cases f with
    | addSubnodeEdges v1 v2 k =>
      simp only [machineStep] at h
      split at h
      · next heq =>
          cases h
          exact .nothingToAdd (Or.inl heq)
      · next hne =>
          split at h
          · next hconstant =>
              cases h
              exact .nothingToAdd (Or.inr hconstant)
          · next hconstant =>
              cases h
              exact .addData hne (Bool.not_eq_true _ ▸ hconstant)
    | addLoop v1 v2 k i =>
      simp only [machineStep] at h
      split at h
      · next hend =>
          cases h
          exact .loopReturn hend
      · next e he =>
          cases h
          exact .loopNext he
    | uniteSubnodes v1 v2 =>
      simp only [machineStep] at h
      split at h
      · next hpath =>
          cases h
          exact .merge hpath
      · next hpath =>
          generalize hv : (if v1 > v2 then (v2, v1) else (v1, v2)) = v at h
          obtain rfl : sortedPair v1 v2 = v := hv
          split at h
          · next hmem =>
              cases h
              exact .remembered hpath hmem
          · next hmem =>
              cases h
              exact .link hpath hmem
    | uniteLoop queue oldToNew =>
      simp only [machineStep] at h
      split at h
      · next hfin =>
          cases h
          obtain rfl : queue = [] := queue_eq_nil_of_finished hfin
          exact .mergeReturn
      · next s hs =>
          cases h
          exact .mergeNext hs
      · cases h
      · cases h
    | markAsShared v =>
      simp only [machineStep] at h
      split at h
      · next hmark =>
          cases h
          exact .marked hmark
      · next hmark =>
          cases h
          exact .mark (Bool.not_eq_true _ ▸ hmark)
    | markAsPointerToShared v =>
      cases h
      exact .markPointer

namespace PDG

variable {g : PDG Val Fn} {v v1 v2 : ℕ} {k : ℤ} {e : Edge PDGEdge} {f : Frame}

/-- The loop of `addSubnodeEdges` makes a call for what both vertices lead to. -/
theorem mem_subnodeCalls (h : f ∈ g.subnodeCalls v1 v2 k e) :
    ∃ v2s, g.follow e.property v2 = some v2s ∧
      (e.property.type = .deref ∧ k ≤ 0 ∧ f = .uniteSubnodes e.target v2s ∨
        e.property.type = .deref ∧ 0 < k ∧ f = .addSubnodeEdges e.target v2s (k - 1) ∨
        e.property.type = .part ∧ f = .addSubnodeEdges e.target v2s k) := by
  unfold subnodeCalls at h
  unfold follow
  split at h
  · next ht =>
      rw [ht]
      split at h
      · next v2s hv2s =>
          refine ⟨v2s, hv2s, ?_⟩
          split at h
          · split at h
            · next hk => exact Or.inl ⟨rfl, hk, List.mem_singleton.mp h⟩
            · next hk => exact Or.inr (Or.inl ⟨rfl, not_le.mp hk, List.mem_singleton.mp h⟩)
          · exact absurd h List.not_mem_nil
      · exact absurd h List.not_mem_nil
  · next ht =>
      rw [ht]
      split at h
      · next v2s hv2s =>
          refine ⟨v2s, hv2s, ?_⟩
          split at h
          · exact Or.inr (Or.inr ⟨rfl, List.mem_singleton.mp h⟩)
          · exact absurd h List.not_mem_nil
      · exact absurd h List.not_mem_nil
  · exact absurd h List.not_mem_nil

theorem exists_of_mem_markCalls {onPart : ℕ → Frame} (h : f ∈ g.markCalls v onPart) :
    ∃ e ∈ g.graph.outEdges v, e.property.type = .deref ∧ f = .markAsShared e.target ∨
      e.property.type = .part ∧ f = onPart e.target := by
  obtain ⟨e, he, hf⟩ := List.mem_filterMap.mp h
  refine ⟨e, he, ?_⟩
  split at hf
  · next ht => exact Or.inl ⟨ht, (Option.some.inj hf).symm⟩
  · next ht => exact Or.inr ⟨ht, (Option.some.inj hf).symm⟩
  · cases hf

/-- `markAsShared` goes on to everything the vertex points to or contains. -/
theorem mem_markCalls {v w : ℕ} {p : PDGEdge} (hp : p.Structural) (he : g.HasEdge v p w) :
    .markAsShared w ∈ g.markCalls v .markAsShared := by
  refine List.mem_filterMap.mpr ⟨⟨v, w, p⟩, he, ?_⟩
  rcases hp with hp | hp
  · simp [hp]
  · simp [hp]

end PDG

/-! ## Runs -/

/-- What happens to a graph: one of the four functions is called, or the call that is
going on makes a step. -/
inductive MachineEvent where
  | call (f : Frame)
  | internal

/-- The functions that may be called from outside. -/
def Frame.IsCall : Frame → Prop
  | .addLoop .. => False
  | .uniteLoop .. => False
  | _ => True

instance : DecidablePred Frame.IsCall
  | .addLoop .. => isFalse id
  | .uniteLoop .. => isFalse id
  | .addSubnodeEdges .. => isTrue trivial
  | .uniteSubnodes .. => isTrue trivial
  | .markAsShared .. => isTrue trivial
  | .markAsPointerToShared .. => isTrue trivial

/-- A new call starts when the previous one has returned. -/
inductive MachineStep [DecidableEq Fn] : Config Val Fn → MachineEvent → Config Val Fn → Prop
  | call {g : PDG Val Fn} {f : Frame} (hf : f.IsCall) : MachineStep ⟨g, []⟩ (.call f) ⟨g, [f]⟩
  | internal {c c' : Config Val Fn} (h : machineStep c = .next c') : MachineStep c .internal c'

variable [DecidableEq Fn]

/-- The state after an event that can happen. -/
def Config.exec (c : Config Val Fn) : MachineEvent → Config Val Fn
  | .call f => ⟨c.pdg, [f]⟩
  | .internal =>
    match machineStep c with
    | .next c' => c'
    | _ => c

/-- The event can happen. -/
def Config.enabled (c : Config Val Fn) : MachineEvent → Bool
  | .call f => c.stack.isEmpty && decide f.IsCall
  | .internal =>
    match machineStep c with
    | .next _ => true
    | _ => false

theorem machineStep_exec (c : Config Val Fn) (e : MachineEvent) (h : c.enabled e = true) :
    MachineStep c e (c.exec e) := by
  cases e with
  | call f =>
    obtain ⟨g, stack⟩ := c
    simp only [Config.enabled, Bool.and_eq_true, List.isEmpty_iff, decide_eq_true_eq] at h
    obtain ⟨rfl, hf⟩ := h
    exact .call hf
  | internal =>
    simp only [Config.enabled] at h
    refine .internal ?_
    simp only [Config.exec]
    split at h
    · next heq => simp only [heq]
    · cases h

theorem isRun_exec {c : Config Val Fn} {es : List MachineEvent}
    (h : RunOk (fun c e ↦ Config.enabled c e = true) c (trace Config.exec c es)) :
    IsRun MachineStep c (trace Config.exec c es) :=
  isRun_trace (h.mono machineStep_exec)

end Cali.Passes
