import Cali.Passes.Index

/-!
# What the steps of calls keep

No step adds a vertex or removes an edge between vertices that stay, and all ids that the
calls handle are ids of slots of the graph.
-/

namespace Cali.Passes

open Cali.Graph

variable {Val Fn : Type} [DecidableEq Fn] {c c' : Config Val Fn} {u v w : ℕ} {p : PDGEdge}

theorem PDG.live_mergeInto {g : PDG Val Fn} {a b : ℕ} :
    (g.mergeInto a b).Live v ↔ g.Live v ∧ v ≠ b := by
  unfold Live BaseGraph.Live
  rw [capacity_mergeInto, isEmpty_mergeInto]
  split
  · next h => simp [h]
  · next h => exact (and_iff_left h).symm

theorem FrameStep.live (h : FrameStep c c') (hv : c'.pdg.Live v) : c.pdg.Live v := by
  cases h with
  | addData => exact (PDG.sameIndex_addEdge ..).live_iff.mp hv
  | mergeNext h =>
    obtain hsame | ⟨a, b, -, -, -, hmerge⟩ := h.pdg_cases
    · rw [hsame] at hv
      exact hv
    · rw [hmerge] at hv
      exact (PDG.live_mergeInto.mp hv).1
  | mark => exact BaseGraph.live_setProperty.mp hv
  | _ => exact hv

theorem FrameStep.capacity (h : FrameStep c c') :
    c'.pdg.graph.capacity = c.pdg.graph.capacity := by
  cases h with
  | addData => exact (PDG.sameIndex_addEdge ..).capacity
  | mergeNext h =>
    obtain hsame | ⟨a, b, -, -, -, hmerge⟩ := h.pdg_cases
    · exact congrArg (fun g : PDG Val Fn ↦ g.graph.capacity) hsame
    · exact (congrArg (fun g : PDG Val Fn ↦ g.graph.capacity) hmerge).trans
        (PDG.capacity_mergeInto a b)
  | _ => rfl

theorem FrameStep.attribute {α : Type} (φ : PDGNode Val Fn → α)
    (hmark : ∀ (n : PDGNode Val Fn) (sink reaches : Bool),
      φ { n with ipcsink := sink, reachesIpcSink := reaches } = φ n)
    (hjoin : ∀ n m : PDGNode Val Fn, φ (joinAttributes n m) = φ n) (h : FrameStep c c') (v : ℕ) :
    φ (c'.pdg.node v) = φ (c.pdg.node v) := by
  cases h with
  | addData => exact congrArg φ (PDG.node_addEdge ..)
  | mergeNext h =>
    obtain hsame | ⟨a, b, -, hab, -, hmerge⟩ := h.pdg_cases
    · rw [hsame]
    · simp only [hmerge, PDG.node_mergeInto hab]
      split
      · next hv =>
          rw [hv]
          exact hmark ..
      · split
        · next hv => rw [hjoin, hv]
        · rfl
  | @mark g u _ _ =>
    simp only [PDG.node_setNode]
    split
    · next hv =>
        rw [hv]
        exact hmark (g.node u) true (g.node u).reachesIpcSink
    · rfl
  | _ => rfl

theorem FrameStep.constant (h : FrameStep c c') (v : ℕ) :
    (c'.pdg.node v).constant = (c.pdg.node v).constant :=
  h.attribute PDGNode.constant (fun _ _ _ ↦ rfl) (fun _ _ ↦ by rw [joinAttributes_eq]) v

theorem FrameStep.mirrored (h : FrameStep c c') (hm : c.pdg.graph.Mirrored) :
    c'.pdg.graph.Mirrored := by
  cases h with
  | addData => exact hm.addEdge ..
  | mergeNext h =>
    obtain hsame | ⟨a, b, -, -, -, hmerge⟩ := h.pdg_cases
    · rw [hsame]
      exact hm
    · rw [hmerge]
      exact PDG.mirrored_mergeInto hm a b
  | mark => exact PDG.mirrored_setNode hm ..
  | _ => exact hm

theorem FrameStep.hasEdge (h : FrameStep c c') (hm : c.pdg.graph.Mirrored)
    (he : c.pdg.HasEdge u p w) (hu : c'.pdg.Live u) (hw : c'.pdg.Live w) :
    c'.pdg.HasEdge u p w := by
  cases h with
  | addData => exact PDG.hasEdge_addEdge.mpr (Or.inl he)
  | mergeNext h =>
    obtain hsame | ⟨a, b, -, -, -, hmerge⟩ := h.pdg_cases
    · rw [hsame]
      exact he
    · rw [hmerge] at hu hw ⊢
      exact (PDG.hasEdge_mergeInto_iff hm).mpr
        ⟨Or.inl he, (PDG.live_mergeInto.mp hu).2, (PDG.live_mergeInto.mp hw).2⟩
  | mark => exact (PDG.hasEdge_setNode ..).mpr he
  | _ => exact he

/-! ## Ids of slots -/

omit [DecidableEq Fn]

/-- The vertices that a call handles are below `n`. -/
def Frame.InRange (n : ℕ) : Frame → Prop
  | .addSubnodeEdges v1 v2 _ => v1 < n ∧ v2 < n
  | .addLoop v1 v2 _ _ => v1 < n ∧ v2 < n
  | .uniteSubnodes v1 v2 => v1 < n ∧ v2 < n
  | .uniteLoop queue oldToNew =>
    (∀ p ∈ queue, p.1 < n ∧ p.2 < n) ∧ ∀ x y, oldToNew x = some y → y < n
  | .markAsShared v => v < n
  | .markAsPointerToShared v => v < n

/-- All vertices that are handled have a slot. -/
structure Config.InRange (c : Config Val Fn) : Prop where
  pdg : c.pdg.Linked
  frames : ∀ f ∈ c.stack, f.InRange c.pdg.graph.capacity

namespace PDG

variable {g : PDG Val Fn} {e : Edge PDGEdge} {f : Frame} {v1 v2 : ℕ} {k : ℤ}

theorem Linked.target_lt (h : g.Linked) (he : e ∈ g.graph.outEdges v) :
    e.target < g.graph.capacity :=
  (h.inside v e.property e.target (h.mirrored.mem_outEdges_iff.mp he).2).2

theorem Linked.follow_lt (h : g.Linked) (hw : g.follow p v = some w) :
    w < g.graph.capacity := by
  obtain ⟨q, -, hq⟩ := exists_hasEdge_of_follow h.mirrored hw
  exact (h.inside v q w hq).2

theorem Linked.subnodeCalls (h : g.Linked) (he : e ∈ g.graph.outEdges v1)
    (hf : f ∈ g.subnodeCalls v1 v2 k e) : f.InRange g.graph.capacity := by
  obtain ⟨v2s, hv2s, ⟨-, -, rfl⟩ | ⟨-, -, rfl⟩ | ⟨-, rfl⟩⟩ := mem_subnodeCalls hf
  all_goals exact ⟨h.target_lt he, h.follow_lt hv2s⟩

theorem Linked.markCalls (h : g.Linked) {onPart : ℕ → Frame}
    (hf : f ∈ g.markCalls v onPart)
    (honPart : ∀ w < g.graph.capacity, (onPart w).InRange g.graph.capacity) :
    f.InRange g.graph.capacity := by
  obtain ⟨e, he, ⟨-, rfl⟩ | ⟨-, rfl⟩⟩ := exists_of_mem_markCalls hf
  · exact h.target_lt he
  · exact honPart _ (h.target_lt he)

theorem Linked.addEdge (h : g.Linked) (hu : u < g.graph.capacity)
    (hw : w < g.graph.capacity) (p : PDGEdge) : (g.addEdge u w p).Linked where
  mirrored := h.mirrored.addEdge ..
  inside a q b he := by
    rw [(sameIndex_addEdge ..).capacity]
    rcases hasEdge_addEdge.mp he with he | ⟨rfl, -, rfl⟩
    · exact h.inside a q b he
    · exact ⟨hu, hw⟩

theorem Linked.setNode (h : g.Linked) (n : PDGNode Val Fn) :
    (g.setNode v n).Linked where
  mirrored := mirrored_setNode h.mirrored ..
  inside a q b he := h.inside a q b ((hasEdge_setNode ..).mp he)

theorem Linked.mergeInto [DecidableEq Fn] {a b : ℕ} (h : g.Linked)
    (ha : a < g.graph.capacity) : (g.mergeInto a b).Linked where
  mirrored := mirrored_mergeInto h.mirrored a b
  inside u p w he := by
    rw [capacity_mergeInto]
    obtain ⟨hold | ⟨rfl, hold, -⟩ | ⟨rfl, hold⟩, -, -⟩ := (hasEdge_mergeInto_iff h.mirrored).mp he
    · exact h.inside _ _ _ hold
    · exact ⟨ha, (h.inside _ _ _ hold).2⟩
    · exact ⟨(h.inside _ _ _ hold).1, ha⟩

theorem Linked.matchedPairs {a b : ℕ} (h : g.Linked) {x : ℕ × ℕ}
    (hx : x ∈ g.matchedPairs a b) : x.1 < g.graph.capacity ∧ x.2 < g.graph.capacity := by
  obtain ⟨q, hedge, hmatch⟩ := (mem_matchedPairs h.mirrored).mp hx
  obtain ⟨q', hedge', -⟩ := exists_hasEdge_of_matchOf h.mirrored hmatch
  exact ⟨(h.inside _ _ _ hedge').2, (h.inside _ _ _ hedge).2⟩

end PDG

variable [DecidableEq Fn]

/-- One iteration of the loop of `uniteSubnodes`. -/
theorem UniteStep.inRange {g : PDG Val Fn} {queue : List (ℕ × ℕ)} {oldToNew : ℕ → Option ℕ}
    {s : UniteState Val Fn} (h : UniteStep ⟨g, queue, oldToNew⟩ s) (hg : g.Linked)
    (hf : (Frame.uniteLoop queue oldToNew).InRange g.graph.capacity) :
    s.pdg.Linked ∧
      (Frame.uniteLoop s.queue s.oldToNew).InRange s.pdg.graph.capacity := by
  obtain ⟨hqueue, hmap⟩ := hf
  obtain ⟨x, y, rest, hq, rfl | ⟨a, b, -, hsel, -, -, rfl⟩⟩ := h.cases
  · obtain rfl : queue = (x, y) :: rest := hq
    exact ⟨hg, fun p hp ↦ hqueue p (List.mem_cons_of_mem _ hp), hmap⟩
  · obtain rfl : queue = (x, y) :: rest := hq
    have hxy := hqueue (x, y) List.mem_cons_self
    have ha := (PDG.selectPair_mem hmap hxy.1 hxy.2 hsel).1
    refine ⟨hg.mergeInto ha, ?_⟩
    rw [PDG.capacity_mergeInto]
    refine ⟨fun p hp ↦ ?_, fun u v huv ↦ ?_⟩
    · rcases List.mem_append.mp hp with hp | hp
      · exact hqueue p (List.mem_cons_of_mem _ hp)
      · exact hg.matchedPairs hp
    · change Function.update oldToNew b (some a) u = some v at huv
      by_cases hu : u = b
      · rw [hu, Function.update_self, Option.some.injEq] at huv
        exact huv ▸ ha
      · rw [Function.update_of_ne hu] at huv
        exact hmap u v huv

theorem FrameStep.inRange (h : FrameStep c c') (hc : c.InRange) : c'.InRange := by
  obtain ⟨hg, hframes⟩ := hc
  cases h with
  | nothingToAdd => exact ⟨hg, (Config.forall_stack hframes).2⟩
  | addData =>
    obtain ⟨hf, hstack⟩ := Config.forall_stack hframes
    refine ⟨hg.addEdge hf.1 hf.2 _, ?_⟩
    rw [(PDG.sameIndex_addEdge ..).capacity]
    exact List.forall_mem_cons.mpr ⟨hf, hstack⟩
  | loopReturn => exact ⟨hg, (Config.forall_stack hframes).2⟩
  | loopNext he =>
    obtain ⟨hf, hstack⟩ := Config.forall_stack hframes
    exact ⟨hg, List.forall_mem_append.mpr
      ⟨fun f hcall ↦ hg.subnodeCalls (List.mem_of_getElem? he) hcall,
        List.forall_mem_cons.mpr ⟨hf, hstack⟩⟩⟩
  | @merge g v1 v2 stack _ =>
    obtain ⟨hf, hstack⟩ := Config.forall_stack hframes
    have hnone : ∀ x y : ℕ, (none : Option ℕ) = some y → y < g.graph.capacity := fun _ y h ↦
      absurd h.symm (Option.some_ne_none y)
    exact ⟨hg, List.forall_mem_cons.mpr ⟨⟨List.forall_mem_singleton.mpr hf, hnone⟩, hstack⟩⟩
  | remembered => exact ⟨hg, (Config.forall_stack hframes).2⟩
  | @link g v1 v2 stack hpath hmem =>
    obtain ⟨hf, hstack⟩ := Config.forall_stack hframes
    have hpair : (sortedPair v1 v2).1 < g.graph.capacity ∧
        (sortedPair v1 v2).2 < g.graph.capacity :=
      sortedPair_of_symm (R := fun a b ↦ a < g.graph.capacity ∧ b < g.graph.capacity)
        (fun _ _ h ↦ h.symm) hf
    exact ⟨⟨hg.mirrored, hg.inside⟩, List.forall_mem_cons.mpr ⟨hpair,
      List.forall_mem_cons.mpr ⟨hpair.symm, hstack⟩⟩⟩
  | mergeReturn => exact ⟨hg, (Config.forall_stack hframes).2⟩
  | mergeNext hs =>
    obtain ⟨hf, hstack⟩ := Config.forall_stack hframes
    obtain ⟨hg', hf'⟩ := hs.inRange hg hf
    refine ⟨hg', List.forall_mem_cons.mpr ⟨hf', ?_⟩⟩
    rw [(@FrameStep.mergeNext Val Fn _ _ _ _ [] _ hs).capacity]
    exact hstack
  | marked => exact ⟨hg, (Config.forall_stack hframes).2⟩
  | mark =>
    exact ⟨hg.setNode _, List.forall_mem_append.mpr
      ⟨fun f hcall ↦ hg.markCalls hcall fun _ hw ↦ hw, (Config.forall_stack hframes).2⟩⟩
  | markPointer =>
    exact ⟨hg, List.forall_mem_append.mpr
      ⟨fun f hcall ↦ hg.markCalls hcall fun _ hw ↦ hw, (Config.forall_stack hframes).2⟩⟩

end Cali.Passes
