import Cali.Lib.Stack
import Cali.Passes.Levels

/-!
# Calls that end

Nothing but the structure of the graph stops the recursion of `addSubnodeEdges` and
`markAsPointerToShared` along `Part` edges.  As long as the members of a value are of a lower
level than the value, the recursion ends: what is left to do is measured by the pairs that
are not remembered in `united_nodes`, and by the calls on the stack.  A cycle of `Part`
edges makes `markAsPointerToShared` call itself forever, and `addSubnodeEdges` between two
vertices of the cycle does so too.
-/

namespace Cali.Passes

open Cali.Graph Cali.Lib

variable {Val Fn : Type} [DecidableEq Fn]

/-- The calls that are going on end: all of them return, or an exception ends them. -/
def Config.Ends (c : Config Val Fn) : Prop :=
  ∃ c', Relation.ReflTransGen (fun c c' ↦ machineStep c = .next c') c c' ∧
    (machineStep c' = .finished ∨ ∃ what s, machineStep c' = .throw what s)

variable {c c' : Config Val Fn}

/-- Only the loop that selects a pair to be merged could run forever inside a step. -/
theorem exists_of_machineStep_diverge (h : machineStep c = .diverge) :
    ∃ queue oldToNew rest, c.stack = .uniteLoop queue oldToNew :: rest ∧
      uniteIteration ⟨c.pdg, queue, oldToNew⟩ = .diverge := by
  obtain ⟨g, stack⟩ := c
  cases stack with
  | nil => cases h
  | cons f stack =>
    cases f with
    | uniteLoop queue oldToNew =>
      refine ⟨queue, oldToNew, stack, rfl, ?_⟩
      simp only [machineStep] at h
      split at h
      · cases h
      · cases h
      · cases h
      · next hloop => exact hloop
    | uniteSubnodes v1 v2 =>
      simp only [machineStep] at h
      split at h
      · cases h
      · generalize (if v1 > v2 then (v2, v1) else (v1, v2)) = v at h
        split at h
        · cases h
        · cases h
    | markAsPointerToShared v => cases h
    | _ =>
      simp only [machineStep] at h
      repeat' split at h
      all_goals cases h

theorem uniteIteration_ne_diverge {s : UniteState Val Fn} (hr : s.pdg.Ranked s.oldToNew) :
    uniteIteration s ≠ .diverge := by
  intro h
  unfold uniteIteration at h
  split at h
  · cases h
  · next x y _ _ =>
      obtain ⟨a, b, hsel, -⟩ := s.pdg.selectPair_spec hr x y
      simp only [hsel] at h
      repeat' split at h
      all_goals cases h

theorem machineStep_of_no_step (hr : c.Ranked) (h : ∀ c', machineStep c ≠ .next c') :
    machineStep c = .finished ∨ ∃ what s, machineStep c = .throw what s := by
  cases hstep : machineStep c with
  | finished => exact Or.inl rfl
  | next c' => exact absurd hstep (h c')
  | throw what s => exact Or.inr ⟨what, s, rfl⟩
  | diverge =>
    obtain ⟨queue, oldToNew, rest, hstack, hloop⟩ := exists_of_machineStep_diverge hstep
    have hmem : .uniteLoop queue oldToNew ∈ c.stack := hstack ▸ List.mem_cons_self
    exact absurd hloop (uniteIteration_ne_diverge (hr queue oldToNew hmem))

theorem ends_of_final (hr : c'.Ranked)
    (hreach : Relation.ReflTransGen (fun c c' ↦ machineStep c = .next c') c c')
    (h : ∀ c'', machineStep c' ≠ .next c'') : c.Ends :=
  ⟨c', hreach, machineStep_of_no_step hr h⟩

theorem ends_of_step (h : machineStep c = .next c') (hc : c'.Ends) : c.Ends := by
  obtain ⟨c'', hreach, hend⟩ := hc
  exact ⟨c'', .head h hreach, hend⟩

/-! ## Marking -/

namespace PDG

variable {g : PDG Val Fn} {v : ℕ}

/-- `w` is a member of `u`. -/
def Member (g : PDG Val Fn) (u w : ℕ) : Prop := ∃ i, g.HasEdge u ⟨.part, i⟩ w

/-- How many vertices are not marked. -/
def unmarked (g : PDG Val Fn) : ℕ :=
  ((Finset.range g.graph.capacity).filter fun v ↦ (g.node v).ipcsink = false).card

omit [DecidableEq Fn] in
theorem unmarked_mark_lt (hv : v < g.graph.capacity) (h : (g.node v).ipcsink = false) :
    (g.setNode v { g.node v with ipcsink := true }).unmarked < g.unmarked := by
  refine Finset.card_lt_card (Finset.ssubset_iff_subset_ne.mpr ⟨fun u hu ↦ ?_, fun heq ↦ ?_⟩)
  · obtain ⟨hu, hmark⟩ := Finset.mem_filter.mp hu
    refine Finset.mem_filter.mpr ⟨hu, ?_⟩
    rw [node_setNode] at hmark
    split at hmark
    · cases hmark
    · exact hmark
  · have hmem : v ∈ (Finset.range g.graph.capacity).filter fun v ↦ (g.node v).ipcsink = false :=
      Finset.mem_filter.mpr ⟨Finset.mem_range.mpr hv, h⟩
    rw [← heq] at hmem
    have hmark := (Finset.mem_filter.mp hmem).2
    rw [node_setNode, if_pos rfl] at hmark
    cases hmark

omit [DecidableEq Fn] in
theorem member_of_mem_outEdges (hm : g.graph.Mirrored) {e : Edge PDGEdge}
    (he : e ∈ g.graph.outEdges v) (ht : e.property.type = .part) : g.Member v e.target := by
  have hedge := (hm.mem_outEdges_iff.mp he).2
  have hlabel : e.property = ⟨.part, e.property.index⟩ :=
    congrArg (PDGEdge.mk · e.property.index) ht
  exact ⟨e.property.index, hlabel ▸ hedge⟩

end PDG

/-- The call marks what the members of `v` point to. -/
def Frame.MarksBelow (g : PDG Val Fn) (v : ℕ) : Frame → Prop
  | .markAsShared _ => True
  | .markAsPointerToShared u => Relation.ReflTransGen g.Member v u
  | _ => False

/-- The calls of `markAsPointerToShared`; they change no edges. -/
structure Config.MarksBelow (g : PDG Val Fn) (v : ℕ) (c : Config Val Fn) : Prop where
  range : c.InRange
  edges : ∀ u, c.pdg.graph.outEdges u = g.graph.outEdges u
  frames : ∀ f ∈ c.stack, f.MarksBelow g v

omit [DecidableEq Fn] in
theorem Config.MarksBelow.ranked {g : PDG Val Fn} {v : ℕ} (h : c.MarksBelow g v) : c.Ranked :=
  fun _ _ hmem ↦ absurd (h.frames _ hmem) not_false

/-- The measure of a call, given the heights of vertices. -/
def Frame.markWeight (height : ℕ → ℕ) : Frame → ℕ
  | .markAsPointerToShared u => height u + 1
  | _ => 0

theorem FrameStep.marks {g : PDG Val Fn} {v : ℕ} (h : FrameStep c c') (hm : g.graph.Mirrored)
    (hc : c.MarksBelow g v) :
    c'.MarksBelow g v ∧ ∀ height : ℕ → ℕ,
      (∀ u w, Relation.ReflTransGen g.Member v u → g.Member u w → height w < height u) →
        Lowers (fun c ↦ c.pdg.unmarked) Config.stack (Frame.markWeight height) c c' := by
  have hrange := h.inRange hc.range
  obtain ⟨hin, hedges, hframes⟩ := hc
  cases h with
  | marked =>
    exact ⟨⟨hrange, hedges, (Config.forall_stack hframes).2⟩,
      fun _ _ ↦ Or.inr ⟨rfl, _, [], _, rfl, rfl, fun _ hf ↦ absurd hf List.not_mem_nil⟩⟩
  | mark hmark =>
    refine ⟨⟨hrange, fun u ↦ ?_, List.forall_mem_append.mpr
        ⟨fun f hcall ↦ ?_, (Config.forall_stack hframes).2⟩⟩,
      fun _ _ ↦ Or.inl (PDG.unmarked_mark_lt (hin.frames _ List.mem_cons_self) hmark)⟩
    · exact (PDG.outEdges_setNode ..).trans (hedges u)
    · obtain ⟨e, -, ⟨-, rfl⟩ | ⟨-, rfl⟩⟩ := PDG.exists_of_mem_markCalls hcall
      · exact trivial
      · exact trivial
  | @markPointer g' u stack =>
    obtain ⟨hu, hstack⟩ := Config.forall_stack hframes
    change Relation.ReflTransGen g.Member v u at hu
    -- the calls are for what `u` points to and for the members of `u`
    have hcalls : ∀ f ∈ g'.markCalls u .markAsPointerToShared, f.MarksBelow g v ∧
        ∀ height : ℕ → ℕ, (∀ w, g.Member u w → height w < height u) →
          f.markWeight height < height u + 1 := by
      intro f hcall
      obtain ⟨e, he, ⟨-, rfl⟩ | ⟨ht, rfl⟩⟩ := PDG.exists_of_mem_markCalls hcall
      · exact ⟨trivial, fun _ _ ↦ Nat.succ_pos _⟩
      · rw [hedges] at he
        have hmember := PDG.member_of_mem_outEdges hm he ht
        exact ⟨hu.tail hmember, fun _ hheight ↦ Nat.succ_lt_succ (hheight _ hmember)⟩
    exact ⟨⟨hrange, hedges, List.forall_mem_append.mpr
      ⟨fun f hcall ↦ (hcalls f hcall).1, hstack⟩⟩, fun height hheight ↦
      Or.inr ⟨rfl, _, _, _, rfl, rfl, fun f hcall ↦
        (hcalls f hcall).2 height fun w ↦ hheight u w hu⟩⟩
  | _ => exact absurd (Config.forall_stack hframes).1 not_false

omit [DecidableEq Fn] in
theorem Config.MarksBelow.start {g : PDG Val Fn} {v : ℕ} (hg : g.Linked)
    (hv : v < g.graph.capacity) :
    (⟨g, [.markAsPointerToShared v]⟩ : Config Val Fn).MarksBelow g v :=
  ⟨⟨hg, List.forall_mem_singleton.mpr hv⟩, fun _ ↦ rfl, List.forall_mem_singleton.mpr .refl⟩

/-- `markAsPointerToShared` ends if no member leads back to itself. -/
theorem ends_markAsPointerToShared {g : PDG Val Fn} {v : ℕ} (hg : g.Linked)
    (hv : v < g.graph.capacity)
    (hcycle : ∀ u, Relation.ReflTransGen g.Member v u → ¬ Relation.TransGen g.Member u u) :
    (⟨g, [.markAsPointerToShared v]⟩ : Config Val Fn).Ends := by
  have hfin : {w | Relation.ReflTransGen g.Member v w}.Finite := by
    refine (Finset.range g.graph.capacity).finite_toSet.subset fun w hw ↦ ?_
    rw [Finset.mem_coe, Finset.mem_range]
    rcases hw.cases_tail with rfl | ⟨u, -, i, he⟩
    · exact hv
    · exact (hg.inside u _ w he).2
  obtain ⟨height, hheight⟩ := exists_rank_of_no_cycle hfin hcycle
  have hstep : ∀ c c' : Config Val Fn, c.MarksBelow g v → machineStep c = .next c' →
      c'.MarksBelow g v ∧
        Lowers (fun c ↦ c.pdg.unmarked) Config.stack (Frame.markWeight height) c c' :=
    fun c c' hc hnext ↦
      ((frameStep_of_machineStep hnext).marks hg.mirrored hc).imp_right fun h ↦ h height hheight
  obtain ⟨c, hreach, hmarks, hend⟩ := exists_final_of_lowers hstep _ (.start hg hv)
  exact ends_of_final hmarks.ranked hreach hend

theorem Config.MarksBelow.acc {g : PDG Val Fn} {v : ℕ} (hc : c.MarksBelow g v)
    (hm : g.graph.Mirrored) (h : c.Ends) {u : ℕ} (hu : .markAsPointerToShared u ∈ c.stack) :
    Acc (fun w u ↦ g.Member u w) u := by
  obtain ⟨c', hreach, hend⟩ := h
  induction hreach using Relation.ReflTransGen.head_induction_on generalizing u with
  | refl =>
    obtain ⟨g', stack⟩ := c'
    cases stack with
    | nil => cases hu
    | cons f stack =>
      have hf := (Config.forall_stack hc.frames).1
      cases f with
      | markAsShared w =>
        simp only [machineStep] at hend
        split at hend <;> simp at hend
      | markAsPointerToShared w => simp [machineStep] at hend
      | _ => exact absurd hf not_false
  | @head c c₁ hst _ ih =>
    have hframe := frameStep_of_machineStep hst
    have ih := @ih (hframe.marks hm hc).1
    cases hframe with
    | marked =>
      rcases List.mem_cons.mp hu with heq | hu
      · cases heq
      · exact ih hu
    | mark =>
      rcases List.mem_cons.mp hu with heq | hu
      · cases heq
      · exact ih (List.mem_append_right _ hu)
    | markPointer =>
      rcases List.mem_cons.mp hu with heq | hu
      · cases heq
        refine Acc.intro _ fun w ↦ ?_
        rintro ⟨i, he⟩
        refine ih (List.mem_append_left _ (List.mem_filterMap.mpr
          ⟨(⟨u, w, ⟨.part, i⟩⟩ : Edge PDGEdge), ?_, rfl⟩))
        exact (hc.edges u).symm ▸ (show _ ∈ g.graph.outEdges u from he)
      · exact ih (List.mem_append_right _ hu)
    | _ => exact absurd (Config.forall_stack hc.frames).1 not_false

/-- **`markAsPointerToShared` ends** exactly if no member leads back to itself. -/
theorem ends_markAsPointerToShared_iff {g : PDG Val Fn} {v : ℕ} (hg : g.Linked)
    (hv : v < g.graph.capacity) :
    (⟨g, [.markAsPointerToShared v]⟩ : Config Val Fn).Ends ↔
      ∀ u, Relation.ReflTransGen g.Member v u → ¬ Relation.TransGen g.Member u u := by
  refine ⟨fun h u hu ↦ ?_, ends_markAsPointerToShared hg hv⟩
  have hacc : Acc (fun w u ↦ g.Member u w) u := by
    induction hu with
    | refl => exact (Config.MarksBelow.start hg hv).acc hg.mirrored h List.mem_cons_self
    | tail _ hmember ih => exact ih.inv hmember
  induction hacc with
  | intro u _ ih =>
    intro hcycle
    obtain ⟨w, huw, hwu⟩ := Relation.TransGen.head'_iff.mp hcycle
    exact ih w huw (hu.tail huw) (.tail' hwu huw)

/-! ## Propagating -/

/-- How many pairs of vertices are not remembered. -/
def PDG.unlinked (g : PDG Val Fn) : ℕ :=
  ((Finset.range g.graph.capacity ×ˢ Finset.range g.graph.capacity) \ g.unitedNodes).card

omit [DecidableEq Fn] in
theorem PDG.unlinked_insert_lt {g : PDG Val Fn} {pair : ℕ × ℕ} (h1 : pair.1 < g.graph.capacity)
    (h2 : pair.2 < g.graph.capacity) (hmem : pair ∉ g.unitedNodes) :
    PDG.unlinked { g with unitedNodes := insert pair g.unitedNodes } < g.unlinked := by
  refine Finset.card_lt_card (Finset.ssubset_iff_of_subset ?_ |>.mpr ⟨pair, ?_, ?_⟩)
  · exact Finset.sdiff_subset_sdiff (Finset.Subset.refl _) (Finset.subset_insert ..)
  · exact Finset.mem_sdiff.mpr ⟨Finset.mem_product.mpr
      ⟨Finset.mem_range.mpr h1, Finset.mem_range.mpr h2⟩, hmem⟩
  · exact fun h ↦ (Finset.mem_sdiff.mp h).2 (Finset.mem_insert_self ..)

/-- The measure of a call in a graph with `n` slots and at most `degree` edges at a vertex:
the levels of constants, then the height of the vertex, then the edges that are left. -/
def Frame.weight (n degree : ℕ) (height : ℕ → ℕ) : Frame → ℕ ×ₗ ℕ ×ₗ ℕ
  | .addSubnodeEdges v1 _ k => toLex (k.toNat + 1, toLex (2 * height v1 + 1, 0))
  | .addLoop v1 _ k i => toLex (k.toNat + 1, toLex (2 * height v1, degree - i))
  | .uniteSubnodes _ _ => toLex (0, toLex (n + 1, 0))
  | .uniteLoop queue oldToNew =>
    toLex (0, toLex (((Finset.range n).filter fun x ↦ oldToNew x = none).card, queue.length))
  | .markAsShared _ => toLex (0, toLex (0, 0))
  | .markAsPointerToShared _ => toLex (0, toLex (0, 0))

/-- The topmost call does not mark, and if it is at an edge, members are lower. -/
def Config.Descends (degree : ℕ) (height : ℕ → ℕ) (c : Config Val Fn) : Prop :=
  match c.stack with
  | .addLoop v1 _ _ _ :: _ => (c.pdg.graph.outEdges v1).length ≤ degree ∧
      ∀ e ∈ c.pdg.graph.outEdges v1, e.property.type = .part → height e.target < height v1
  | .markAsShared _ :: _ => False
  | .markAsPointerToShared _ :: _ => False
  | _ => True

section Weight

variable {n degree : ℕ} {height : ℕ → ℕ} {v1 v2 : ℕ} {k : ℤ}

omit [DecidableEq Fn] in
theorem weight_subnodeCalls_lt {g : PDG Val Fn} {e : Edge PDGEdge} {f : Frame} {i : ℕ}
    (hpart : e.property.type = .part → height e.target < height v1)
    (hf : f ∈ g.subnodeCalls v1 v2 k e) :
    f.weight n degree height < (Frame.addLoop v1 v2 k i).weight n degree height := by
  obtain ⟨v2s, -, ⟨-, -, rfl⟩ | ⟨-, hk, rfl⟩ | ⟨ht, rfl⟩⟩ := PDG.mem_subnodeCalls hf
  · exact Prod.Lex.left _ _ (Nat.succ_pos _)
  · exact Prod.Lex.left _ _ (by omega)
  · have hlt := hpart ht
    exact Prod.Lex.right _ (Prod.Lex.left _ _ (by omega))

theorem weight_addLoop_lt {i : ℕ} (hi : i < degree) :
    (Frame.addLoop v1 v2 k (i + 1)).weight n degree height <
      (Frame.addLoop v1 v2 k i).weight n degree height :=
  Prod.Lex.right _ (Prod.Lex.right _ (by omega))

theorem weight_uniteLoop_lt {queue : List (ℕ × ℕ)} {oldToNew : ℕ → Option ℕ} :
    (Frame.uniteLoop queue oldToNew).weight n degree height <
      (Frame.uniteSubnodes v1 v2).weight n degree height := by
  have hcard := Finset.card_filter_le (Finset.range n) fun x ↦ oldToNew x = none
  rw [Finset.card_range] at hcard
  exact Prod.Lex.right _ (Prod.Lex.left _ _ (Nat.lt_succ_of_le hcard))

theorem FrameStep.lowers (h : FrameStep c c') (hrange : c.InRange) (hr : c.Ranked)
    (hn : c.pdg.graph.capacity = n) (hdown : c.Descends degree height) :
    Lowers (fun c ↦ c.pdg.unlinked) Config.stack (Frame.weight n degree height) c c' := by
  subst hn
  have hreturn : ∀ {g : PDG Val Fn} {f : Frame} {stack : List Frame},
      Lowers (fun c : Config Val Fn ↦ c.pdg.unlinked) Config.stack
        (Frame.weight c.pdg.graph.capacity degree height) ⟨g, f :: stack⟩ ⟨g, stack⟩ :=
    Or.inr ⟨rfl, _, [], _, rfl, rfl, fun _ hf ↦ absurd hf List.not_mem_nil⟩
  cases h with
  | nothingToAdd => exact hreturn
  | addData =>
    refine Or.inr ⟨?_, _, [_], _, rfl, rfl, List.forall_mem_singleton.mpr ?_⟩
    · simp only [PDG.unlinked, (PDG.sameIndex_addEdge ..).capacity]
      rfl
    · exact Prod.Lex.right _ (Prod.Lex.left _ _ (Nat.lt_succ_self _))
  | loopReturn => exact hreturn
  | @loopNext g v1 v2 i k stack e he =>
    obtain ⟨hdegree, hpart⟩ := hdown
    have hi : i < degree := (List.getElem?_eq_some_iff.mp he).1.trans_le hdegree
    refine Or.inr ⟨rfl, .addLoop v1 v2 k i,
      g.subnodeCalls v1 v2 k e ++ [.addLoop v1 v2 k (i + 1)], stack, rfl, List.append_cons ..,
      List.forall_mem_append.mpr
        ⟨fun f hf ↦ ?_, List.forall_mem_singleton.mpr (weight_addLoop_lt hi)⟩⟩
    exact weight_subnodeCalls_lt (hpart e (List.mem_of_getElem? he)) hf
  | merge =>
    exact Or.inr ⟨rfl, _, [_], _, rfl, rfl, List.forall_mem_singleton.mpr weight_uniteLoop_lt⟩
  | remembered => exact hreturn
  | @link g v1 v2 stack _ hmem =>
    obtain ⟨hfst, hsnd⟩ := sortedPair_of_symm
      (R := fun a b ↦ a < g.graph.capacity ∧ b < g.graph.capacity) (fun _ _ h ↦ h.symm)
      (hrange.frames _ List.mem_cons_self)
    exact Or.inl (PDG.unlinked_insert_lt hfst hsnd hmem)
  | mergeReturn => exact hreturn
  | mergeNext hs =>
    obtain ⟨hqueue, hmap⟩ := hrange.frames _ List.mem_cons_self
    have hlt := hs.measure_lt (hr _ _ List.mem_cons_self) hqueue hmap
    have hcapacity := (@FrameStep.mergeNext Val Fn _ _ _ _ [] _ hs).capacity
    refine Or.inr ⟨?_, _, [_], _, rfl, rfl, List.forall_mem_singleton.mpr ?_⟩
    · obtain hsame | ⟨a, b, -, -, -, hmerge⟩ := hs.pdg_cases
      · exact congrArg PDG.unlinked hsame
      · simp only [PDG.unlinked, hmerge, PDG.capacity_mergeInto, unitedNodes_mergeInto]
    · simp only [uniteMeasure] at hlt
      rw [hcapacity] at hlt
      exact Prod.Lex.right _ hlt
  | marked => exact absurd hdown not_false
  | mark => exact absurd hdown not_false
  | markPointer => exact absurd hdown not_false

end Weight

/-! ## Vertices of the same kind -/

namespace PDG

variable {g : PDG Val Fn} {labels : Finset PDGEdge}

omit [DecidableEq Fn] in
theorem Linked.exists_labels (hg : g.Linked) :
    ∃ labels : Finset PDGEdge, PDGEdge.dataEdge ∈ labels ∧
      ∀ u p w, g.HasEdge u p w → p ∈ labels := by
  refine ⟨insert .dataEdge ((Finset.range g.graph.capacity).biUnion fun u ↦
    ((g.graph.outEdges u).map (·.property)).toFinset), Finset.mem_insert_self .., ?_⟩
  intro u p w he
  refine Finset.mem_insert_of_mem (Finset.mem_biUnion.mpr
    ⟨u, Finset.mem_range.mpr (hg.inside u p w he).1, List.mem_toFinset.mpr ?_⟩)
  exact List.mem_map.mpr ⟨⟨u, w, p⟩, he, rfl⟩

omit [DecidableEq Fn] in
theorem Linked.length_outEdges_le (hg : g.Linked)
    (hlabels : ∀ u p w, g.HasEdge u p w → p ∈ labels) (v : ℕ) :
    (g.graph.outEdges v).length ≤ g.graph.capacity * labels.card := by
  rw [← List.toFinset_card_of_nodup (hg.mirrored.outEdges_nodup v),
    ← Finset.card_range g.graph.capacity, ← Finset.card_product]
  refine Finset.card_le_card_of_injOn (fun e ↦ (e.target, e.property)) (fun e he ↦ ?_) ?_
  · have hedge := (hg.mirrored.mem_outEdges_iff.mp (List.mem_toFinset.mp he)).2
    exact Finset.mem_coe.mpr (Finset.mem_product.mpr
      ⟨Finset.mem_range.mpr (hg.inside _ _ _ hedge).2, hlabels _ _ _ hedge⟩)
  · intro e he e' he' heq
    have hsource : ∀ {e}, e ∈ (↑(g.graph.outEdges v).toFinset : Set (Edge PDGEdge)) →
        e.source = v := fun he ↦
      (hg.mirrored.mem_outEdges_iff.mp (List.mem_toFinset.mp (Finset.mem_coe.mp he))).1
    obtain ⟨htarget, hproperty⟩ := Prod.mk.inj heq
    obtain ⟨source, target, property⟩ := e
    obtain ⟨source', target', property'⟩ := e'
    obtain rfl : source = v := hsource he
    obtain rfl : source' = source := hsource he'
    obtain rfl : target = target' := htarget
    obtain rfl : property = property' := hproperty
    rfl

end PDG

/-- **Calls between vertices of the same kind end.** -/
theorem Config.Leveled.ends {K : Type} {kind : ℕ → Option K} {level : Option K → ℕ}
    (h : c.Leveled kind level) : c.Ends := by
  obtain ⟨labels, hdata, hlabels⟩ := h.range.pdg.exists_labels
  let n := c.pdg.graph.capacity
  let I : Config Val Fn → Prop := fun c ↦ c.Leveled kind level ∧
    (∀ u p w, c.pdg.HasEdge u p w → p ∈ labels) ∧ c.pdg.graph.capacity = n
  have hstep : ∀ c c' : Config Val Fn, I c → machineStep c = .next c' → I c' ∧
      Lowers (fun c ↦ c.pdg.unlinked) Config.stack
        (Frame.weight n (n * labels.card) fun v ↦ level (kind v)) c c' := by
    rintro c c' ⟨hc, hlab, hn⟩ hnext
    have hframe := frameStep_of_machineStep hnext
    have hm := hc.range.pdg.mirrored
    refine ⟨⟨hframe.leveled hc, fun u p w he ↦ ?_, hframe.capacity.trans hn⟩,
      hframe.lowers hc.range hc.ranked hn ?_⟩
    · rcases hframe.label hm he with rfl | ⟨u', w', he'⟩
      · exact hdata
      · exact hlab u' p w' he'
    · unfold Config.Descends
      split
      · next v1 v2 k j _ hstack =>
          refine ⟨hn ▸ hc.range.pdg.length_outEdges_le hlab _, fun e he ht ↦ ?_⟩
          obtain ⟨i, hmember⟩ := PDG.member_of_mem_outEdges hm he ht
          have hf := hc.frames (.addLoop v1 v2 k j) (hstack ▸ List.mem_cons_self)
          exact hc.pdg.part hmember hf.1
      · next hstack => exact hc.frames _ (hstack ▸ List.mem_cons_self)
      · next hstack => exact hc.frames _ (hstack ▸ List.mem_cons_self)
      · exact trivial
  obtain ⟨c', hreach, hc', hend⟩ := exists_final_of_lowers hstep c ⟨h, hlabels, rfl⟩
  exact ends_of_final hc'.1.ranked hreach hend

/-- **The merging path ends**, whatever the structure is. -/
theorem ends_of_mergingPath {g : PDG Val Fn} {v1 v2 : ℕ} (hg : g.Linked)
    (hv1 : v1 < g.graph.capacity) (hv2 : v2 < g.graph.capacity) (hpath : g.MergingPath v1 v2) :
    (⟨g, [.uniteSubnodes v1 v2]⟩ : Config Val Fn).Ends := by
  let n := g.graph.capacity
  -- the only call is the loop
  let I : Config Val Fn → Prop := fun c ↦ c.InRange ∧ c.Ranked ∧ c.pdg.graph.capacity = n ∧
    ∀ f ∈ c.stack, ∃ queue oldToNew, f = .uniteLoop queue oldToNew
  have hstep : ∀ c c' : Config Val Fn, I c → machineStep c = .next c' → I c' ∧
      Lowers (fun c ↦ c.pdg.unlinked) Config.stack (Frame.weight n 0 fun _ ↦ 0) c c' := by
    rintro ⟨g, stack⟩ c' ⟨hrange, hr, hn, hframes⟩ hnext
    have hframe := frameStep_of_machineStep hnext
    cases stack with
    | nil => cases hnext
    | cons f stack =>
      obtain ⟨⟨queue, oldToNew, rfl⟩, hrest⟩ := List.forall_mem_cons.mp hframes
      refine ⟨⟨hframe.inRange hrange, hframe.ranked hr, hframe.capacity.trans hn, ?_⟩,
        hframe.lowers hrange hr hn trivial⟩
      cases hframe with
      | mergeReturn => exact hrest
      | mergeNext => exact List.forall_mem_cons.mpr ⟨⟨_, _, rfl⟩, hrest⟩
  have hfirst : machineStep (⟨g, [.uniteSubnodes v1 v2]⟩ : Config Val Fn) =
      .next ⟨g, [.uniteLoop [(v1, v2)] fun _ ↦ none]⟩ := by
    simp only [machineStep, if_pos hpath]
  have hframe := frameStep_of_machineStep hfirst
  have hcall : (⟨g, [.uniteSubnodes v1 v2]⟩ : Config Val Fn).InRange :=
    ⟨hg, List.forall_mem_singleton.mpr ⟨hv1, hv2⟩⟩
  have hranked : (⟨g, [.uniteSubnodes v1 v2]⟩ : Config Val Fn).Ranked := by
    intro queue oldToNew hmem
    cases List.mem_singleton.mp hmem
  have hloop : I ⟨g, [.uniteLoop [(v1, v2)] fun _ ↦ none]⟩ :=
    ⟨hframe.inRange hcall, hframe.ranked hranked, rfl, List.forall_mem_singleton.mpr ⟨_, _, rfl⟩⟩
  obtain ⟨c', hreach, hc', hend⟩ := exists_final_of_lowers hstep _ hloop
  exact ends_of_step hfirst (ends_of_final hc'.2.1 hreach hend)

/-- A struct with one member. -/
def box : Ty := .struct [.other]

def boxTypes : Llvm Unit Unit := ⟨fun _ ↦ none, fun _ ↦ none, fun _ ↦ false, fun _ ↦ box,
  fun _ ↦ box⟩

/-- Add a vertex for the member of the struct `v`. -/
def addMember (g : PDG Unit Unit) (v : ℕ) : PDG Unit Unit :=
  let r := g.pdgAddVertex (g.subnode v .other (g.isConstant boxTypes v))
  r.2.addEdge v r.1 ⟨.part, 0⟩

theorem createSubnodes_box {g : PDG Unit Unit} {v : ℕ} (htype : (g.node v).type = some box)
    (hparts : 0 < g.maxParts) : g.createSubnodes boxTypes v 3 = addMember g v := by
  unfold PDG.createSubnodes PDG.createSubnodesInt
  rw [htype]
  simp only
  rw [PDG.createSubnodesOf]
  split
  · next h => cases h
  · next elements h =>
      obtain rfl : [.other] = elements := Ty.struct.inj h
      rw [PDG.createParts, if_pos hparts, PDG.createMember, if_neg (by decide),
        PDG.createSubnodesOf]
      split
      · next h => cases h
      · next h => cases h
      · rw [Option.bind_some, PDG.createParts]
        rfl
  · next h => exact absurd rfl (h _)

/-- One struct and its member. -/
def oneBox : PDG Unit Unit := addMember ((PDG.init 8 3).pdgAddVertex { type := some box }).2 0

/-- Two structs and their members. -/
def twoBoxes : PDG Unit Unit := addMember (oneBox.pdgAddVertex { type := some box }).2 2

theorem structureGraph_oneBox : StructureGraph boxTypes oneBox := by
  have hinit : StructureGraph boxTypes (PDG.init 8 3) := .init 8 3
  have hbox := (hinit.pdgAddVertex { type := some box }).createSubnodes (v := 0) (by decide) 3
  rwa [createSubnodes_box rfl (by decide)] at hbox

theorem structureGraph_twoBoxes : StructureGraph boxTypes twoBoxes := by
  have hadd := structureGraph_oneBox.pdgAddVertex { type := some box }
  have hbox := hadd.createSubnodes (v := 2) (by decide +kernel) 3
  rwa [createSubnodes_box rfl (by decide +kernel)] at hbox

theorem hasEdge_addMember {g : PDG Unit Unit} (hg : g.Linked) {u v w : ℕ} {p : PDGEdge} :
    (addMember g v).HasEdge u p w ↔ g.HasEdge u p w ∨ u = v ∧ p = ⟨.part, 0⟩ ∧
      w = (g.pdgAddVertex (g.subnode v .other (g.isConstant boxTypes v))).1 :=
  PDG.hasEdge_addEdge.trans (or_congr_left hg.hasEdge_pdgAddVertex)

/-- The structs are `0` and `2`, their members `1` and `3`. -/
theorem hasEdge_twoBoxes {u w : ℕ} {p : PDGEdge} (h : twoBoxes.HasEdge u p w) :
    p = ⟨.part, 0⟩ ∧ (u = 0 ∧ w = 1 ∨ u = 2 ∧ w = 3) := by
  have hinit : (PDG.init 8 3 : PDG Unit Unit).Linked := PDG.linked_init 8 3
  have hone := structureGraph_oneBox.tidy.range
  rcases (hasEdge_addMember (hone.pdgAddVertex _)).mp h with h | ⟨rfl, rfl, rfl⟩
  · rcases (hasEdge_addMember (hinit.pdgAddVertex _)).mp (hone.hasEdge_pdgAddVertex.mp h)
      with h | ⟨rfl, rfl, rfl⟩
    · exact absurd (hinit.hasEdge_pdgAddVertex.mp h) (PDG.not_hasEdge_init 8 3)
    · exact ⟨rfl, Or.inl ⟨rfl, rfl⟩⟩
  · exact ⟨rfl, Or.inr ⟨rfl, rfl⟩⟩

theorem leveled_twoBoxes :
    twoBoxes.Leveled (fun v ↦ some (v % 2)) (fun k ↦ 1 - k.getD 0) where
  closed _ _ _ := Option.some_ne_none _
  target _ he he' _ _ := by
    obtain ⟨-, ⟨-, rfl⟩ | ⟨-, rfl⟩⟩ := hasEdge_twoBoxes he
    all_goals
      obtain ⟨-, ⟨-, rfl⟩ | ⟨-, rfl⟩⟩ := hasEdge_twoBoxes he'
      all_goals rfl
  part he _ := by
    obtain ⟨-, ⟨rfl, rfl⟩ | ⟨rfl, rfl⟩⟩ := hasEdge_twoBoxes he
    all_goals exact Nat.one_pos

theorem not_transGen_member_twoBoxes (u : ℕ) : ¬ Relation.TransGen twoBoxes.Member u u := by
  intro h
  have hlower : ∀ w, Relation.TransGen twoBoxes.Member u w → u % 2 < w % 2 := by
    intro w hw
    induction hw with
    | single hmember =>
      obtain ⟨i, he⟩ := hmember
      obtain ⟨-, ⟨rfl, rfl⟩ | ⟨rfl, rfl⟩⟩ := hasEdge_twoBoxes he
      all_goals exact Nat.one_pos
    | tail _ hmember ih =>
      obtain ⟨i, he⟩ := hmember
      obtain ⟨-, ⟨rfl, rfl⟩ | ⟨rfl, rfl⟩⟩ := hasEdge_twoBoxes he
      all_goals exact absurd ih (Nat.not_lt_zero _)
  exact Nat.lt_irrefl _ (hlower u h)

theorem not_ends_of_steps {I : Config Val Fn → Prop}
    (hstep : ∀ c, I c → ∃ c', machineStep c = .next c' ∧ I c') (h : I c) : ¬ c.Ends := by
  rintro ⟨c', hreach, hend⟩
  have hI : I c' := invariant_of_reaches (fun c c' hc hnext ↦ by
    obtain ⟨c₁, hc₁, hI⟩ := hstep c hc
    rw [hnext] at hc₁
    exact Iteration.next.inj hc₁ ▸ hI) hreach h
  obtain ⟨c₁, hnext, -⟩ := hstep c' hI
  rw [hnext] at hend
  rcases hend with hend | ⟨what, s, hend⟩
  · cases hend
  · cases hend

/-- Two structs that are members of each other. -/
structure PDG.Circular (g : PDG Val Fn) (a b : ℕ) : Prop where
  ne : a ≠ b
  constant : (g.node a).constant = false ∧ (g.node b).constant = false
  edges : ∃ l l', g.graph.outEdges a = ⟨a, b, ⟨.part, 0⟩⟩ :: l ∧
    g.graph.outEdges b = ⟨b, a, ⟨.part, 0⟩⟩ :: l'

namespace PDG.Circular

variable {g : PDG Val Fn} {a b : ℕ}

omit [DecidableEq Fn]

theorem symm (h : g.Circular a b) : g.Circular b a := by
  obtain ⟨l, l', ha, hb⟩ := h.edges
  exact ⟨h.ne.symm, h.constant.symm, l', l, hb, ha⟩

/-- The `Data` edge comes behind the other edges. -/
theorem addEdge (h : g.Circular a b) : (g.addEdge a b .dataEdge).Circular a b := by
  obtain ⟨l, l', ha, hb⟩ := h.edges
  refine ⟨h.ne, by simpa only [node_addEdge] using h.constant, ?_⟩
  have hout : ∀ u, (g.addEdge a b .dataEdge).graph.outEdges u =
      if u = a then (uniqueInsert (g.graph.outEdges a) ⟨a, b, .dataEdge⟩).1
      else g.graph.outEdges u := fun u ↦ BaseGraph.outEdges_addEdge a b u _
  rw [hout, hout, if_pos rfl, if_neg h.ne.symm, uniqueInsert]
  split
  · exact ⟨l, l', ha, hb⟩
  · exact ⟨l ++ [⟨a, b, .dataEdge⟩], l', congrArg (· ++ _) ha, hb⟩

theorem subnodeCalls (h : g.Circular a b) (k : ℤ) :
    g.subnodeCalls a b k ⟨a, b, ⟨.part, 0⟩⟩ = [.addSubnodeEdges b a k] := by
  obtain ⟨-, l', -, hb⟩ := h.edges
  simp [PDG.subnodeCalls, getPartOpt, hb, h.ne]

end PDG.Circular

/-- **`addSubnodeEdges` does not end** between such structs. -/
theorem PDG.Circular.not_ends {g : PDG Val Fn} {a b : ℕ} (h : g.Circular a b) (k : ℤ) :
    ¬ (⟨g, [.addSubnodeEdges a b k]⟩ : Config Val Fn).Ends := by
  refine not_ends_of_steps (I := fun c ↦ ∃ a b stack, c.pdg.Circular a b ∧
    (c.stack = .addSubnodeEdges a b k :: stack ∨ c.stack = .addLoop a b k 0 :: stack)) ?_
    ⟨a, b, [], h, Or.inl rfl⟩
  rintro ⟨g, _⟩ ⟨a, b, stack, h, rfl | rfl⟩
  · refine ⟨⟨g.addEdge a b .dataEdge, .addLoop a b k 0 :: stack⟩, ?_, a, b, stack, h.addEdge,
      Or.inr rfl⟩
    simp [machineStep, h.ne, h.constant.2]
  · obtain ⟨l, -, ha, -⟩ := h.edges
    refine ⟨⟨g, .addSubnodeEdges b a k :: .addLoop a b k 1 :: stack⟩, ?_, b, a, _, h.symm,
      Or.inl rfl⟩
    simp only [machineStep, ha, List.getElem?_cons_zero, h.subnodeCalls]
    rfl

/-- The graph after a call of `uniteSubnodes`. -/
def unite (g : PDG Unit Unit) (v1 v2 : ℕ) : PDG Unit Unit :=
  ((iterate Config.next 10 ⟨g, [.uniteSubnodes v1 v2]⟩).getD ⟨g, []⟩).pdg

theorem StructureGraph.unite {g : PDG Unit Unit} (h : StructureGraph boxTypes g) {v1 v2 : ℕ}
    (hv1 : g.Live v1) (hv2 : g.Live v2)
    (hrun : (iterate Config.next 10 ⟨g, [.uniteSubnodes v1 v2]⟩).any (·.stack.isEmpty) = true) :
    StructureGraph boxTypes (Passes.unite g v1 v2) := by
  refine h.uniteSubnodes hv1 hv2 ?_
  obtain ⟨⟨g', stack⟩, hiter, hempty⟩ := (Option.any_eq_true ..).mp hrun
  obtain rfl : stack = [] := List.isEmpty_iff.mp hempty
  rw [Passes.unite, hiter]
  exact reaches_of_iterate (fun _ _ ↦ machineStep_of_next) hiter

end Cali.Passes
