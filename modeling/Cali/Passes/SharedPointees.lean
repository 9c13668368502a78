import Cali.Lib.Propagation
import Cali.Passes.Frames
import Cali.Passes.Summary
import Cali.Passes.TypeTree

/-!
# Pointers that flow into shared pointees

If `a` flows to `b` and what `b` points to is shared, what `a` points to must be shared.
`calculateSummaryEdges` applies the rule to a node right after the search from it.  Marking the
pointee of a later node also marks what it contains and points to, which can be the pointee of a
node that an earlier one flows to.  Then the rule is not applied again.  So it depends on the
order of the nodes what is marked, unless the marks from the beginning explain all of it.
-/

namespace Cali.Passes

open Cali.Graph Cali.Lib Relation

variable {Val Fn : Type}

namespace PDG

variable {g g' g'' : PDG Val Fn} {u v w : ℕ} {p : PDGEdge}

/-! ## What `markAsShared` marks -/

/-- From the vertex `v`, which is not marked, the vertex `w` is reached through vertices that are
not marked either. -/
def Floods (g : PDG Val Fn) (v w : ℕ) : Prop :=
  ¬ (g.node v).ipcsink = true ∧
    ReflTransGen (fun u w ↦ g.PartOf u w ∧ ¬ (g.node w).ipcsink = true) v w

/-- The calls of `markAsShared v`. -/
structure MarksFrom (g : PDG Val Fn) (v : ℕ) (c : Config Val Fn) : Prop where
  /-- The vertex is marked, or the call that marks it is still to be made. -/
  target : (c.pdg.node v).ipcsink = true ∨ .markAsShared v ∈ c.stack
  parts : ∀ u w, (c.pdg.node u).ipcsink = true → ¬ (g.node u).ipcsink = true → g.PartOf u w →
    (c.pdg.node w).ipcsink = true ∨ .markAsShared w ∈ c.stack
  stack : ∀ f ∈ c.stack, ∃ w, f = .markAsShared w ∧ (¬ (g.node w).ipcsink = true → g.Floods v w)
  new : ∀ w, (c.pdg.node w).ipcsink = true → (g.node w).ipcsink = true ∨ g.Floods v w

theorem SinksAdded.partOf_iff (h : SinksAdded g g') : g'.PartOf u w ↔ g.PartOf u w := by
  unfold PartOf
  simp only [h.hasEdge_iff]

section

variable [DecidableEq Fn]

theorem MarksFrom.step {c c' : Config Val Fn} (hm : c.pdg.graph.Mirrored)
    (hsinks : SinksAdded g c.pdg) (h : MarksFrom g v c) (hstep : FrameStep c c') :
    MarksFrom g v c' := by
  obtain ⟨htarget, hparts, hstack, hnew⟩ := h
  cases hstep with
  | @marked x u stack hmark =>
    have hmade : ∀ w,
        (x.node w).ipcsink = true ∨ .markAsShared w ∈ Frame.markAsShared u :: stack →
        (x.node w).ipcsink = true ∨ .markAsShared w ∈ stack := by
      rintro w (hw | hw)
      · exact Or.inl hw
      · rcases List.mem_cons.mp hw with heq | hw
        · cases heq
          exact Or.inl hmark
        · exact Or.inr hw
    exact ⟨hmade v htarget, fun u w hu hold hpart ↦ hmade w (hparts u w hu hold hpart),
      (Config.forall_stack hstack).2, hnew⟩
  | @mark x u stack hmark =>
    obtain ⟨⟨u', heq, hfloods⟩, hrest⟩ := Config.forall_stack hstack
    cases heq
    have hnode : ∀ w, ((x.setNode u { x.node u with ipcsink := true }).node w).ipcsink = true ↔
        w = u ∨ (x.node w).ipcsink = true := by
      intro w
      rw [node_setNode]
      split
      · next hw => exact ⟨fun _ ↦ Or.inl hw, fun _ ↦ rfl⟩
      · next hw => exact (or_iff_right hw).symm
    have hold : ¬ (g.node u).ipcsink = true := by
      intro hu
      rcases hsinks.node u with hsame | hsame
      · exact Bool.false_ne_true (hmark.symm.trans ((congrArg _ hsame).trans hu))
      · exact Bool.false_ne_true (hmark.symm.trans (congrArg _ hsame))
    have hmade : ∀ w,
        (x.node w).ipcsink = true ∨ .markAsShared w ∈ Frame.markAsShared u :: stack →
        ((x.setNode u { x.node u with ipcsink := true }).node w).ipcsink = true ∨
          .markAsShared w ∈ x.markCalls u .markAsShared ++ stack := by
      rintro w (hw | hw)
      · exact Or.inl ((hnode w).mpr (Or.inr hw))
      · rcases List.mem_cons.mp hw with heq | hw
        · cases heq
          exact Or.inl ((hnode u).mpr (Or.inl rfl))
        · exact Or.inr (List.mem_append_right _ hw)
    refine ⟨hmade v htarget, fun a w ha haold hpart ↦ ?_,
      List.forall_mem_append.mpr ⟨fun f hcall ↦ ?_, hrest⟩, fun w hw ↦ ?_⟩
    · rcases (hnode a).mp ha with rfl | ha
      · obtain ⟨p, hp, he⟩ := hsinks.partOf_iff.mpr hpart
        exact Or.inr (List.mem_append_left _ (mem_markCalls hp he))
      · exact hmade w (hparts a w ha haold hpart)
    · obtain ⟨e, he, hcase⟩ := exists_of_mem_markCalls hcall
      have hpart : e.property.Structural → g.PartOf u e.target := fun hp ↦
        hsinks.partOf_iff.mp ⟨e.property, hp, (hm.mem_outEdges_iff.mp he).2⟩
      have hnext : g.PartOf u e.target → ¬ (g.node e.target).ipcsink = true →
          g.Floods v e.target := fun hp hw ↦
        ⟨(hfloods hold).1, (hfloods hold).2.tail ⟨hp, hw⟩⟩
      rcases hcase with ⟨ht, rfl⟩ | ⟨ht, rfl⟩
      · exact ⟨e.target, rfl, hnext (hpart (Or.inl ht))⟩
      · exact ⟨e.target, rfl, hnext (hpart (Or.inr ht))⟩
    · rcases (hnode w).mp hw with rfl | hw
      · exact Or.inr (hfloods hold)
      · exact hnew w hw
  | _ =>
    obtain ⟨w, heq, -⟩ := (Config.forall_stack hstack).1
    cases heq

/-- **`markAsShared`** marks what is reached through vertices that are not marked. -/
theorem markAsShared_marks (h : g.Linked) (hv : v < g.graph.capacity) :
    ∃ g', g.markAsShared v = some g' ∧ SinksAdded g g' ∧
      ∀ w, (g'.node w).ipcsink = true ↔ (g.node w).ipcsink = true ∨ g.Floods v w := by
  have hstart : Marking g ⟨g, [.markAsShared v]⟩ ∧ MarksFrom g v ⟨g, [.markAsShared v]⟩ :=
    ⟨⟨.refl g, fun f hf ↦ ⟨v, hv, List.mem_singleton.mp hf⟩⟩, Or.inr List.mem_cons_self,
      fun u w hu hold ↦ absurd hu hold,
      fun f hf ↦ ⟨v, List.mem_singleton.mp hf, fun hold ↦ ⟨hold, .refl⟩⟩, fun w hw ↦ Or.inl hw⟩
  have hrounds : 1 + g.unmarkedEdges < g.unmarkedEdges + 2 := by omega
  have hstep : ∀ c c' : Config Val Fn, Marking g c ∧ MarksFrom g v c → c.next = some c' →
      (Marking g c' ∧ MarksFrom g v c') ∧
        c'.stack.length + c'.pdg.unmarkedEdges < c.stack.length + c.pdg.unmarkedEdges := by
    rintro c c' ⟨hmarking, hfrom⟩ hnext
    obtain ⟨hmarking', hlt⟩ := hmarking.next h.graphInside hnext
    have hm := (hmarking.sinksAdded.summarized h.mirrored).mirrored
    exact ⟨⟨hmarking', hfrom.step hm hmarking.sinksAdded
      (frameStep_of_machineStep (machineStep_of_next hnext))⟩, hlt⟩
  obtain ⟨c, hc, ⟨hmarking, hfrom⟩, hend⟩ := iterate_spec
    (fun c : Config Val Fn ↦ c.stack.length + c.pdg.unmarkedEdges) hstep hstart hrounds
  have hnil := hmarking.stack_eq_nil hend
  have hdone : ∀ w, (c.pdg.node w).ipcsink = true ∨ .markAsShared w ∈ c.stack →
      (c.pdg.node w).ipcsink = true := fun w hw ↦
    hw.resolve_right (by rw [hnil]; exact List.not_mem_nil)
  refine ⟨c.pdg, by rw [markAsShared, hc]; rfl, hmarking.sinksAdded, fun w ↦ ⟨hfrom.new w, ?_⟩⟩
  rintro (hw | ⟨hold, hpath⟩)
  · rcases hmarking.sinksAdded.node w with hsame | hsame
    · rw [hsame]
      exact hw
    · rw [hsame]
  · have hall : (c.pdg.node w).ipcsink = true ∧ ¬ (g.node w).ipcsink = true := by
      induction hpath with
      | refl => exact ⟨hdone v hfrom.target, hold⟩
      | tail _ hstep ih => exact ⟨hdone _ (hfrom.parts _ _ ih.1 ih.2 hstep.1), hstep.2⟩
    exact hall.1

end

/-! ## Values stay as they are -/

/-- The vertices point to the same vertices and have the same members. -/
structure SameValues (g g' : PDG Val Fn) : Prop where
  deref : g'.getDerefOpt = g.getDerefOpt
  partOf : ∀ u w, g'.PartOf u w ↔ g.PartOf u w

theorem SameValues.refl (g : PDG Val Fn) : SameValues g g := ⟨rfl, fun _ _ ↦ Iff.rfl⟩

theorem SameValues.trans (h : SameValues g g') (h' : SameValues g' g'') : SameValues g g'' :=
  ⟨h'.deref.trans h.deref, fun u w ↦ (h'.partOf u w).trans (h.partOf u w)⟩

theorem SinksAdded.sameValues (h : SinksAdded g g') : SameValues g g' where
  deref := by
    funext v
    unfold getDerefOpt
    rw [h.outEdges]
  partOf _ _ := h.partOf_iff

theorem sameValues_addEdge (g : PDG Val Fn) (u w : ℕ) (hp : ¬ p.Structural) :
    SameValues g (g.addEdge u w p) where
  deref := by
    funext v
    have hout : (g.addEdge u w p).graph.outEdges v = _ := BaseGraph.outEdges_addEdge u w v p
    unfold getDerefOpt
    rw [hout]
    split
    · next hv =>
        subst hv
        unfold uniqueInsert
        split
        · rfl
        · have hderef : ¬ p.type = .deref := fun ht ↦ hp (Or.inl ht)
          simp only [List.find?_append, List.find?_singleton, hderef, decide_false,
            Bool.false_eq_true, if_false, Option.or_none]
    · rfl
  partOf a b := by
    unfold PartOf
    refine exists_congr fun q ↦ and_congr_right fun hq ↦ ?_
    refine hasEdge_addEdge.trans (or_iff_left ?_)
    rintro ⟨-, rfl, -⟩
    exact hp hq

/-! ## The rule for one pair -/

/-- The marked vertices. -/
def markedSet (g : PDG Val Fn) : Set ℕ := {v | g.Marked v}

theorem markedSet_addEdge (g : PDG Val Fn) (u w : ℕ) (p : PDGEdge) :
    (g.addEdge u w p).markedSet = g.markedSet := by
  unfold markedSet Marked
  simp only [node_addEdge]

theorem not_structural_summaryData : ¬ summaryData.Structural := by
  rintro (h | h)
  · cases h
  · cases h

theorem not_structural_summaryInvocation : ¬ summaryInvocation.Structural := by
  rintro (h | h)
  · cases h
  · cases h

variable {nodes : Finset ℕ} {functions : List Fn} {start target : ℕ}

/-- What is marked with the vertex `v`: nothing, if `v` is marked already. -/
def spread (g : PDG Val Fn) (v : ℕ) : Set ℕ := {w | ¬ g.Marked v ∧ g.Floods v w}

/-- The second graph has the values of the first one, and more marks: those of a vertex that was not
marked in the first graph come with those of its parts. -/
structure Spreads (g g' : PDG Val Fn) : Prop where
  sameValues : SameValues g g'
  reaches : ∀ v, (g'.node v).reachesIpcSink = (g.node v).reachesIpcSink
  sinks : ∀ v, (g.node v).ipcsink = true → (g'.node v).ipcsink = true
  parts : ∀ u w, (g'.node u).ipcsink = true → ¬ (g.node u).ipcsink = true → g.PartOf u w →
    (g'.node w).ipcsink = true

theorem Spreads.refl (g : PDG Val Fn) : Spreads g g :=
  ⟨.refl g, fun _ ↦ rfl, fun _ hv ↦ hv, fun _ _ hu hold ↦ absurd hu hold⟩

theorem Spreads.addEdge (h : Spreads g g') (u w : ℕ) (hp : ¬ p.Structural) :
    Spreads g (g'.addEdge u w p) where
  sameValues := h.sameValues.trans (sameValues_addEdge g' u w hp)
  reaches v := by rw [node_addEdge]; exact h.reaches v
  sinks v := by rw [node_addEdge]; exact h.sinks v
  parts u w := by rw [node_addEdge, node_addEdge]; exact h.parts u w

/-- What is reached through vertices that are not marked is marked after a later call, too. -/
theorem Spreads.floods (h : Spreads g g') (hw : g.Floods v w) :
    (g'.node w).ipcsink = true ∨ g'.Floods v w := by
  obtain ⟨hv, hpath⟩ := hw
  induction hpath with
  | refl => exact (Classical.em _).imp_right fun hv' ↦ ⟨hv', .refl⟩
  | @tail u w hvu hstep ih =>
    by_cases hw : (g'.node w).ipcsink = true
    · exact Or.inl hw
    · rcases ih with hu | hu
      · have hold : ¬ (g.node u).ipcsink = true := by
          rcases hvu.cases_tail with rfl | ⟨_, -, hlast⟩
          · exact hv
          · exact hlast.2
        exact Or.inl (h.parts u w hu hold hstep.1)
      · exact Or.inr ⟨hu.1, hu.2.tail ⟨(h.sameValues.partOf u w).mpr hstep.1, hw⟩⟩

variable [DecidableEq Fn]

/-- **`markAsShared`** in a graph with more marks. -/
theorem Spreads.markAsShared (h : Spreads g g') (hlinked : g'.Linked)
    (hv : v < g'.graph.capacity) (hreaches : ¬ (g'.node v).reachesIpcSink = true)
    (hrun : g'.markAsShared v = some g'') :
    Spreads g g'' ∧ g''.markedSet = g'.markedSet ∪ g.spread v := by
  obtain ⟨x, hx, hsinks, hiff⟩ := markAsShared_marks hlinked hv
  obtain rfl : x = g'' := Option.some.inj (hx.symm.trans hrun)
  have hback : ∀ {u w}, g'.Floods u w → g.Floods u w := by
    rintro u w ⟨hu, hpath⟩
    refine ⟨fun hold ↦ hu (h.sinks u hold), ReflTransGen.mono (fun a b hab ↦ ?_) _ _ hpath⟩
    exact ⟨(h.sameValues.partOf a b).mp hab.1, fun hold ↦ hab.2 (h.sinks b hold)⟩
  have hnot : ∀ {w}, g'.Floods v w → ¬ g.Marked v := by
    rintro w ⟨hsink, -⟩ (hold | hold)
    · exact hsink (h.sinks v hold)
    · exact hreaches ((h.reaches v).trans hold)
  refine ⟨⟨h.sameValues.trans hsinks.sameValues,
    fun u ↦ (hsinks.reachesIpcSink u).trans (h.reaches u),
    fun u hu ↦ (hiff u).mpr (Or.inl (h.sinks u hu)), fun u w hu hold hpart ↦ ?_⟩, ?_⟩
  · rcases (hiff u).mp hu with hu | hu
    · exact (hiff w).mpr (Or.inl (h.parts u w hu hold hpart))
    · refine (hiff w).mpr ((Classical.em _).imp_right fun hw ↦ ?_)
      exact ⟨hu.1, hu.2.tail ⟨(h.sameValues.partOf u w).mpr hpart, hw⟩⟩
  · ext w
    change _ ∨ _ ↔ _
    rw [hiff, hsinks.reachesIpcSink]
    constructor
    · rintro ((hw | hw) | hw)
      · exact Or.inl (Or.inl hw)
      · exact Or.inr ⟨hnot hw, hback hw⟩
      · exact Or.inl (Or.inr hw)
    · rintro ((hw | hw) | ⟨-, hw⟩)
      · exact Or.inl (Or.inl hw)
      · exact Or.inr hw
      · exact Or.inl (h.floods hw)

/-- **One iteration of `DataSummaryVisitor::finished`** applies the rule. -/
theorem addSummaryData_round (h : Spreads g g') (hlinked : g'.Linked)
    (hs : start < g'.graph.capacity) (ht : target < g'.graph.capacity)
    (hrun : addSummaryData start (g'.getDerefOpt start) g' target = some g'') :
    Spreads g g'' ∧
      g''.markedSet = markPair g.getDerefOpt g.spread g'.markedSet (start, target) := by
  let x := g'.addEdge start target summaryData
  have hx : Spreads g x := h.addEdge start target not_structural_summaryData
  have hmarked : x.markedSet = g'.markedSet := markedSet_addEdge ..
  have hlinkedx : x.Linked := (summarized_addEdge hlinked.mirrored start target summaryData).linked
    hlinked fun u p w he ↦ ⟨he.1 ▸ hs, he.2.2 ▸ ht⟩
  -- no vertex is marked, because none has to be
  have hkeep : (∀ d y, g.getDerefOpt start = some d → g.getDerefOpt target = some y →
      y ∈ g'.markedSet → g.spread d = ∅) → Spreads g x ∧
        x.markedSet = markPair g.getDerefOpt g.spread g'.markedSet (start, target) :=
    fun hempty ↦ ⟨hx, hmarked.trans (markPair_eq_self hempty).symm⟩
  unfold addSummaryData at hrun
  rw [h.sameValues.deref] at hrun
  split at hrun
  · next hstart =>
      cases hrun
      exact hkeep fun d y hd ↦ absurd (hstart.symm.trans hd).symm (Option.some_ne_none d)
  · next d hstart =>
      simp only at hrun
      split at hrun
      · next hreaches =>
          cases hrun
          refine hkeep fun d' y hd' _ _ ↦ Set.eq_empty_of_forall_notMem fun v hv ↦ ?_
          obtain rfl : d = d' := Option.some.inj (hstart.symm.trans hd')
          exact hv.1 (Or.inr ((hx.reaches d).symm.trans hreaches))
      · next hreaches =>
          split at hrun
          · next hnone =>
              cases hrun
              rw [hx.sameValues.deref] at hnone
              exact hkeep fun _ y _ hy ↦ absurd (hnone.symm.trans hy).symm (Option.some_ne_none y)
          · next y hy =>
              rw [hx.sameValues.deref] at hy
              split at hrun
              · next hshared =>
                  have hd : d < x.graph.capacity :=
                    getDerefOpt_lt hlinkedx (hx.sameValues.deref ▸ hstart)
                  obtain ⟨hspreads, hset⟩ := hx.markAsShared hlinkedx hd hreaches hrun
                  refine ⟨hspreads, hset.trans ?_⟩
                  rw [hmarked, markPair_eq_union hstart hy (hmarked.subset hshared.symm)]
              · next hshared =>
                  cases hrun
                  refine hkeep fun _ y' _ hy' hyM ↦ ?_
                  obtain rfl : y = y' := Option.some.inj (hy.symm.trans hy')
                  exact absurd (hmarked.symm.subset hyM).symm hshared

/-- **`DataSummaryVisitor::finished`** applies the rule for each target. -/
theorem foldlM_rounds (h : Spreads g g') (hlinked : g'.Linked) (hs : start < g'.graph.capacity)
    {new : List ℕ} (hnew : ∀ t ∈ new, t < g'.graph.capacity)
    (hrun : new.foldlM (addSummaryData start (g'.getDerefOpt start)) g' = some g'') :
    Spreads g g'' ∧ g''.markedSet =
      (new.map (start, ·)).foldl (markPair g.getDerefOpt g.spread) g'.markedSet := by
  induction new generalizing g' with
  | nil =>
    cases hrun
    exact ⟨h, rfl⟩
  | cons t new ih =>
    have ht := hnew t List.mem_cons_self
    obtain ⟨x, hx, hstep⟩ := addSummaryData_spec hlinked hs ht fun d ↦ getDerefOpt_lt hlinked
    obtain ⟨hspreads, hround⟩ := addSummaryData_round h hlinked hs ht hx
    have hlinkedx : x.Linked := hstep.linked hlinked fun u p w he ↦ ⟨he.1 ▸ hs, he.2.2 ▸ ht⟩
    have hderef : x.getDerefOpt = g'.getDerefOpt :=
      hspreads.sameValues.deref.trans h.sameValues.deref.symm
    rw [List.foldlM_cons, hx, ← hderef] at hrun
    rw [← hstep.capacity] at hs
    obtain ⟨hspreads', hrounds⟩ := ih hspreads hlinkedx hs
      (fun t ht ↦ hstep.capacity.symm ▸ hnew t (List.mem_cons_of_mem _ ht)) hrun
    rw [hround] at hrounds
    exact ⟨hspreads', hrounds⟩

omit [DecidableEq Fn] in
/-- `InvocationSummaryVisitor::finished` marks nothing. -/
theorem Spreads.invocationSummaryFinished (h : Spreads g g') (start : ℕ) (new : List ℕ) :
    Spreads g (g'.invocationSummaryFinished start new) ∧
      (g'.invocationSummaryFinished start new).markedSet = g'.markedSet := by
  induction new generalizing g' with
  | nil => exact ⟨h, rfl⟩
  | cons t new ih =>
    obtain ⟨hspreads, hmarked⟩ := ih (h.addEdge start t not_structural_summaryInvocation)
    exact ⟨hspreads, hmarked.trans (markedSet_addEdge ..)⟩

/-! ## The loop over the nodes -/

variable {config : SummaryConfig} {colors : ColorMap} {D : ℕ → Prop}

/-- **One iteration** applies the rule for all nodes that its node flows to. -/
theorem summarizeNode_rounds (hg : g.Linked) (hcov : ∀ v < g.graph.capacity, colors.Covers v)
    (hnodes : ∀ v ∈ nodes, v < g.graph.capacity) (hD : ∀ v, D v → v ∈ nodes) (hv : v ∈ nodes)
    (h : Summarized g (g.SummaryOf config nodes functions D) g') (hspreads : Spreads g g')
    (hrun : summarizeNode config colors nodes functions g' v = some g'') :
    Spreads g g'' ∧ ∃ targets : List ℕ,
      (∀ b, b ∈ targets ↔ g.DataSummary nodes functions v summaryData b) ∧
      g''.markedSet =
        (targets.map (v, ·)).foldl (markPair g.getDerefOpt g.spread) g'.markedSet := by
  have hlinked : g'.Linked := h.linked hg fun u p w he ↦ he.inside hg hnodes hD
  rw [← h.capacity] at hcov hnodes
  obtain ⟨s, hs, hgraph, hnew⟩ := summarySearch_spec functions followsData (fun _ v ↦ [v]) hlinked
    hcov hv (hnodes v hv)
  have htargets : ∀ b, b ∈ s.graph.2 ↔ g.DataSummary nodes functions v summaryData b := by
    intro b
    rw [← h.dataSummary_iff shortcuts_summaryOf, hnew]
    simp only [List.mem_singleton]
    constructor
    · rintro ⟨x, hx, hne, hpath, rfl⟩
      exact ⟨rfl, hx, hne, hpath⟩
    · rintro ⟨-, hb, hne, hpath⟩
      exact ⟨b, hb, hne, hpath, rfl⟩
  have hbound : ∀ t ∈ s.graph.2, t < g'.graph.capacity := fun t ht ↦
    hnodes t ((htargets t).mp ht).2.1
  obtain ⟨x, hx, hdata⟩ := foldlM_addSummaryData hlinked (hnodes v hv) hbound
    fun d hd ↦ getDerefOpt_lt hlinked hd
  obtain ⟨hspreads', hrounds⟩ := foldlM_rounds hspreads hlinked (hnodes v hv) hbound hx
  unfold summarizeNode dataSummaryVisitor dataSummaryFinished at hrun
  simp only [hs, hgraph, hx, Option.bind_eq_bind, Option.bind_some] at hrun
  split at hrun
  · have hlinked' : x.Linked := hdata.linked hlinked fun u p w he ↦
      ⟨he.1 ▸ hnodes v hv, hbound w he.2.2⟩
    rw [← hdata.capacity] at hcov hnodes
    obtain ⟨s', hs', hgraph', -⟩ := summarySearch_spec functions followsInvocation invocations
      hlinked' hcov hv (hnodes v hv)
    unfold invocationSummaryVisitor at hrun
    rw [hs', Option.bind_some, hgraph'] at hrun
    cases hrun
    obtain ⟨hspreads'', hmarked⟩ := hspreads'.invocationSummaryFinished v s'.graph.2
    exact ⟨hspreads'', s.graph.2, htargets, hmarked.trans hrounds⟩
  · cases hrun
    exact ⟨hspreads', s.graph.2, htargets, hrounds⟩

/-- The pairs of the nodes with the nodes they flow to. -/
def pairsOf (blocks : List (ℕ × List ℕ)) : List (ℕ × ℕ) :=
  blocks.flatMap fun block ↦ block.2.map (block.1, ·)

/-- **The loop** applies the rule for all pairs of nodes one of which flows to the other. -/
theorem summarizeNodes_rounds (hg : g.Linked) (hcov : ∀ v < g.graph.capacity, colors.Covers v)
    (hnodes : ∀ v ∈ nodes, v < g.graph.capacity) (hD : ∀ v, D v → v ∈ nodes) {order : List ℕ}
    (horder : ∀ v ∈ order, v ∈ nodes)
    (h : Summarized g (g.SummaryOf config nodes functions D) g') (hspreads : Spreads g g')
    (hrun : summarizeNodes config colors nodes functions order g' = some g'') :
    Spreads g g'' ∧ ∃ blocks : List (ℕ × List ℕ), blocks.map Prod.fst = order ∧
      (∀ block ∈ blocks, ∀ b,
        b ∈ block.2 ↔ g.DataSummary nodes functions block.1 summaryData b) ∧
      g''.markedSet = (pairsOf blocks).foldl (markPair g.getDerefOpt g.spread) g'.markedSet := by
  induction order generalizing g' D with
  | nil =>
    cases hrun
    exact ⟨hspreads, [], rfl, fun block hblock ↦ absurd hblock List.not_mem_nil, rfl⟩
  | cons v order ih =>
    have hv := horder v List.mem_cons_self
    obtain ⟨x, hx, hstep⟩ := summarizeNode_spec hg hcov hnodes hD hv h
    obtain ⟨hspreads', targets, htargets, hrounds⟩ :=
      summarizeNode_rounds hg hcov hnodes hD hv h hspreads hx
    rw [summarizeNodes, List.foldlM_cons, hx] at hrun
    obtain ⟨hspreads'', blocks, hfst, hblocks, hrounds'⟩ := ih
      (fun u hu ↦ hu.elim (hD u) fun hu ↦ hu ▸ hv)
      (fun u hu ↦ horder u (List.mem_cons_of_mem _ hu)) hstep hspreads' hrun
    refine ⟨hspreads'', (v, targets) :: blocks, congrArg (v :: ·) hfst,
      List.forall_mem_cons.mpr ⟨htargets, hblocks⟩, ?_⟩
    rw [hrounds', hrounds, pairsOf, pairsOf, List.flatMap_cons, List.foldl_append]

/-- What points into a shared pointee points to something shared. -/
def SharesPointees (g : PDG Val Fn) (nodes : Finset ℕ) : Prop :=
  ∀ a ∈ nodes, ∀ b ∈ nodes, ∀ i x y, g.HasEdge a ⟨.summaryData, i⟩ b → g.getDerefOpt a = some x →
    g.getDerefOpt b = some y → g.Marked y → g.Marked x

/-- Data flows from the first node to the second one. -/
def FlowsTo (g : PDG Val Fn) (nodes : Finset ℕ) (functions : List Fn) (a b : ℕ) : Prop :=
  a ∈ nodes ∧ g.DataSummary nodes functions a summaryData b

/-- The vertices that are marked, and those that come with the pointees of the nodes that flow to a
node with a marked pointee. -/
def sharedOnce (g : PDG Val Fn) (nodes : Finset ℕ) (functions : List Fn) : Set ℕ :=
  markedOnce g.getDerefOpt g.spread (g.FlowsTo nodes functions) g.markedSet

/-- **One turn is enough**: a node that flows to a node with a pointee in `sharedOnce` has its own
pointee there. -/
def OnceEnough (g : PDG Val Fn) (nodes : Finset ℕ) (functions : List Fn) : Prop :=
  ClosedMarks g.getDerefOpt (g.FlowsTo nodes functions) (g.sharedOnce nodes functions)

theorem exists_rounds (config : SummaryConfig) (functions : List Fn) (hg : g.Linked)
    (hcov : ∀ v < g.graph.capacity, colors.Covers v)
    (hnodes : ∀ v ∈ nodes, v < g.graph.capacity) {order : List ℕ}
    (horder : ∀ v, v ∈ order ↔ v ∈ nodes) :
    ∃ g' blocks, summarizeNodes config colors nodes functions order g = some g' ∧
      blocks.map Prod.fst = order ∧
      (∀ a b, (a, b) ∈ pairsOf blocks ↔ g.FlowsTo nodes functions a b) ∧
      g'.markedSet = (pairsOf blocks).foldl (markPair g.getDerefOpt g.spread) g.markedSet ∧
      (g'.SharesPointees nodes ↔
        ClosedMarks g.getDerefOpt (g.FlowsTo nodes functions) g'.markedSet) := by
  obtain ⟨g', hrun, hsum⟩ : ∃ g', summarizeNodes config colors nodes functions order g = some g' ∧
      Summarized g (g.SummaryOf config nodes functions (· ∈ nodes)) g' :=
    exists_summarizeNodes hg hcov hnodes horder
  obtain ⟨hspreads, blocks, hfst, hblocks, hrounds⟩ := summarizeNodes_rounds hg hcov hnodes
    (fun _ ↦ False.elim) (fun v hv ↦ (horder v).mp hv) hg.summarized (.refl g) hrun
  have hedge : ∀ {a b i}, g'.HasEdge a ⟨.summaryData, i⟩ b ↔ g.HasEdge a ⟨.summaryData, i⟩ b ∨
      a ∈ nodes ∧ g.DataSummary nodes functions a ⟨.summaryData, i⟩ b :=
    hsum.hasEdge_data (Or.inl fun ht ↦ PDGEdgeType.noConfusion ht)
  refine ⟨g', blocks, hrun, hfst, fun a b ↦ ?_, hrounds, ?_⟩
  · unfold pairsOf FlowsTo
    simp only [List.mem_flatMap, List.mem_map, Prod.mk.injEq]
    constructor
    · rintro ⟨block, hblock, b', hb', rfl, rfl⟩
      refine ⟨(horder _).mp ?_, (hblocks block hblock b').mp hb'⟩
      rw [← hfst]
      exact List.mem_map_of_mem hblock
    · rintro ⟨ha, hflow⟩
      have ha' : a ∈ blocks.map Prod.fst := by
        rw [hfst]
        exact (horder a).mpr ha
      obtain ⟨block, hblock, rfl⟩ := List.mem_map.mp ha'
      exact ⟨block, hblock, b, (hblocks block hblock b).mpr hflow, rfl, rfl⟩
  · unfold SharesPointees
    rw [hspreads.sameValues.deref]
    constructor
    · rintro h a b x y ⟨ha, hflow⟩ hx hy hmark
      exact h a ha b hflow.2.1 0 x y (hedge.mpr (Or.inr ⟨ha, hflow⟩)) hx hy hmark
    · intro h a ha b hb i x y he hx hy hmark
      by_cases hab : b = a
      · obtain rfl : x = y := Option.some.inj (hx.symm.trans (hab ▸ hy))
        exact hmark
      · refine h a b x y ⟨ha, rfl, hb, hab, ?_⟩ hx hy hmark
        rcases hedge.mp he with he | ⟨-, he⟩
        · exact .single ⟨⟨_, rfl, he⟩, Or.inl hb⟩
        · exact he.2.2.2

/-- **Pointers that flow into shared pointees are shared** after the loop of
`calculateSummaryEdges`, whatever the order of the nodes is, exactly if one turn is enough. -/
theorem calculateSummaryEdges_sharesPointees (hg : g.Linked)
    (hcov : ∀ v < g.graph.capacity, colors.Covers v)
    (hnodes : ∀ v ∈ nodes, v < g.graph.capacity) (config : SummaryConfig) :
    (∀ order : List ℕ, (∀ v, v ∈ order ↔ v ∈ nodes) →
      ∃ g', summarizeNodes config colors nodes functions order g = some g' ∧
        g'.SharesPointees nodes) ↔ g.OnceEnough nodes functions := by
  have hold : ∀ x ∈ g.markedSet, g.spread x = ∅ := fun x hx ↦
    Set.eq_empty_of_forall_notMem fun w hw ↦ hw.1 hx
  have hsub : ∀ x, ∀ w ∈ g.spread x, g.spread w ⊆ g.spread x := fun x w hw v hv ↦
    ⟨hw.1, hw.2.1, hw.2.2.trans hv.2.2⟩
  constructor
  · intro hall
    -- the nodes that flow to a marked pointee come last
    let last (a : ℕ) : Prop :=
      ∃ b y, g.FlowsTo nodes functions a b ∧ g.getDerefOpt b = some y ∧ y ∈ g.markedSet
    classical
    let first := nodes.toList.filter fun a ↦ ¬ last a
    let second := nodes.toList.filter fun a ↦ last a
    have horder : ∀ v, v ∈ first ++ second ↔ v ∈ nodes := by
      intro v
      by_cases hv : last v
      · simp [first, second, hv]
      · simp [first, second, hv]
    obtain ⟨g', blocks, hrun, hfst, hpairs, hset, hiff⟩ :=
      exists_rounds config functions hg hcov hnodes horder
    obtain ⟨g'', hrun', hshares⟩ := hall _ horder
    obtain rfl : g' = g'' := Option.some.inj (hrun.symm.trans hrun')
    obtain ⟨blocks₁, blocks₂, rfl, hfirst, hsecond⟩ := List.map_eq_append_iff.mp hfst
    have hfst_mem : ∀ {blocks : List (ℕ × List ℕ)} {pair}, pair ∈ pairsOf blocks →
        pair.1 ∈ blocks.map Prod.fst := by
      intro blocks pair hpair
      obtain ⟨block, hblock, hmem⟩ := List.mem_flatMap.mp hpair
      obtain ⟨b, -, rfl⟩ := List.mem_map.mp hmem
      exact List.mem_map_of_mem hblock
    have happend : pairsOf (blocks₁ ++ blocks₂) = pairsOf blocks₁ ++ pairsOf blocks₂ :=
      List.flatMap_append
    rw [happend] at hpairs hset
    rw [rounds_append_eq_markedOnce hpairs (fun pair hpair b y hflow hy hmark ↦ ?_)
      fun pair hpair ↦ ?_] at hset
    · have hclosed := hiff.mp hshares
      rwa [hset] at hclosed
    · have hmem := hfst_mem hpair
      rw [hfirst] at hmem
      exact of_decide_eq_true (List.mem_filter.mp hmem).2 ⟨b, y, hflow, hy, hmark⟩
    · have hmem := hfst_mem hpair
      rw [hsecond] at hmem
      exact of_decide_eq_true (List.mem_filter.mp hmem).2
  · intro henough order horder
    obtain ⟨g', blocks, hrun, -, hpairs, hset, hiff⟩ :=
      exists_rounds config functions hg hcov hnodes horder
    refine ⟨g', hrun, hiff.mpr ?_⟩
    rw [hset, rounds_eq_markedOnce hold hsub henough hpairs]
    exact henough

/-! ### Pointers to parts of a struct -/

/-- Mark the vertex `v` as a sink. -/
def withSink (es : List (Edge PDGEdge)) (n v : ℕ) : PDG Empty Unit := (ofEdges n es).setSink v

theorem linked_withSink {es : List (Edge PDGEdge)} {n v : ℕ}
    (h : ∀ e ∈ es, e.source < n ∧ e.target < n) : (withSink es n v).Linked where
  mirrored := mirrored_setNode mirrored_ofEdges ..
  inside u p w he := by
    have hmem := hasEdge_ofEdges.mp ((hasEdge_setNode ..).mp he)
    have hcapacity : (withSink es n v).graph.capacity = n := capacity_ofEdges
    rw [hcapacity]
    exact h _ hmem

/-- `0` flows to `1`, which points to a shared value. -/
def pointerFlow : PDG Empty Unit :=
  withSink [⟨0, 1, .dataEdge⟩, ⟨0, 2, ⟨.deref, 0⟩⟩, ⟨1, 3, ⟨.deref, 0⟩⟩] 4 3

theorem pointerFlow_sharesPointees :
    pointerFlow.Linked ∧ pointerFlow.OnceEnough {0, 1} [] ∧
      (∃ g', calculateSummaryEdges ⟨false, fun _ ↦ false⟩ (.ofCapacity 4) {0, 1} [] pointerFlow =
        some g' ∧ g'.SharesPointees {0, 1}) ∧
      (calculateSummaryEdges ⟨false, fun _ ↦ false⟩ (.ofCapacity 4) {0, 1} [] pointerFlow).any
        (fun g ↦ decide (g.HasEdge 0 ⟨.summaryData, 0⟩ 1 ∧ g.Marked 2)) = true := by
  have hlinked : pointerFlow.Linked := linked_withSink (by decide)
  have hderef : ∀ d ∈ ({0, 1} : Finset ℕ), pointerFlow.getDerefOpt d = some (d + 2) := by
    decide +kernel
  have henough : pointerFlow.OnceEnough {0, 1} [] := by
    intro a b x y hflow hx hy _
    obtain rfl : a + 2 = x := Option.some.inj ((hderef a hflow.1).symm.trans hx)
    obtain rfl : b + 2 = y := Option.some.inj ((hderef b hflow.2.2.1).symm.trans hy)
    have hnodes : ∀ {v}, v ∈ ({0, 1} : Finset ℕ) → v = 0 ∨ v = 1 := by simp
    rcases hnodes hflow.1 with rfl | rfl
    · obtain rfl : b = 1 := (hnodes hflow.2.2.1).resolve_left hflow.2.2.2.1
      exact Or.inr ⟨0, 1, 2, 3, hflow, hx, hy, Or.inl rfl, by decide, by decide, .refl⟩
    · exact Or.inl (Or.inl rfl)
  have hcov : ∀ v < pointerFlow.graph.capacity, (ColorMap.ofCapacity 4).Covers v :=
    fun v hv ↦ ColorMap.covers_ofCapacity hv
  exact ⟨hlinked, henough, (calculateSummaryEdges_sharesPointees hlinked hcov (by decide) _).mpr
    henough _ fun _ ↦ mem_ascending, by decide +kernel⟩

/-- `0` flows to `1`, and `2` flows to `3`, which points to a shared value.  What `1` points to is
a member of what `2` points to. -/
def pointerToMember : PDG Empty Unit :=
  withSink [⟨0, 1, .dataEdge⟩, ⟨2, 3, .dataEdge⟩, ⟨0, 4, ⟨.deref, 0⟩⟩, ⟨1, 5, ⟨.deref, 0⟩⟩,
    ⟨2, 6, ⟨.deref, 0⟩⟩, ⟨3, 7, ⟨.deref, 0⟩⟩, ⟨6, 5, ⟨.part, 0⟩⟩] 8 7

/-- What `1` points to is marked after the rule has been applied to `0`. -/
theorem not_sharesPointees_pointerToMember :
    ¬ ∀ (g : PDG Empty Unit) (nodes : Finset ℕ) (functions : List Unit) (config : SummaryConfig)
      (colors : ColorMap), g.Linked → (∀ v < g.graph.capacity, colors.Covers v) →
      (∀ v ∈ nodes, v < g.graph.capacity) →
      ∃ g', calculateSummaryEdges config colors nodes functions g = some g' ∧
        g'.SharesPointees nodes := by
  intro hall
  have hlinked : pointerToMember.Linked := linked_withSink (by decide)
  have hcov : ∀ v < pointerToMember.graph.capacity, (ColorMap.ofCapacity 8).Covers v :=
    fun v hv ↦ ColorMap.covers_ofCapacity hv
  obtain ⟨g', hrun, hshares⟩ := hall pointerToMember {0, 1, 2, 3} [] ⟨false, fun _ ↦ false⟩
    (.ofCapacity 8) hlinked hcov (by decide)
  have hcheck : (calculateSummaryEdges ⟨false, fun _ ↦ false⟩ (.ofCapacity 8) {0, 1, 2, 3} []
      pointerToMember).any (fun g ↦ decide (g.HasEdge 0 ⟨.summaryData, 0⟩ 1 ∧
        g.getDerefOpt 0 = some 4 ∧ g.getDerefOpt 1 = some 5 ∧ g.Marked 5 ∧ ¬ g.Marked 4)) =
      true := by decide +kernel
  rw [hrun] at hcheck
  obtain ⟨he, hx, hy, hmark, hnot⟩ := of_decide_eq_true hcheck
  exact hnot (hshares 0 (by decide) 1 (by decide) 0 4 5 he hx hy hmark)

end PDG

end Cali.Passes
