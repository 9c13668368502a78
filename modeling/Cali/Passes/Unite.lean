import Mathlib.Data.Finset.Card
import Mathlib.Data.Prod.Lex
import Cali.Lib.Loop
import Cali.Lib.Merge
import Cali.Passes.PDG

/-!
# Uniting vertices

The merging path of `PDG::uniteSubnodes`: a worklist of pairs, the map `old_to_new`
from removed vertices to their replacements, and one merge per pair that is not
united yet.  One iteration of the loop is `uniteIteration`; `mergeInto` is the part
that changes the graph.
-/

namespace Cali.Passes

open Cali.Graph Cali.Lib

variable {Val Fn : Type}

/-- The variables of the loop of `uniteSubnodes`. -/
structure UniteState (Val Fn : Type) where
  pdg : PDG Val Fn
  queue : List (ℕ × ℕ)
  oldToNew : ℕ → Option ℕ

/-- What one iteration of a loop does. -/
inductive Iteration (σ : Type) where
  | finished
  | next (s : σ)
  | throw (what : String) (s : σ)
  /-- An inner loop does not end. -/
  | diverge

namespace PDG

/-- `(*this)[v].instruction` is not null. -/
def hasInstruction (g : PDG Val Fn) (v : ℕ) : Bool := (g.node v).instruction.isSome

/-- `swapLowerFirst` -/
def swapLowerFirst (g : PDG Val Fn) (v1 v2 : ℕ) : ℕ × ℕ :=
  if !g.hasInstruction v1 && (g.hasInstruction v2 || decide (v1 > v2)) then (v2, v1) else (v1, v2)

/-- The order `swapLowerFirst` sorts by, as a number. -/
def rank (g : PDG Val Fn) (v : ℕ) : ℕ := if g.hasInstruction v then 0 else v + 1

/-- The loop `while (!(insert_result = old_to_new.insert({v2, v1})).second)`: as long
as `v2` has been removed it is replaced, and the two are sorted again.  `none` means
that the given number of rounds was not enough. -/
def chase (g : PDG Val Fn) (oldToNew : ℕ → Option ℕ) : ℕ → ℕ → ℕ → Option (ℕ × ℕ)
  | 0, _, _ => none
  | rounds + 1, v1, v2 =>
    match oldToNew v2 with
    | none => some (v1, v2)
    | some v2 =>
      if v1 = v2 then some (v1, v2)
      else chase g oldToNew rounds (g.swapLowerFirst v1 v2).1 (g.swapLowerFirst v1 v2).2

/-- From a pair of the queue to the pair `(v1, v2)` with `v2` to be removed; the two
are equal when there is nothing to do. -/
def selectPair (g : PDG Val Fn) (oldToNew : ℕ → Option ℕ) (v1 v2 : ℕ) : Option (ℕ × ℕ) :=
  if v1 = v2 then some (v1, v2)
  else
    let p := g.swapLowerFirst v1 v2
    g.chase oldToNew (g.rank p.1 + g.rank p.2 + 1) p.1 p.2

end PDG

/-- The node attributes of `v1` after those of `v2` were joined to them.  The third
assignment is as in the source: it assigns the attribute of `v1` to itself. -/
def joinAttributes (v1 v2 : PDGNode Val Fn) : PDGNode Val Fn :=
  let v1 :=
    if !v1.source && v2.source then { v1 with source := v2.source, sourceType := v2.sourceType }
    else v1
  let v1 := if !v1.ipcsink && v2.ipcsink then { v1 with ipcsink := v2.ipcsink } else v1
  let v1 :=
    if !v1.reachesIpcSink && v2.reachesIpcSink then { v1 with reachesIpcSink := v1.reachesIpcSink }
    else v1
  if !v1.filedescriptor && v2.filedescriptor then { v1 with filedescriptor := v2.filedescriptor }
  else v1

/-- The target of the last edge that meets the condition. -/
def lastTarget (es : List (Edge PDGEdge)) (cond : PDGEdge → Bool) : Option ℕ :=
  es.foldl (fun acc e ↦ if cond e.property then some e.target else acc) none

namespace PDG

/-- The subnode of `v1` that an edge of `v2` with the property `p` is matched with:
`v1Deref`, `v1Part[index]` or `getPartOpt`. -/
def matchOf (g : PDG Val Fn) (v1 : ℕ) (p : PDGEdge) : Option ℕ :=
  match p.type with
  | .deref => lastTarget (g.graph.outEdges v1) fun q ↦ q.type = .deref
  | .part =>
    if p.index < 8 then
      lastTarget (g.graph.outEdges v1) fun q ↦ q.type = .part ∧ q.index = p.index
    else
      g.getPartOpt v1 p.index
  | _ => none

/-- The pairs that the loop over the outgoing edges of `v2` pushes. -/
def matchedPairs (g : PDG Val Fn) (v1 v2 : ℕ) : List (ℕ × ℕ) :=
  (g.graph.outEdges v2).filterMap fun e ↦ (g.matchOf v1 e.property).map (·, e.target)

/-- `new_edges` -/
def newEdges (g : PDG Val Fn) (v1 v2 : ℕ) : List (Edge PDGEdge) :=
  ((g.graph.outEdges v2).filter fun e ↦ (g.matchOf v1 e.property).isNone).map
      (fun e ↦ ⟨v1, e.target, e.property⟩) ++
    (g.graph.inEdges v2).map fun e ↦ ⟨e.source, v1, e.property⟩

/-- `add_edge` for the edges of a list. -/
def addEdges (g : PDG Val Fn) (es : List (Edge PDGEdge)) : PDG Val Fn :=
  es.foldl (fun g e ↦ g.addEdge e.source e.target e.property) g

/-- The graph after the attributes of `v2` were joined to those of `v1`. -/
def joinInto (g : PDG Val Fn) (v1 v2 : ℕ) : PDG Val Fn :=
  g.setNode v1 (joinAttributes (g.node v1) (g.node v2))

/-- The graph after `// join node attributes` and the insertion of `new_edges`. -/
def linkInto (g : PDG Val Fn) (v1 v2 : ℕ) : PDG Val Fn :=
  let g := g.joinInto v1 v2
  g.addEdges (g.newEdges v1 v2)

/-- The body of the loop from `// join node attributes` on, for a pair whose second
vertex has no instruction: the graph without `v2`. -/
def mergeInto [DecidableEq Fn] (g : PDG Val Fn) (v1 v2 : ℕ) : PDG Val Fn :=
  let g := g.linkInto v1 v2
  let g := g.setNode v2 { g.node v2 with ipcsink := false, reachesIpcSink := false }
  g.pdgRemoveVertex v2

end PDG

/-- One iteration of `while (!Q.empty())`. -/
def uniteIteration [DecidableEq Fn] (s : UniteState Val Fn) : Iteration (UniteState Val Fn) :=
  match s.queue with
  | [] => .finished
  | (v1, v2) :: queue =>
    match s.pdg.selectPair s.oldToNew v1 v2 with
    | none => .diverge
    | some (v1, v2) =>
      if v1 = v2 then
        .next { s with queue := queue }
      else if s.pdg.hasInstruction v2 then
        .throw "Can't remove vertices with instruction"
          ⟨s.pdg.joinInto v1 v2, queue, Function.update s.oldToNew v2 (some v1)⟩
      else
        .next ⟨s.pdg.mergeInto v1 v2, queue ++ s.pdg.matchedPairs v1 v2,
          Function.update s.oldToNew v2 (some v1)⟩

/-- The loop of `uniteSubnodes` before its first iteration. -/
def uniteStart (g : PDG Val Fn) (v1 v2 : ℕ) : UniteState Val Fn := ⟨g, [(v1, v2)], fun _ ↦ none⟩

/-- One iteration leads from `s` to `s'`. -/
def UniteStep [DecidableEq Fn] (s s' : UniteState Val Fn) : Prop := uniteIteration s = .next s'

/-- The condition under which `uniteSubnodes` merges: the pair is not linked by
two-way data flow instead. -/
def PDG.MergingPath (g : PDG Val Fn) (v1 v2 : ℕ) : Prop :=
  ¬ (g.hasInstruction v1 = true ∧ g.hasInstruction v2 = true ∨
    (g.node v1).function ≠ (g.node v2).function ∨
    (g.node v1).constant = true ∨ (g.node v2).constant = true)

instance [DecidableEq Fn] (g : PDG Val Fn) (v1 v2 : ℕ) : Decidable (g.MergingPath v1 v2) :=
  inferInstanceAs (Decidable (¬ _))

/-- A call of `uniteSubnodes` takes the merging path, and `s` is reached after some
iterations of its loop. -/
def UniteReaches [DecidableEq Fn] (g : PDG Val Fn) (v1 v2 : ℕ) (s : UniteState Val Fn) : Prop :=
  g.MergingPath v1 v2 ∧ Relation.ReflTransGen UniteStep (uniteStart g v1 v2) s

/-- The merge that the next iteration makes, if it makes one: the vertex that is kept
and the vertex that is removed. -/
def UniteState.nextMerge (s : UniteState Val Fn) : Option (ℕ × ℕ) :=
  match s.queue with
  | [] => none
  | (v1, v2) :: _ => (s.pdg.selectPair s.oldToNew v1 v2).filter fun p ↦ p.1 ≠ p.2

/-! ## Matching -/

theorem lastTarget_concat (es : List (Edge PDGEdge)) (e : Edge PDGEdge) (cond : PDGEdge → Bool) :
    lastTarget (es ++ [e]) cond =
      if cond e.property then some e.target else lastTarget es cond := by
  simp [lastTarget]

theorem lastTarget_eq_some {es : List (Edge PDGEdge)} {cond : PDGEdge → Bool} {t : ℕ}
    (h : lastTarget es cond = some t) : ∃ e ∈ es, cond e.property ∧ e.target = t := by
  induction es using List.reverseRecOn with
  | nil => cases h
  | append_singleton es e ih =>
    rw [lastTarget_concat] at h
    split at h
    · next he => exact ⟨e, by simp, he, Option.some.inj h⟩
    · obtain ⟨e', he', hrest⟩ := ih h
      exact ⟨e', List.mem_append_left _ he', hrest⟩

theorem lastTarget_eq_none {es : List (Edge PDGEdge)} {cond : PDGEdge → Bool} :
    lastTarget es cond = none ↔ ∀ e ∈ es, ¬ cond e.property := by
  induction es using List.reverseRecOn with
  | nil => simp [lastTarget]
  | append_singleton es e ih =>
    rw [lastTarget_concat]
    split
    · next he => simpa using Or.inr he
    · next he => simpa [ih, or_imp, forall_and] using fun _ ↦ he

/-- `matchOf` takes an edge labelled `q` for one labelled `p`. -/
def PDGEdge.Matches (maxParts : ℕ) (p q : PDGEdge) : Prop :=
  p.type = .deref ∧ q.type = .deref ∨
    p.type = .part ∧ q.type = .part ∧
      (q.index = p.index ∨ 8 ≤ p.index ∧ maxParts < p.index ∧ q.index = maxParts)

namespace PDG

variable {g : PDG Val Fn} {a b : ℕ} {p : PDGEdge}

/-- Every edge has a label that `createSubnodes` makes, or the index of a `Part` edge is small. -/
def Plain (g : PDG Val Fn) : Prop :=
  ∀ u p w, g.HasEdge u p w → p.Clamped (max 7 g.maxParts)

/-- The right answer when one looks for an edge of `a` with the same structural label
as `p`. -/
def IsMatch (g : PDG Val Fn) (a : ℕ) (p : PDGEdge) : Option ℕ → Prop
  | some t => p.Structural ∧ g.HasEdge a p t
  | none => ¬ (p.Structural ∧ ∃ t, g.HasEdge a p t)

/-- A search among the edges of `a` for one with the label `p`. -/
theorem search_spec (hm : g.graph.Mirrored) (hp : p.Structural) {cond : PDGEdge → Bool}
    (hcond : ∀ e ∈ g.graph.outEdges a, cond e.property ↔ e.property = p) {r : Option ℕ}
    (hsome : ∀ t, r = some t → ∃ e ∈ g.graph.outEdges a, cond e.property ∧ e.target = t)
    (hnone : r = none → ∀ e ∈ g.graph.outEdges a, ¬ cond e.property) :
    IsMatch g a p r := by
  cases r with
  | some t =>
    obtain ⟨e, he, hc, rfl⟩ := hsome t rfl
    refine ⟨hp, ?_⟩
    rw [← (hcond e he).mp hc]
    exact (hm.mem_outEdges_iff.mp he).2
  | none =>
    rintro ⟨-, t, ht⟩
    exact hnone rfl ⟨a, t, p⟩ ht ((hcond _ ht).mpr rfl)

theorem isMatch_lastTarget (hm : g.graph.Mirrored) (hp : p.Structural) {cond : PDGEdge → Bool}
    (hcond : ∀ e ∈ g.graph.outEdges a, cond e.property ↔ e.property = p) :
    IsMatch g a p (lastTarget (g.graph.outEdges a) cond) :=
  search_spec hm hp hcond (fun _ ↦ lastTarget_eq_some) lastTarget_eq_none.mp

theorem isMatch_find (hm : g.graph.Mirrored) (hp : p.Structural) {cond : PDGEdge → Bool}
    (hcond : ∀ e ∈ g.graph.outEdges a, cond e.property ↔ e.property = p) :
    IsMatch g a p (((g.graph.outEdges a).find? fun e ↦ cond e.property).map (·.target)) := by
  refine search_spec hm hp hcond (fun t ht ↦ ?_) fun hnone ↦ by simpa using hnone
  obtain ⟨e, he, rfl⟩ := Option.map_eq_some_iff.mp ht
  have hcond := List.find?_some he
  exact ⟨e, List.mem_of_find?_eq_some he, hcond, rfl⟩

/-- `matchOf` finds the target of an edge with the same label if the label is
structural and there is one. -/
theorem matchOf_spec (hm : g.graph.Mirrored) (hg : g.Plain) (hp : p.Clamped (max 7 g.maxParts)) :
    IsMatch g a p (g.matchOf a p) := by
  obtain ⟨type, i⟩ := p
  cases type with
  | deref =>
    simp only [matchOf]
    refine isMatch_lastTarget hm (Or.inl rfl) fun e he ↦ ?_
    have hi : i = 0 := hp.1 rfl
    have hj := (hg _ _ _ (hm.mem_outEdges_iff.mp he).2).1
    obtain ⟨s, t, ⟨type, j⟩⟩ := e
    simp_all
  | part =>
    let cond : PDGEdge → Bool := fun q ↦ q.type = .part ∧ q.index = i
    have hcond : ∀ e ∈ g.graph.outEdges a, cond e.property ↔ e.property = ⟨.part, i⟩ := by
      rintro ⟨s, t, ⟨type, j⟩⟩ -
      simp [cond]
    by_cases hi : i < 8
    · simp only [matchOf, hi, ↓reduceIte]
      exact isMatch_lastTarget hm (Or.inr rfl) hcond
    · have hle : ¬ i > g.maxParts := by
        have hmax : i ≤ max 7 g.maxParts := hp.2 rfl
        omega
      simp only [matchOf, getPartOpt, hi, hle, ↓reduceIte]
      exact isMatch_find hm (Or.inr rfl) hcond
  | _ => simp [matchOf, IsMatch, PDGEdge.Structural]

/-- Whatever the labels are, a match is the target of an edge of `a`. -/
theorem exists_hasEdge_of_matchOf (hm : g.graph.Mirrored) {t : ℕ} (h : g.matchOf a p = some t) :
    ∃ q, g.HasEdge a q t ∧ p.Matches g.maxParts q := by
  unfold matchOf at h
  split at h
  · next hp =>
      obtain ⟨e, he, hq, rfl⟩ := lastTarget_eq_some h
      exact ⟨_, (hm.mem_outEdges_iff.mp he).2, Or.inl ⟨hp, of_decide_eq_true hq⟩⟩
  · next hp =>
      split at h
      · obtain ⟨e, he, hq, rfl⟩ := lastTarget_eq_some h
        obtain ⟨hq, hi⟩ := of_decide_eq_true hq
        exact ⟨_, (hm.mem_outEdges_iff.mp he).2, Or.inr ⟨hp, hq, Or.inl hi⟩⟩
      · next hlt =>
          obtain ⟨e, he, rfl⟩ := Option.map_eq_some_iff.mp h
          have hfound := List.find?_some he
          obtain ⟨hq, hi⟩ := of_decide_eq_true hfound
          refine ⟨_, (hm.mem_outEdges_iff.mp (List.mem_of_find?_eq_some he)).2,
            Or.inr ⟨hp, hq, ?_⟩⟩
          split at hi
          · next hmax => exact Or.inr ⟨not_lt.mp hlt, hmax, hi⟩
          · exact Or.inl hi
  · cases h

theorem matchOf_eq_some (hm : g.graph.Mirrored) (hg : g.Plain) (hp : p.Clamped (max 7 g.maxParts))
    {t : ℕ} (h : g.matchOf a p = some t) : p.Structural ∧ g.HasEdge a p t := by
  have := matchOf_spec hm hg hp (a := a)
  rwa [h] at this

theorem matchOf_eq_none_iff (hm : g.graph.Mirrored) (hg : g.Plain)
    (hp : p.Clamped (max 7 g.maxParts)) :
    g.matchOf a p = none ↔ ¬ (p.Structural ∧ ∃ t, g.HasEdge a p t) := by
  have hspec := matchOf_spec hm hg hp (a := a)
  cases h : g.matchOf a p with
  | some t =>
    rw [h] at hspec
    exact ⟨nofun, fun hno ↦ absurd ⟨hspec.1, t, hspec.2⟩ hno⟩
  | none =>
    rw [h] at hspec
    exact ⟨fun _ ↦ hspec, fun _ ↦ rfl⟩

/-! ## The graph after a merge -/

theorem hasEdge_addEdges {es : List (Edge PDGEdge)} {u w : ℕ} :
    (g.addEdges es).HasEdge u p w ↔ g.HasEdge u p w ∨ (⟨u, w, p⟩ : Edge PDGEdge) ∈ es := by
  induction es generalizing g with
  | nil => simp [addEdges]
  | cons e es ih =>
    unfold addEdges at ih ⊢
    rw [List.foldl_cons, ih, hasEdge_addEdge, List.mem_cons]
    obtain ⟨x, y, q⟩ := e
    simp only [Edge.mk.injEq]
    tauto

theorem mirrored_addEdges (hm : g.graph.Mirrored) (es : List (Edge PDGEdge)) :
    (g.addEdges es).graph.Mirrored := by
  induction es generalizing g with
  | nil => exact hm
  | cons e es ih => exact ih (hm.addEdge ..)

theorem sameNodes_addEdges (es : List (Edge PDGEdge)) :
    BaseGraph.SameNodes g.graph (g.addEdges es).graph := by
  induction es generalizing g with
  | nil => exact .refl _
  | cons e es ih => exact (BaseGraph.sameNodes_addEdge ..).trans (ih (g := g.addEdge ..))

theorem node_addEdges (es : List (Edge PDGEdge)) (u : ℕ) : (g.addEdges es).node u = g.node u :=
  (sameNodes_addEdges es).property u

theorem mem_newEdges (hm : g.graph.Mirrored) {v1 v2 u w : ℕ} :
    (⟨u, w, p⟩ : Edge PDGEdge) ∈ g.newEdges v1 v2 ↔
      u = v1 ∧ g.HasEdge v2 p w ∧ g.matchOf v1 p = none ∨ w = v1 ∧ g.HasEdge u p v2 := by
  unfold newEdges
  simp only [List.mem_append, List.mem_map, List.mem_filter, hm.mem_outEdges_iff,
    hm.mem_inEdges_iff_hasEdge, Option.isNone_iff_eq_none, Edge.mk.injEq]
  constructor
  · rintro (⟨e, ⟨⟨-, he⟩, hnone⟩, rfl, rfl, rfl⟩ | ⟨e, ⟨-, he⟩, rfl, rfl, rfl⟩)
    · exact Or.inl ⟨rfl, he, hnone⟩
    · exact Or.inr ⟨rfl, he⟩
  · rintro (⟨rfl, he, hnone⟩ | ⟨rfl, he⟩)
    · exact Or.inl ⟨⟨v2, w, p⟩, ⟨⟨rfl, he⟩, hnone⟩, rfl, rfl, rfl⟩
    · exact Or.inr ⟨⟨u, v2, p⟩, ⟨rfl, he⟩, rfl, rfl, rfl⟩

theorem mem_matchedPairs (hm : g.graph.Mirrored) {v1 v2 m t : ℕ} :
    (m, t) ∈ g.matchedPairs v1 v2 ↔ ∃ q, g.HasEdge v2 q t ∧ g.matchOf v1 q = some m := by
  unfold matchedPairs
  simp only [List.mem_filterMap, hm.mem_outEdges_iff, Option.map_eq_some_iff, Prod.mk.injEq]
  constructor
  · rintro ⟨e, ⟨-, he⟩, m, hmatch, rfl, rfl⟩
    exact ⟨e.property, he, hmatch⟩
  · rintro ⟨q, he, hmatch⟩
    exact ⟨⟨v2, t, q⟩, ⟨rfl, he⟩, m, hmatch, rfl, rfl⟩

theorem newEdges_joinInto (v1 v2 : ℕ) : (g.joinInto v1 v2).newEdges v1 v2 = g.newEdges v1 v2 := by
  have hmatch : ∀ q, (g.joinInto v1 v2).matchOf v1 q = g.matchOf v1 q := fun q ↦ by
    simp only [matchOf, getPartOpt, joinInto, outEdges_setNode]
    rfl
  simp only [newEdges, hmatch]
  simp only [joinInto, outEdges_setNode, inEdges_setNode]

theorem mirrored_linkInto (hm : g.graph.Mirrored) (v1 v2 : ℕ) :
    (g.linkInto v1 v2).graph.Mirrored :=
  mirrored_addEdges (mirrored_setNode hm ..) _

theorem hasEdge_linkInto (hm : g.graph.Mirrored) {u w : ℕ} :
    (g.linkInto a b).HasEdge u p w ↔
      g.HasEdge u p w ∨ u = a ∧ g.HasEdge b p w ∧ g.matchOf a p = none ∨
        w = a ∧ g.HasEdge u p b := by
  simp only [linkInto, newEdges_joinInto, hasEdge_addEdges, mem_newEdges hm]
  simp only [joinInto, hasEdge_setNode]

theorem node_linkInto (u : ℕ) :
    (g.linkInto a b).node u =
      if u = a then joinAttributes (g.node a) (g.node b) else g.node u := by
  simp only [linkInto, node_addEdges, joinInto, node_setNode]

theorem maxParts_addEdges (es : List (Edge PDGEdge)) : (g.addEdges es).maxParts = g.maxParts := by
  induction es generalizing g with
  | nil => rfl
  | cons e es ih => exact ih (g := g.addEdge ..)

variable [DecidableEq Fn]

theorem mirrored_mergeInto (hm : g.graph.Mirrored) (v1 v2 : ℕ) :
    (g.mergeInto v1 v2).graph.Mirrored :=
  (mirrored_setNode (mirrored_linkInto hm ..) ..).removeVertex v2

/-- The edges of the graph after a merge, before labels are taken into account. -/
theorem hasEdge_mergeInto_iff (hm : g.graph.Mirrored) {u w : ℕ} :
    (g.mergeInto a b).HasEdge u p w ↔
      (g.HasEdge u p w ∨ u = a ∧ g.HasEdge b p w ∧ g.matchOf a p = none ∨ w = a ∧ g.HasEdge u p b) ∧
        u ≠ b ∧ w ≠ b := by
  refine ((mirrored_setNode (mirrored_linkInto hm ..) ..).hasEdge_removeVertex).trans ?_
  exact and_congr_left fun _ ↦ (hasEdge_setNode ..).trans (hasEdge_linkInto hm)

theorem capacity_mergeInto (a b : ℕ) : (g.mergeInto a b).graph.capacity = g.graph.capacity :=
  (BaseGraph.capacity_removeVertex ..).trans (sameNodes_addEdges _).capacity

theorem isEmpty_mergeInto (a b x : ℕ) :
    (g.mergeInto a b).graph.isEmpty x = if x = b then true else g.graph.isEmpty x := by
  refine (BaseGraph.isEmpty_removeVertex ..).trans (if_congr Iff.rfl rfl ?_)
  refine (BaseGraph.isEmpty_setProperty ..).trans (((sameNodes_addEdges _).isEmpty x).trans ?_)
  exact BaseGraph.isEmpty_setProperty ..

theorem maxParts_mergeInto : (g.mergeInto a b).maxParts = g.maxParts :=
  maxParts_addEdges ..

/-- **The graph after a merge** of `b` into `a`. -/
theorem hasEdge_mergeInto (hm : g.graph.Mirrored) (hg : g.Plain) {u w : ℕ} :
    (g.mergeInto a b).HasEdge u p w ↔ mergeEdge PDGEdge.Structural g.HasEdge a b u p w := by
  rw [hasEdge_mergeInto_iff hm]
  unfold mergeEdge
  have hmatch : g.HasEdge b p w →
      (g.matchOf a p = none ↔ ¬ (p.Structural ∧ ∃ m, g.HasEdge a p m)) :=
    fun h ↦ matchOf_eq_none_iff hm hg (hg _ _ _ h)
  constructor
  · rintro ⟨h | ⟨hu, h, hnone⟩ | h, hu', hw⟩
    · exact ⟨hu', hw, Or.inl h⟩
    · exact ⟨hu', hw, Or.inr (Or.inl ⟨hu, h, (hmatch h).mp hnone⟩)⟩
    · exact ⟨hu', hw, Or.inr (Or.inr h)⟩
  · rintro ⟨hu', hw, h | ⟨hu, h, hno⟩ | h⟩
    · exact ⟨Or.inl h, hu', hw⟩
    · exact ⟨Or.inr (Or.inl ⟨hu, h, (hmatch h).mpr hno⟩), hu', hw⟩
    · exact ⟨Or.inr (Or.inr h), hu', hw⟩

theorem Plain.mergeInto (hm : g.graph.Mirrored) (hg : g.Plain) : (g.mergeInto a b).Plain := by
  intro u p w h
  rw [maxParts_mergeInto]
  obtain ⟨h | ⟨-, h, -⟩ | ⟨-, h⟩, -, -⟩ := (hasEdge_mergeInto_iff hm).mp h
  · exact hg _ _ _ h
  · exact hg _ _ _ h
  · exact hg _ _ _ h

theorem node_mergeInto (hab : a ≠ b) (u : ℕ) :
    (g.mergeInto a b).node u =
      if u = b then { g.node b with ipcsink := false, reachesIpcSink := false }
      else if u = a then joinAttributes (g.node a) (g.node b) else g.node u := by
  refine (BaseGraph.property_removeVertex ..).trans ((node_setNode ..).trans ?_)
  simp only [node_linkInto, Ne.symm hab, ↓reduceIte]

end PDG

/-- What `joinAttributes` amounts to: the marks are united, except for
`reaches_ipc_sink`. -/
theorem joinAttributes_eq (v1 v2 : PDGNode Val Fn) :
    joinAttributes v1 v2 = { v1 with
      source := v1.source || v2.source
      sourceType := if !v1.source && v2.source then v2.sourceType else v1.sourceType
      ipcsink := v1.ipcsink || v2.ipcsink
      filedescriptor := v1.filedescriptor || v2.filedescriptor } := by
  unfold joinAttributes
  cases v1
  cases v2
  grind

namespace PDG

variable {g : PDG Val Fn} {a b : ℕ}

@[simp] theorem hasInstruction_mergeInto [DecidableEq Fn] (hab : a ≠ b) (v : ℕ) :
    (g.mergeInto a b).hasInstruction v = g.hasInstruction v := by
  unfold hasInstruction
  rw [node_mergeInto hab]
  split
  · next h => rw [h]
  · split
    · next h => rw [joinAttributes_eq, h]
    · rfl

/-! ## Selecting a pair -/

/-- The first of the two is the one that is kept. -/
def Ordered (g : PDG Val Fn) (a b : ℕ) : Prop := g.hasInstruction b = false → g.rank a < g.rank b

/-- Replacements have a lower rank. -/
def Ranked (g : PDG Val Fn) (oldToNew : ℕ → Option ℕ) : Prop :=
  ∀ x y, oldToNew x = some y → g.rank y < g.rank x

theorem swapLowerFirst_spec {v1 v2 : ℕ} (hne : v1 ≠ v2) :
    g.Ordered (g.swapLowerFirst v1 v2).1 (g.swapLowerFirst v1 v2).2 ∧
      (g.swapLowerFirst v1 v2 = (v1, v2) ∨ g.swapLowerFirst v1 v2 = (v2, v1)) := by
  unfold swapLowerFirst Ordered rank
  split
  · next h =>
      refine ⟨fun h1 ↦ ?_, Or.inr rfl⟩
      simp only [Bool.and_eq_true, Bool.not_eq_true', Bool.or_eq_true, decide_eq_true_eq] at h
      rcases h.2 with h2 | h2
      · simp [h1, h2]
      · simp only [h1]
        split <;> simp
        omega
  · next h =>
      refine ⟨fun h2 ↦ ?_, Or.inl rfl⟩
      simp only [h2, Bool.false_or, Bool.and_eq_true, Bool.not_eq_true', decide_eq_true_eq,
        not_and, not_lt] at h
      cases h1 : g.hasInstruction v1 with
      | true => simp [h2]
      | false =>
        have := h h1
        simp [h2]
        omega

/-- From the pair `(x, y)` the loop has come to `(a, b)`. -/
def Selected (g : PDG Val Fn) (oldToNew : ℕ → Option ℕ) (x y a b : ℕ) : Prop :=
  a = b ∧ Leads oldToNew x a ∧ Leads oldToNew y b ∨
    a ≠ b ∧ oldToNew b = none ∧ g.Ordered a b ∧
      (Leads oldToNew x a ∧ Leads oldToNew y b ∨ Leads oldToNew x b ∧ Leads oldToNew y a)

theorem Selected.swap {oldToNew : ℕ → Option ℕ} {x y : ℕ} (h : g.Selected oldToNew x y a b) :
    g.Selected oldToNew y x a b := by
  rcases h with ⟨rfl, hx, hy⟩ | ⟨hne, hb, ho, h⟩
  · exact Or.inl ⟨rfl, hy, hx⟩
  · exact Or.inr ⟨hne, hb, ho, h.symm.imp And.symm And.symm⟩

theorem Selected.head {oldToNew : ℕ → Option ℕ} {x y y' : ℕ} (hy : oldToNew y = some y')
    (h : g.Selected oldToNew x y' a b) : g.Selected oldToNew x y a b := by
  have hlead : ∀ {z}, Leads oldToNew y' z → Leads oldToNew y z := fun hz ↦ .head hy hz
  rcases h with ⟨rfl, hx, hy'⟩ | ⟨hne, hb, ho, h⟩
  · exact Or.inl ⟨rfl, hx, hlead hy'⟩
  · exact Or.inr ⟨hne, hb, ho, h.imp (And.imp_right hlead) (And.imp_right hlead)⟩

/-- The inner loop ends: each round lowers the rank of one of the two vertices. -/
theorem chase_spec {oldToNew : ℕ → Option ℕ} (hr : g.Ranked oldToNew) {rounds v1 v2 : ℕ}
    (hlt : g.rank v1 + g.rank v2 < rounds) (hne : v1 ≠ v2) (ho : g.Ordered v1 v2) :
    ∃ a b, g.chase oldToNew rounds v1 v2 = some (a, b) ∧ g.Selected oldToNew v1 v2 a b := by
  induction rounds generalizing v1 v2 with
  | zero => omega
  | succ rounds ih =>
    rw [chase]
    cases h : oldToNew v2 with
    | none => exact ⟨v1, v2, rfl, Or.inr ⟨hne, h, ho, Or.inl ⟨.refl, .refl⟩⟩⟩
    | some v2' =>
      by_cases heq : v1 = v2'
      · subst heq
        exact ⟨v1, v1, by simp, Or.inl ⟨rfl, .refl, .single h⟩⟩
      · simp only [heq, ↓reduceIte]
        have hlower := hr v2 v2' h
        obtain ⟨ho', hswap | hswap⟩ := g.swapLowerFirst_spec heq
        · rw [hswap] at ho' ⊢
          obtain ⟨a, b, hc, hsel⟩ := ih (by omega) heq ho'
          exact ⟨a, b, hc, hsel.head h⟩
        · rw [hswap] at ho' ⊢
          obtain ⟨a, b, hc, hsel⟩ := ih (by omega) (Ne.symm heq) ho'
          exact ⟨a, b, hc, hsel.swap.head h⟩

theorem selectPair_spec {oldToNew : ℕ → Option ℕ} (hr : g.Ranked oldToNew) (x y : ℕ) :
    ∃ a b, g.selectPair oldToNew x y = some (a, b) ∧ g.Selected oldToNew x y a b := by
  unfold selectPair
  split
  · next h => exact ⟨x, y, rfl, Or.inl ⟨h, .refl, .refl⟩⟩
  · next h =>
      obtain ⟨ho, hswap | hswap⟩ := g.swapLowerFirst_spec h
      · rw [hswap] at ho ⊢
        exact chase_spec hr (Nat.lt_succ_self _) h ho
      · rw [hswap] at ho ⊢
        obtain ⟨a, b, hc, hsel⟩ := chase_spec hr (Nat.lt_succ_self _) (Ne.symm h) ho
        exact ⟨a, b, hc, hsel.swap⟩

/-- The pair that is selected is made of the given vertices and their replacements. -/
theorem chase_mem {oldToNew : ℕ → Option ℕ} {P : ℕ → Prop}
    (hP : ∀ x y, oldToNew x = some y → P y) {rounds v1 v2 : ℕ} (h1 : P v1) (h2 : P v2)
    (h : g.chase oldToNew rounds v1 v2 = some (a, b)) : P a ∧ P b := by
  induction rounds generalizing v1 v2 with
  | zero => cases h
  | succ rounds ih =>
    rw [chase] at h
    split at h
    · cases h
      exact ⟨h1, h2⟩
    · next v2' hv2' =>
        have h2' : P v2' := hP v2 v2' hv2'
        split at h
        · cases h
          exact ⟨h1, h2'⟩
        · next hne =>
            obtain ⟨-, hswap | hswap⟩ := g.swapLowerFirst_spec hne
            · rw [hswap] at h
              exact ih h1 h2' h
            · rw [hswap] at h
              exact ih h2' h1 h

theorem selectPair_mem {oldToNew : ℕ → Option ℕ} {P : ℕ → Prop}
    (hP : ∀ x y, oldToNew x = some y → P y) {x y : ℕ} (hx : P x) (hy : P y)
    (h : g.selectPair oldToNew x y = some (a, b)) : P a ∧ P b := by
  unfold selectPair at h
  split at h
  · cases h
    exact ⟨hx, hy⟩
  · next hne =>
      obtain ⟨-, hswap | hswap⟩ := g.swapLowerFirst_spec hne
      · rw [hswap] at h
        exact chase_mem hP hx hy h
      · rw [hswap] at h
        exact chase_mem hP hy hx h

end PDG

/-! ## One iteration -/

variable [DecidableEq Fn] {s s' : UniteState Val Fn}

/-- **What one iteration does**: the first pair of the queue is dropped because it is
united already, or one of its two representatives is merged into the other. -/
theorem UniteStep.inv (hr : s.pdg.Ranked s.oldToNew) (h : UniteStep s s') :
    ∃ x y queue, s.queue = (x, y) :: queue ∧
      ((∃ a, Leads s.oldToNew x a ∧ Leads s.oldToNew y a ∧ s' = { s with queue := queue }) ∨
        ∃ a b, s.nextMerge = some (a, b) ∧ a ≠ b ∧ s.oldToNew b = none ∧ s.pdg.Ordered a b ∧
          s.pdg.hasInstruction b = false ∧
          (Leads s.oldToNew x a ∧ Leads s.oldToNew y b ∨
            Leads s.oldToNew x b ∧ Leads s.oldToNew y a) ∧
          s' = ⟨s.pdg.mergeInto a b, queue ++ s.pdg.matchedPairs a b,
            Function.update s.oldToNew b (some a)⟩) := by
  unfold UniteStep uniteIteration at h
  cases hq : s.queue with
  | nil => simp [hq] at h
  | cons p queue =>
    obtain ⟨x, y⟩ := p
    refine ⟨x, y, queue, rfl, ?_⟩
    obtain ⟨a, b, hsel, hspec⟩ := s.pdg.selectPair_spec hr x y
    simp only [hq, hsel] at h
    rcases hspec with ⟨rfl, hx, hy⟩ | ⟨hne, hb, ho, hlead⟩
    · simp only [↓reduceIte, Iteration.next.injEq] at h
      exact Or.inl ⟨a, hx, hy, h.symm⟩
    · simp only [hne, ↓reduceIte] at h
      split at h
      · cases h
      · next hi =>
          cases h
          refine Or.inr ⟨a, b, ?_, hne, hb, ho, by simpa using hi, hlead, rfl⟩
          simp [UniteState.nextMerge, hq, hsel, hne]

theorem UniteStep.cases (h : UniteStep s s') :
    ∃ x y queue, s.queue = (x, y) :: queue ∧ (s' = { s with queue := queue } ∨
      ∃ a b, s.nextMerge = some (a, b) ∧ s.pdg.selectPair s.oldToNew x y = some (a, b) ∧ a ≠ b ∧
        s.pdg.hasInstruction b = false ∧
        s' = ⟨s.pdg.mergeInto a b, queue ++ s.pdg.matchedPairs a b,
          Function.update s.oldToNew b (some a)⟩) := by
  unfold UniteStep uniteIteration at h
  split at h
  · cases h
  · next x y queue hq =>
      refine ⟨x, y, queue, hq, ?_⟩
      split at h
      · cases h
      · next a b hsel =>
          split at h
          · cases h
            exact Or.inl rfl
          · next hne =>
              split at h
              · cases h
              · next hi =>
                  cases h
                  exact Or.inr ⟨a, b, by simp [UniteState.nextMerge, hq, hsel, hne], hsel, hne,
                    by simpa using hi, rfl⟩

theorem UniteStep.pdg_cases (h : UniteStep s s') :
    s'.pdg = s.pdg ∨ ∃ a b, s.nextMerge = some (a, b) ∧ a ≠ b ∧ s.pdg.hasInstruction b = false ∧
      s'.pdg = s.pdg.mergeInto a b := by
  obtain ⟨x, y, queue, -, rfl | ⟨a, b, hnext, -, hab, hi, rfl⟩⟩ := h.cases
  · exact Or.inl rfl
  · exact Or.inr ⟨a, b, hnext, hab, hi, rfl⟩

theorem queue_eq_nil_of_finished (h : uniteIteration s = .finished) : s.queue = [] := by
  unfold uniteIteration at h
  split at h
  · next hq => exact hq
  · repeat' split at h
    all_goals cases h

/-- When no step is possible, the queue is empty or the vertex to be removed has an
instruction. -/
theorem uniteIteration_of_no_step (hr : s.pdg.Ranked s.oldToNew) (h : ∀ s', ¬ UniteStep s s') :
    uniteIteration s = .finished ∧ s.queue = [] ∨
      ∃ x y queue a b, s.queue = (x, y) :: queue ∧ s.pdg.hasInstruction b = true ∧
        s.pdg.Selected s.oldToNew x y a b := by
  unfold UniteStep at h
  cases hq : s.queue with
  | nil => exact Or.inl ⟨by simp [uniteIteration, hq], rfl⟩
  | cons p queue =>
    obtain ⟨x, y⟩ := p
    obtain ⟨a, b, hsel, hspec⟩ := s.pdg.selectPair_spec hr x y
    refine Or.inr ⟨x, y, queue, a, b, rfl, ?_, hspec⟩
    by_contra hi
    by_cases hab : a = b
    · exact h { s with queue := queue } (by simp [uniteIteration, hq, hsel, hab])
    · exact h _ (by simp [uniteIteration, hq, hsel, hab, hi]; rfl)

theorem rank_mergeInto {g : PDG Val Fn} {a b : ℕ} (hab : a ≠ b) (v : ℕ) :
    (g.mergeInto a b).rank v = g.rank v := by
  unfold PDG.rank
  rw [PDG.hasInstruction_mergeInto hab]

theorem UniteStep.ranked (hr : s.pdg.Ranked s.oldToNew) (h : UniteStep s s') :
    s'.pdg.Ranked s'.oldToNew := by
  obtain ⟨x, y, queue, -, ⟨a, -, -, rfl⟩ | ⟨a, b, -, hab, -, ho, hi, -, rfl⟩⟩ := h.inv hr
  · exact hr
  · intro u v huv
    change Function.update s.oldToNew b (some a) u = some v at huv
    rw [rank_mergeInto hab, rank_mergeInto hab]
    by_cases hu : u = b
    · subst hu
      rw [Function.update_self, Option.some.injEq] at huv
      exact huv ▸ ho hi
    · rw [Function.update_of_ne hu] at huv
      exact hr u v huv

/-- How much the loop still has to do. -/
def uniteMeasure (s : UniteState Val Fn) : ℕ ×ₗ ℕ :=
  toLex (((Finset.range s.pdg.graph.capacity).filter fun x ↦ s.oldToNew x = none).card,
    s.queue.length)

omit [DecidableEq Fn] in
theorem lt_of_leads {oldToNew : ℕ → Option ℕ} {n x y : ℕ}
    (hmap : ∀ x y, oldToNew x = some y → y < n) (hx : x < n) (h : Leads oldToNew x y) : y < n := by
  induction h with
  | refl => exact hx
  | tail _ hstep _ => exact hmap _ _ hstep

theorem UniteStep.measure_lt (h : UniteStep s s') (hr : s.pdg.Ranked s.oldToNew)
    (hqueue : ∀ p ∈ s.queue, p.1 < s.pdg.graph.capacity ∧ p.2 < s.pdg.graph.capacity)
    (hmap : ∀ x y, s.oldToNew x = some y → y < s.pdg.graph.capacity) :
    uniteMeasure s' < uniteMeasure s := by
  obtain ⟨x, y, queue, hq, ⟨a, -, -, rfl⟩ | ⟨a, b, -, -, hb, -, -, hlead, rfl⟩⟩ := h.inv hr
  · refine Prod.Lex.right _ ?_
    rw [hq]
    exact Nat.lt_succ_self _
  · obtain ⟨hx, hy⟩ := hqueue (x, y) (hq ▸ List.mem_cons_self)
    have hbcap : b < s.pdg.graph.capacity := by
      rcases hlead with ⟨-, hyb⟩ | ⟨hxb, -⟩
      · exact lt_of_leads hmap hy hyb
      · exact lt_of_leads hmap hx hxb
    refine Prod.Lex.left _ _ ?_
    simp only [PDG.capacity_mergeInto]
    refine Finset.card_lt_card (Finset.ssubset_iff_of_subset ?_ |>.mpr ⟨b, ?_, ?_⟩)
    · intro u hu
      rw [Finset.mem_filter] at hu ⊢
      by_cases hub : u = b
      · simp [hub] at hu
      · rwa [Function.update_of_ne hub] at hu
    · simp [hbcap, hb]
    · simp

theorem UniteStep.hasInstruction (hr : s.pdg.Ranked s.oldToNew) (h : UniteStep s s') (v : ℕ) :
    s'.pdg.hasInstruction v = s.pdg.hasInstruction v := by
  obtain ⟨x, y, queue, -, ⟨a, -, -, rfl⟩ | ⟨a, b, -, hab, -, -, -, -, rfl⟩⟩ := h.inv hr
  · rfl
  · exact PDG.hasInstruction_mergeInto hab v

theorem UniteStep.deterministic {s'' : UniteState Val Fn} (h : UniteStep s s')
    (h' : UniteStep s s'') : s' = s'' := by
  unfold UniteStep at h h'
  rw [h] at h'
  cases h'
  rfl

/-- The state after the next iteration, if there is one. -/
def UniteState.advance (s : UniteState Val Fn) : UniteState Val Fn :=
  match uniteIteration s with
  | .next s' => s'
  | _ => s

/-- There is a next iteration and it does not throw. -/
def UniteState.canAdvance (s : UniteState Val Fn) : Bool :=
  match uniteIteration s with
  | .next _ => true
  | _ => false

theorem uniteStep_advance (h : s.canAdvance = true) : UniteStep s s.advance := by
  unfold UniteState.canAdvance at h
  unfold UniteStep UniteState.advance
  split at h
  · next heq => simp only [heq]
  · cases h

theorem not_uniteStep_of_nil (h : s.queue = []) : ¬ UniteStep s s' := by
  simp [UniteStep, uniteIteration, h]

/-! ## Graphs given by their edges -/

namespace PDG

/-- The graph with `n` vertices that have no attributes and no edges. -/
def isolated (n : ℕ) : PDG Val Fn where
  graph := ⟨BitVec.ofNat 64 n, 0, [], n, fun _ ↦ ⟨[], [], {}, false⟩⟩
  valueToVertex := fun _ ↦ none
  maxParts := 32
  subnodeLimit := 5
  unitedNodes := ∅
  functionToVertices := fun f ↦ if f.isNone then Finset.range n else ∅

/-- The graph with `n` vertices that have no attributes, and the given edges. -/
def ofEdges (n : ℕ) (es : List (Edge PDGEdge)) : PDG Val Fn := (isolated n).addEdges es

variable {n : ℕ} {es : List (Edge PDGEdge)}

omit [DecidableEq Fn] in
theorem mirrored_isolated : (isolated n : PDG Val Fn).graph.Mirrored where
  source_eq h := nomatch h
  target_eq h := nomatch h
  mem_inEdges_iff _ := Iff.rfl
  outEdges_nodup _ := .nil
  inEdges_nodup _ := .nil

omit [DecidableEq Fn] in
theorem mirrored_ofEdges : (ofEdges n es : PDG Val Fn).graph.Mirrored :=
  mirrored_addEdges mirrored_isolated es

omit [DecidableEq Fn] in
theorem hasEdge_ofEdges {u w : ℕ} {p : PDGEdge} :
    (ofEdges n es : PDG Val Fn).HasEdge u p w ↔ (⟨u, w, p⟩ : Edge PDGEdge) ∈ es :=
  hasEdge_addEdges.trans (or_iff_right List.not_mem_nil)

omit [DecidableEq Fn] in
theorem node_ofEdges (v : ℕ) : (ofEdges n es : PDG Val Fn).node v = {} := node_addEdges es v

omit [DecidableEq Fn] in
theorem capacity_ofEdges : (ofEdges n es : PDG Val Fn).graph.capacity = n :=
  (sameNodes_addEdges es).capacity

theorem hasInstruction_of_ofEdges {v1 v2 : ℕ}
    (h : UniteReaches (ofEdges n es : PDG Val Fn) v1 v2 s) (v : ℕ) :
    s.pdg.hasInstruction v = false := by
  have hinv := invariant_of_reaches (I := fun s : UniteState Val Fn ↦
      s.pdg.Ranked s.oldToNew ∧ s.pdg.hasInstruction v = false)
    (fun s s' hs hst ↦ ⟨hst.ranked hs.1, (hst.hasInstruction hs.1 v).trans hs.2⟩) h.2
    ⟨nofun, by simp [uniteStart, hasInstruction, node_ofEdges]⟩
  exact hinv.2

end PDG

end Cali.Passes
