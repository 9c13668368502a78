import Cali.Passes.UnitedNodes

/-!
# Graphs built from the structure of values

`createSubnodes` follows the type of a value, and `uniteSubnodes` merges vertices.  Merging a
vertex with one that it leads to makes the structure cyclic.  If only vertices of the same kind
are merged, where the kind of a vertex determines the kinds of the vertices it leads to, each
step of a call keeps it so.  Vertices that the call does not come to need not have a kind.
-/

namespace Cali.Passes

open Cali.Graph Cali.Lib

variable {Val Fn : Type}

namespace PDG

variable {g : PDG Val Fn} {u v w u' w' : ℕ} {p : PDGEdge}

/-- Every label is one that `createSubnodes` uses. -/
def Clamped (g : PDG Val Fn) : Prop := ∀ u p w, g.HasEdge u p w → p.Clamped g.maxParts

theorem Clamped.plain (h : g.Clamped) : g.Plain := fun u p w he ↦
  ⟨(h u p w he).1, fun hp ↦ ((h u p w he).2 hp).trans (le_max_right _ _)⟩

/-- With such labels `getDerefOpt` and `getPartOpt` find an edge with the same label. -/
theorem Clamped.hasEdge_of_follow (h : g.Clamped) (hm : g.graph.Mirrored) (he : g.HasEdge u p w)
    (hf : g.follow p u' = some w') : p.Structural ∧ g.HasEdge u' p w' := by
  have hp := h u p w he
  obtain ⟨type, i⟩ := p
  unfold follow at hf
  split at hf
  · next htype =>
      obtain rfl : type = .deref := htype
      obtain rfl : i = 0 := hp.1 rfl
      obtain ⟨e, hfind, rfl⟩ := Option.map_eq_some_iff.mp hf
      have he' := (hm.mem_outEdges_iff.mp (List.mem_of_find?_eq_some hfind)).2
      have hfound := List.find?_some hfind
      have hderef : e.property.type = .deref := of_decide_eq_true hfound
      have heq : e.property = ⟨.deref, 0⟩ :=
        congrArg₂ PDGEdge.mk hderef ((h _ _ _ he').1 hderef)
      exact ⟨Or.inl rfl, heq ▸ he'⟩
  · next htype =>
      obtain rfl : type = .part := htype
      have hle : ¬ i > g.maxParts := Nat.not_lt.mpr (hp.2 rfl)
      rw [getPartOpt, if_neg hle] at hf
      obtain ⟨e, hfind, rfl⟩ := Option.map_eq_some_iff.mp hf
      have he' := (hm.mem_outEdges_iff.mp (List.mem_of_find?_eq_some hfind)).2
      have hfound := List.find?_some hfind
      have hpart : e.property.type = .part ∧ e.property.index = i := of_decide_eq_true hfound
      have heq : e.property = ⟨.part, i⟩ := congrArg₂ PDGEdge.mk hpart.1 hpart.2
      exact ⟨Or.inr rfl, heq ▸ he'⟩
  · cases hf

/-- What a vertex with a kind leads to has a kind, which is determined by the kind of the vertex,
and its members are of a lower level. -/
structure Leveled {K : Type} (g : PDG Val Fn) (kind : ℕ → Option K) (level : Option K → ℕ) :
    Prop where
  closed : ∀ {u p w}, p.Structural → g.HasEdge u p w → kind u ≠ none → kind w ≠ none
  target : ∀ {u u' p w w'}, p.Structural → g.HasEdge u p w → g.HasEdge u' p w' →
    kind u ≠ none → kind u = kind u' → kind w = kind w'
  part : ∀ {u i w}, g.HasEdge u ⟨.part, i⟩ w → kind u ≠ none → level (kind w) < level (kind u)

variable {K : Type} {kind : ℕ → Option K} {level : Option K → ℕ}

theorem Leveled.addData (h : g.Leveled kind level) (u w : ℕ) :
    (g.addEdge u w .dataEdge).Leveled kind level := by
  have hold : ∀ {a p b}, p.Structural → (g.addEdge u w .dataEdge).HasEdge a p b →
      g.HasEdge a p b := by
    intro a p b hp he
    rcases hasEdge_addEdge.mp he with he | ⟨-, rfl, -⟩
    · exact he
    · rcases hp with hp | hp
      · cases hp
      · cases hp
  exact ⟨fun hp he ↦ h.closed hp (hold hp he),
    fun hp he he' ↦ h.target hp (hold hp he) (hold hp he'), fun he ↦ h.part (hold (Or.inr rfl) he)⟩

theorem Leveled.mergeInto [DecidableEq Fn] {a b : ℕ} (h : g.Leveled kind level)
    (hm : g.graph.Mirrored) (hab : kind a = kind b) : (g.mergeInto a b).Leveled kind level := by
  -- an edge of the merged graph comes from an edge between vertices of the same kinds
  have hold : ∀ {u p w}, (g.mergeInto a b).HasEdge u p w →
      ∃ u' w', g.HasEdge u' p w' ∧ kind u' = kind u ∧ kind w' = kind w := by
    intro u p w hnew
    obtain ⟨he | ⟨rfl, he, -⟩ | ⟨rfl, he⟩, -, -⟩ := (hasEdge_mergeInto_iff hm).mp hnew
    · exact ⟨u, w, he, rfl, rfl⟩
    · exact ⟨b, w, he, hab.symm, rfl⟩
    · exact ⟨u, b, he, rfl, hab.symm⟩
  constructor
  · intro u p w hp he hu
    obtain ⟨x, y, hxy, hx, hy⟩ := hold he
    exact hy ▸ h.closed hp hxy (hx.symm ▸ hu)
  · intro u u' p w w' hp he he' hu heq
    obtain ⟨x, y, hxy, hx, hy⟩ := hold he
    obtain ⟨x', y', hxy', hx', hy'⟩ := hold he'
    have hkind : kind x = kind x' := hx.trans (heq.trans hx'.symm)
    exact hy.symm.trans ((h.target hp hxy hxy' (hx.symm ▸ hu) hkind).trans hy')
  · intro u i w he hu
    obtain ⟨x, y, hxy, hx, hy⟩ := hold he
    rw [← hx, ← hy]
    exact h.part hxy (hx.symm ▸ hu)

end PDG

/-! ## One step -/

variable [DecidableEq Fn] {c c' : Config Val Fn} {u w : ℕ} {p : PDGEdge}

theorem FrameStep.maxParts (h : FrameStep c c') : c'.pdg.maxParts = c.pdg.maxParts := by
  cases h with
  | mergeNext h =>
    obtain hsame | ⟨a, b, -, -, -, hmerge⟩ := h.pdg_cases
    · exact congrArg PDG.maxParts hsame
    · exact (congrArg PDG.maxParts hmerge).trans PDG.maxParts_mergeInto
  | _ => rfl

theorem FrameStep.hasInstruction (h : FrameStep c c') (v : ℕ) :
    c'.pdg.hasInstruction v = c.pdg.hasInstruction v := by
  cases h with
  | addData =>
    unfold PDG.hasInstruction
    rw [PDG.node_addEdge]
  | mergeNext h =>
    obtain hsame | ⟨a, b, -, hab, -, hmerge⟩ := h.pdg_cases
    · exact congrArg (fun g ↦ g.hasInstruction v) hsame
    · exact (congrArg (fun g ↦ g.hasInstruction v) hmerge).trans
        (PDG.hasInstruction_mergeInto hab v)
  | @mark g u _ _ =>
    unfold PDG.hasInstruction
    rw [PDG.node_setNode]
    split
    · next hv => rw [hv]
    · rfl
  | _ => rfl

/-- All labels are labels of edges that were there, or of `Data` edges. -/
theorem FrameStep.label (h : FrameStep c c') (hm : c.pdg.graph.Mirrored)
    (he : c'.pdg.HasEdge u p w) : p = .dataEdge ∨ ∃ u' w', c.pdg.HasEdge u' p w' := by
  cases h with
  | addData =>
    rcases PDG.hasEdge_addEdge.mp he with he | ⟨-, rfl, -⟩
    · exact Or.inr ⟨u, w, he⟩
    · exact Or.inl rfl
  | mergeNext h =>
    obtain hsame | ⟨a, b, -, -, -, hmerge⟩ := h.pdg_cases
    · rw [hsame] at he
      exact Or.inr ⟨u, w, he⟩
    · rw [hmerge] at he
      obtain ⟨he | ⟨-, he, -⟩ | ⟨-, he⟩, -, -⟩ := (PDG.hasEdge_mergeInto_iff hm).mp he
      · exact Or.inr ⟨u, w, he⟩
      · exact Or.inr ⟨b, w, he⟩
      · exact Or.inr ⟨u, b, he⟩
  | mark => exact Or.inr ⟨u, w, (PDG.hasEdge_setNode ..).mp he⟩
  | _ => exact Or.inr ⟨u, w, he⟩

theorem FrameStep.clamped (h : FrameStep c c') (hm : c.pdg.graph.Mirrored) (hc : c.pdg.Clamped) :
    c'.pdg.Clamped := by
  intro u p w he
  rw [h.maxParts]
  rcases h.label hm he with rfl | ⟨u', w', he'⟩
  · exact ⟨fun _ ↦ rfl, fun hpart ↦ PDGEdgeType.noConfusion hpart⟩
  · exact hc u' p w' he'

theorem PDG.freeVertices_mergeInto (g : PDG Val Fn) (a b : ℕ) :
    (g.mergeInto a b).graph.freeVertices = b :: g.graph.freeVertices :=
  (BaseGraph.freeVertices_removeVertex b).trans
    (congrArg (b :: ·) (PDG.sameNodes_addEdges _).freeVertices)

theorem FrameStep.freeInside (h : FrameStep c c') (hc : c.InRange)
    (hfree : c.pdg.graph.FreeInside) : c'.pdg.graph.FreeInside := by
  cases h with
  | addData =>
    intro v hv
    rw [(PDG.sameIndex_addEdge ..).free] at hv
    rw [(PDG.sameIndex_addEdge ..).capacity]
    exact hfree v hv
  | @mergeNext g queue _ _ _ h =>
    obtain ⟨x, y, rest, hq, rfl | ⟨a, b, -, hsel, -, -, rfl⟩⟩ := h.cases
    · exact hfree
    · obtain rfl : queue = (x, y) :: rest := hq
      obtain ⟨hqueue, hmap⟩ := hc.frames _ List.mem_cons_self
      have hxy := hqueue (x, y) List.mem_cons_self
      have hb := (PDG.selectPair_mem hmap hxy.1 hxy.2 hsel).2
      intro v hv
      rw [PDG.freeVertices_mergeInto] at hv
      rw [PDG.capacity_mergeInto]
      rcases List.mem_cons.mp hv with rfl | hv
      · exact hb
      · exact hfree v hv
  | _ => exact hfree

/-! ## Replacements -/

/-- In each merge that is going on, replacements have a lower rank. -/
def Config.Ranked (c : Config Val Fn) : Prop :=
  ∀ queue oldToNew, .uniteLoop queue oldToNew ∈ c.stack → c.pdg.Ranked oldToNew

omit [DecidableEq Fn] in
theorem PDG.not_mem_subnodeCalls_uniteLoop {g : PDG Val Fn} {v1 v2 : ℕ} {k : ℤ} {e : Edge PDGEdge}
    {queue : List (ℕ × ℕ)} {oldToNew : ℕ → Option ℕ} :
    Frame.uniteLoop queue oldToNew ∉ g.subnodeCalls v1 v2 k e := by
  intro h
  obtain ⟨v2s, -, ⟨-, -, h⟩ | ⟨-, -, h⟩ | ⟨-, h⟩⟩ := PDG.mem_subnodeCalls h
  all_goals cases h

omit [DecidableEq Fn] in
theorem PDG.not_mem_markCalls_uniteLoop {g : PDG Val Fn} {v : ℕ} {onPart : ℕ → Frame}
    {queue : List (ℕ × ℕ)} {oldToNew : ℕ → Option ℕ}
    (honPart : ∀ w, onPart w ≠ .uniteLoop queue oldToNew) :
    Frame.uniteLoop queue oldToNew ∉ g.markCalls v onPart := by
  intro h
  obtain ⟨e, -, ⟨-, h⟩ | ⟨-, h⟩⟩ := PDG.exists_of_mem_markCalls h
  · cases h
  · exact honPart e.target h.symm

theorem FrameStep.ranked (h : FrameStep c c') (hc : c.Ranked) : c'.Ranked := by
  have hkeep : ∀ {oldToNew}, c.pdg.Ranked oldToNew → c'.pdg.Ranked oldToNew := by
    intro oldToNew hr x y hxy
    have hrank : ∀ v, c'.pdg.rank v = c.pdg.rank v := fun v ↦ by
      unfold PDG.rank
      rw [h.hasInstruction]
    rw [hrank, hrank]
    exact hr x y hxy
  intro queue oldToNew hmem
  cases h with
  | merge =>
    rcases List.mem_cons.mp hmem with heq | hmem
    · cases heq
      exact fun x y hxy ↦ absurd hxy.symm (Option.some_ne_none y)
    · exact hc _ _ (List.mem_cons_of_mem _ hmem)
  | mergeNext hs =>
    rcases List.mem_cons.mp hmem with heq | hmem
    · cases heq
      exact hs.ranked (hc _ _ List.mem_cons_self)
    · exact hkeep (hc _ _ (List.mem_cons_of_mem _ hmem))
  | loopNext =>
    rcases List.mem_append.mp hmem with hmem | hmem
    · exact absurd hmem PDG.not_mem_subnodeCalls_uniteLoop
    · rcases List.mem_cons.mp hmem with heq | hmem
      · cases heq
      · exact hc _ _ (List.mem_cons_of_mem _ hmem)
  | mark =>
    rcases List.mem_append.mp hmem with hmem | hmem
    · exact absurd hmem (PDG.not_mem_markCalls_uniteLoop fun _ heq ↦ Frame.noConfusion heq)
    · exact hkeep (hc _ _ (List.mem_cons_of_mem _ hmem))
  | markPointer =>
    rcases List.mem_append.mp hmem with hmem | hmem
    · exact absurd hmem (PDG.not_mem_markCalls_uniteLoop fun _ heq ↦ Frame.noConfusion heq)
    · exact hc _ _ (List.mem_cons_of_mem _ hmem)
  | addData =>
    rcases List.mem_cons.mp hmem with heq | hmem
    · cases heq
    · exact hkeep (hc _ _ (List.mem_cons_of_mem _ hmem))
  | link =>
    simp only [List.mem_cons, reduceCtorEq, false_or] at hmem
    exact hkeep (hc _ _ (List.mem_cons_of_mem _ hmem))
  | _ => exact hkeep (hc _ _ (List.mem_cons_of_mem _ hmem))

/-! ## Calls for vertices of the same kind -/

variable {K : Type} {kind : ℕ → Option K} {level : Option K → ℕ}

/-- The vertices have a kind, and it is the same. -/
def SameKind (kind : ℕ → Option K) (v1 v2 : ℕ) : Prop := kind v1 ≠ none ∧ kind v1 = kind v2

theorem SameKind.symm {v1 v2 : ℕ} (h : SameKind kind v1 v2) : SameKind kind v2 v1 :=
  ⟨h.2 ▸ h.1, h.2.symm⟩

/-- The call propagates between vertices of the same kind. -/
def Frame.Even (kind : ℕ → Option K) : Frame → Prop
  | .addSubnodeEdges v1 v2 _ => SameKind kind v1 v2
  | .addLoop v1 v2 _ _ => SameKind kind v1 v2
  | .uniteSubnodes v1 v2 => SameKind kind v1 v2
  | .uniteLoop queue oldToNew =>
    (∀ p ∈ queue, SameKind kind p.1 p.2) ∧ ∀ x y, oldToNew x = some y → kind x = kind y
  | .markAsShared _ => False
  | .markAsPointerToShared _ => False

/-- All calls propagate between vertices of the same kind. -/
structure Config.Leveled (c : Config Val Fn) (kind : ℕ → Option K) (level : Option K → ℕ) :
    Prop where
  range : c.InRange
  clamped : c.pdg.Clamped
  ranked : c.Ranked
  pdg : c.pdg.Leveled kind level
  frames : ∀ f ∈ c.stack, f.Even kind

theorem kind_eq_of_leads {oldToNew : ℕ → Option ℕ}
    (h : ∀ x y, oldToNew x = some y → kind x = kind y) {x y : ℕ} (hlead : Leads oldToNew x y) :
    kind x = kind y := by
  induction hlead with
  | refl => rfl
  | tail _ hstep ih => exact ih.trans (h _ _ hstep)

namespace PDG

variable {g : PDG Val Fn} {f : Frame} {e : Edge PDGEdge} {v1 v2 : ℕ} {k : ℤ}

omit [DecidableEq Fn] in
theorem Leveled.follow (h : g.Leveled kind level) (hm : g.graph.Mirrored) (hclamped : g.Clamped)
    (hkind : SameKind kind v1 v2) (he : e ∈ g.graph.outEdges v1)
    (hw : g.follow e.property v2 = some w) : SameKind kind e.target w := by
  have he' := (hm.mem_outEdges_iff.mp he).2
  obtain ⟨hp, hedge⟩ := hclamped.hasEdge_of_follow hm he' hw
  exact ⟨h.closed hp he' hkind.1, h.target hp he' hedge hkind.1 hkind.2⟩

omit [DecidableEq Fn] in
theorem Leveled.subnodeCalls (h : g.Leveled kind level) (hm : g.graph.Mirrored)
    (hclamped : g.Clamped) (hkind : SameKind kind v1 v2) (he : e ∈ g.graph.outEdges v1)
    (hf : f ∈ g.subnodeCalls v1 v2 k e) : f.Even kind := by
  obtain ⟨v2s, hv2s, ⟨-, -, rfl⟩ | ⟨-, -, rfl⟩ | ⟨-, rfl⟩⟩ := mem_subnodeCalls hf
  all_goals exact h.follow hm hclamped hkind he hv2s

omit [DecidableEq Fn] in
theorem Leveled.matchedPairs {a b : ℕ} (h : g.Leveled kind level) (hm : g.graph.Mirrored)
    (hclamped : g.Clamped) (hkind : SameKind kind a b) {x : ℕ × ℕ} (hx : x ∈ g.matchedPairs a b) :
    SameKind kind x.1 x.2 := by
  obtain ⟨q, hedge, hmatch⟩ := (mem_matchedPairs hm).mp hx
  obtain ⟨hq, hedge'⟩ := matchOf_eq_some hm hclamped.plain (hclamped.plain _ _ _ hedge) hmatch
  exact ⟨h.closed hq hedge' hkind.1, h.target hq hedge' hedge hkind.1 hkind.2⟩

end PDG

/-- One iteration of the loop of `uniteSubnodes`. -/
theorem UniteStep.leveled {g : PDG Val Fn} {queue : List (ℕ × ℕ)} {oldToNew : ℕ → Option ℕ}
    {s : UniteState Val Fn} (h : UniteStep ⟨g, queue, oldToNew⟩ s) (hr : g.Ranked oldToNew)
    (hm : g.graph.Mirrored) (hclamped : g.Clamped) (hg : g.Leveled kind level)
    (hf : (Frame.uniteLoop queue oldToNew).Even kind) :
    s.pdg.Leveled kind level ∧ (Frame.uniteLoop s.queue s.oldToNew).Even kind := by
  obtain ⟨hqueue, hmap⟩ := hf
  obtain ⟨x, y, rest, hq, ⟨a, -, -, rfl⟩ | ⟨a, b, -, -, -, -, -, hlead, rfl⟩⟩ := h.inv hr
  · obtain rfl : queue = (x, y) :: rest := hq
    exact ⟨hg, fun p hp ↦ hqueue p (List.mem_cons_of_mem _ hp), hmap⟩
  · obtain rfl : queue = (x, y) :: rest := hq
    have hxy : SameKind kind x y := hqueue (x, y) List.mem_cons_self
    have hab : SameKind kind a b := by
      have hends : ∀ {x y}, SameKind kind x y → kind x = kind a → kind y = kind b →
          SameKind kind a b := fun hxy hx hy ↦ ⟨hx ▸ hxy.1, hx.symm.trans (hxy.2.trans hy)⟩
      rcases hlead with ⟨hx, hy⟩ | ⟨hx, hy⟩
      · exact hends hxy (kind_eq_of_leads hmap hx) (kind_eq_of_leads hmap hy)
      · exact hends hxy.symm (kind_eq_of_leads hmap hy) (kind_eq_of_leads hmap hx)
    refine ⟨hg.mergeInto hm hab.2, fun p hp ↦ ?_, fun u v huv ↦ ?_⟩
    · rcases List.mem_append.mp hp with hp | hp
      · exact hqueue p (List.mem_cons_of_mem _ hp)
      · exact hg.matchedPairs hm hclamped hab hp
    · change Function.update oldToNew b (some a) u = some v at huv
      by_cases hu : u = b
      · rw [hu, Function.update_self, Option.some.injEq] at huv
        rw [hu, ← huv]
        exact hab.2.symm
      · rw [Function.update_of_ne hu] at huv
        exact hmap u v huv

/-- Calls between vertices of the same kind lead to calls between vertices of the same kind. -/
theorem FrameStep.leveled (h : FrameStep c c') (hc : c.Leveled kind level) :
    c'.Leveled kind level := by
  have hm := hc.range.pdg.mirrored
  suffices hnew : c'.pdg.Leveled kind level ∧ ∀ f ∈ c'.stack, f.Even kind from
    ⟨h.inRange hc.range, h.clamped hm hc.clamped, h.ranked hc.ranked, hnew.1, hnew.2⟩
  obtain ⟨-, hclamped, hranked, hg, hframes⟩ := hc
  cases h with
  | addData =>
    obtain ⟨hf, hstack⟩ := Config.forall_stack hframes
    exact ⟨hg.addData _ _, List.forall_mem_cons.mpr ⟨hf, hstack⟩⟩
  | loopNext he =>
    obtain ⟨hf, hstack⟩ := Config.forall_stack hframes
    exact ⟨hg, List.forall_mem_append.mpr
      ⟨fun f hcall ↦ hg.subnodeCalls hm hclamped hf (List.mem_of_getElem? he) hcall,
        List.forall_mem_cons.mpr ⟨hf, hstack⟩⟩⟩
  | merge =>
    obtain ⟨hf, hstack⟩ := Config.forall_stack hframes
    have hnone : ∀ x y : ℕ, (none : Option ℕ) = some y → kind x = kind y := fun _ y h ↦
      absurd h.symm (Option.some_ne_none y)
    exact ⟨hg, List.forall_mem_cons.mpr ⟨⟨List.forall_mem_singleton.mpr hf, hnone⟩, hstack⟩⟩
  | @link g v1 v2 stack _ _ =>
    obtain ⟨hf, hstack⟩ := Config.forall_stack hframes
    have hpair : SameKind kind (sortedPair v1 v2).1 (sortedPair v1 v2).2 :=
      sortedPair_of_symm (fun _ _ h ↦ h.symm) hf
    exact ⟨⟨hg.closed, hg.target, hg.part⟩, List.forall_mem_cons.mpr ⟨hpair,
      List.forall_mem_cons.mpr ⟨hpair.symm, hstack⟩⟩⟩
  | mergeNext hs =>
    obtain ⟨hf, hstack⟩ := Config.forall_stack hframes
    obtain ⟨hg', hf'⟩ := hs.leveled (hranked _ _ List.mem_cons_self) hm hclamped hg hf
    exact ⟨hg', List.forall_mem_cons.mpr ⟨hf', hstack⟩⟩
  | marked => exact absurd (Config.forall_stack hframes).1 not_false
  | mark => exact absurd (Config.forall_stack hframes).1 not_false
  | markPointer => exact absurd (Config.forall_stack hframes).1 not_false
  | _ => exact ⟨hg, (Config.forall_stack hframes).2⟩

/-! ## The graphs that are built -/

/-- The graphs that are reached by adding vertices and calling `createSubnodes` and
`uniteSubnodes` for vertices. -/
inductive StructureGraph (llvm : Llvm Val Fn) : PDG Val Fn → Prop
  | init (maxParts : ℕ) (subnodeLimit : ℤ) : StructureGraph llvm (.init maxParts subnodeLimit)
  | pdgAddVertex {g : PDG Val Fn} (h : StructureGraph llvm g) (prop : PDGNode Val Fn) :
      StructureGraph llvm (g.pdgAddVertex prop).2
  | createSubnodes {g : PDG Val Fn} (h : StructureGraph llvm g) {v : ℕ} (hv : g.Live v)
      (limit : ℤ) : StructureGraph llvm (g.createSubnodes llvm v limit)
  | uniteSubnodes {g g' : PDG Val Fn} (h : StructureGraph llvm g) {v1 v2 : ℕ} (hv1 : g.Live v1)
      (hv2 : g.Live v2) (hret : Returns g (.uniteSubnodes v1 v2) g') : StructureGraph llvm g'

/-- The edges and the free ids are in range, and the labels are clamped. -/
structure PDG.Tidy (g : PDG Val Fn) : Prop where
  range : g.Linked
  clamped : g.Clamped
  free : g.graph.FreeInside

namespace PDG

variable {g g' : PDG Val Fn}

omit [DecidableEq Fn] in
theorem tidy_init (maxParts : ℕ) (subnodeLimit : ℤ) :
    (init maxParts subnodeLimit : PDG Val Fn).Tidy where
  range := linked_init maxParts subnodeLimit
  clamped _ _ _ he := absurd he (not_hasEdge_init maxParts subnodeLimit)
  free _ hv := absurd hv List.not_mem_nil

theorem Tidy.pdgAddVertex (h : g.Tidy) (prop : PDGNode Val Fn) :
    (g.pdgAddVertex prop).2.Tidy where
  range := h.range.pdgAddVertex prop
  clamped u p w he := h.clamped u p w (h.range.hasEdge_pdgAddVertex.mp he)
  free := (h.free.addVertex prop).1

omit [DecidableEq Fn] in
theorem Tidy.addEdge (h : g.Tidy) (hu : u < g.graph.capacity) (hw : w < g.graph.capacity)
    (hp : p.Clamped g.maxParts) : (g.addEdge u w p).Tidy where
  range := h.range.addEdge hu hw p
  clamped a q b he := by
    rcases hasEdge_addEdge.mp he with he | ⟨-, rfl, -⟩
    · exact h.clamped a q b he
    · exact hp
  free v hv := by
    rw [(sameIndex_addEdge g u w p).free] at hv
    rw [(sameIndex_addEdge g u w p).capacity]
    exact h.free v hv

/-- The vertices that `createSubnodes` handles are inside. -/
theorem kept_tidy : @Kept Val Fn _ Tidy fun g v ↦ v < g.graph.capacity where
  add g prop hg := ⟨hg.pdgAddVertex prop, (hg.free.addVertex prop).2, fun _ hv ↦
    hv.trans_le (BaseGraph.capacity_le_addVertex g.graph prop)⟩
  edge g u w p hg hu hw hp := by
    refine ⟨hg.addEdge hu hw hp, fun v hv ↦ ?_⟩
    rw [(sameIndex_addEdge g u w p).capacity]
    exact hv
  part _ _ i _ hg hw := hg.range.follow_lt (p := ⟨.part, i⟩) hw

theorem Tidy.returns (h : g.Tidy) {f : Frame} (hret : Returns g f g')
    (hf : f.InRange g.graph.capacity) : g'.Tidy := by
  have hinv := invariant_of_reaches
    (I := fun c : Config Val Fn ↦ c.InRange ∧ c.pdg.Clamped ∧ c.pdg.graph.FreeInside)
    (fun c c' hc hstep ↦
      let hframe := frameStep_of_machineStep hstep
      ⟨hframe.inRange hc.1, hframe.clamped hc.1.pdg.mirrored hc.2.1,
        hframe.freeInside hc.1 hc.2.2⟩)
    hret ⟨⟨h.range, List.forall_mem_singleton.mpr hf⟩, h.clamped, h.free⟩
  exact ⟨hinv.1.pdg, hinv.2.1, hinv.2.2⟩

end PDG

theorem StructureGraph.tidy {llvm : Llvm Val Fn} {g : PDG Val Fn} (h : StructureGraph llvm g) :
    g.Tidy := by
  induction h with
  | init maxParts subnodeLimit => exact PDG.tidy_init maxParts subnodeLimit
  | pdgAddVertex _ prop ih => exact ih.pdgAddVertex prop
  | createSubnodes _ hv limit ih => exact PDG.kept_tidy.createSubnodes llvm ih hv.1 limit
  | uniteSubnodes _ hv1 hv2 hret ih => exact ih.returns hret ⟨hv1.1, hv2.1⟩

end Cali.Passes
