import Cali.Passes.Subnodes

/-!
# Sharedness is closed under pointing and containment

If a value is shared, so is everything it points to or contains.  `markAsShared`
relies on that: it stops at a vertex that is marked already.  `uniteSubnodes` copies
the mark `ipcsink` between the two vertices it merges, but it does not mark what only
the other one points to or contains.  So sharedness stays closed exactly as long as
every merge of a shared and an unshared vertex finds the subnodes of both shared, or
goes on to unite them with shared ones.
-/

namespace Cali.Passes

open Cali.Graph Cali.Lib

variable {Val Fn : Type}

namespace PDG

/-- The vertex is marked as shared. -/
def Shared (g : PDG Val Fn) (v : ℕ) : Prop := (g.node v).ipcsink = true

instance (g : PDG Val Fn) (v : ℕ) : Decidable (g.Shared v) :=
  inferInstanceAs (Decidable (_ = true))

/-- What a shared vertex points to or contains is shared. -/
def SharedClosed (g : PDG Val Fn) : Prop :=
  ∀ u p w, p.Structural → g.HasEdge u p w → g.Shared u → g.Shared w

end PDG

/-- `w` is shared, or the pairs that are pending when `b` has been merged into `a` will
unite it with a shared vertex. -/
def UniteState.WillBeShared (s : UniteState Val Fn) (a b w : ℕ) : Prop :=
  ∃ z, s.pdg.Shared z ∧ Joined s.oldToNew (s.queue ++ s.pdg.matchedPairs a b) w z

/-- The merge of the next iteration keeps a vertex that is in the graph; if only one of
the two is shared, then the subnodes of both are or will be shared. -/
def UniteState.KeepsShared (s : UniteState Val Fn) : Prop :=
  ∀ a b, s.nextMerge = some (a, b) → s.oldToNew a = none ∧
    (¬ (s.pdg.Shared a ↔ s.pdg.Shared b) →
      ∀ v p w, v = a ∨ v = b → p.Structural → s.pdg.HasEdge v p w →
        w = a ∨ w = b ∨ s.WillBeShared a b w)

/-- Before a step the next merge, if there is one, keeps sharedness closed. -/
def Config.KeepsShared (c : Config Val Fn) (_ : MachineEvent) : Prop :=
  ∀ queue oldToNew stack, c.stack = .uniteLoop queue oldToNew :: stack →
    UniteState.KeepsShared ⟨c.pdg, queue, oldToNew⟩

/-! ## The loop of `uniteSubnodes` -/

/-- Sharedness is closed up to the pairs that are still to be united. -/
structure SharedLoop (s : UniteState Val Fn) (ρ : ℕ → ℕ) : Prop where
  mirrored : s.pdg.graph.Mirrored
  ranked : s.pdg.Ranked s.oldToNew
  isRep : ∀ x, IsRep s.oldToNew x (ρ x)
  live : ∀ u p w, s.pdg.HasEdge u p w → s.oldToNew w = none
  present : ∀ z, s.pdg.Shared z → s.oldToNew z = none
  closed : ∀ u p w, p.Structural → s.pdg.HasEdge u p w → s.pdg.Shared u →
    ∃ z, s.pdg.Shared z ∧ Joined s.oldToNew s.queue w z

variable {g : PDG Val Fn} {s s' : UniteState Val Fn} {ρ : ℕ → ℕ} {v1 v2 : ℕ}

theorem sharedLoop_start (hm : g.graph.Mirrored) (hg : g.SharedClosed) :
    SharedLoop (uniteStart g v1 v2) id where
  mirrored := hm
  ranked := nofun
  isRep _ := isRep_self rfl
  live _ _ _ _ := rfl
  present _ _ := rfl
  closed u p w hp he hu := ⟨w, hg u p w hp he hu, .refl _⟩

theorem SharedLoop.sharedClosed (h : SharedLoop s ρ) (hq : s.queue = []) :
    s.pdg.SharedClosed := by
  intro u p w hp he hu
  obtain ⟨z, hz, hj⟩ := h.closed u p w hp he hu
  rw [hq] at hj
  have hw : ρ w = w := (h.isRep w).eq_of_root (h.live u p w he)
  have hzz : ρ z = z := (h.isRep z).eq_of_root (h.present z hz)
  have heq : w = z := hw.symm.trans ((hj.eq_of_nil h.isRep).trans hzz)
  exact heq ▸ hz

variable [DecidableEq Fn]

theorem PDG.shared_mergeInto {a b : ℕ} (hab : a ≠ b) {v : ℕ} :
    (g.mergeInto a b).Shared v ↔ v ≠ b ∧ (g.Shared v ∨ v = a ∧ g.Shared b) := by
  unfold PDG.Shared
  rw [PDG.node_mergeInto hab]
  by_cases hvb : v = b
  · simp [hvb]
  · by_cases hva : v = a
    · simp [hva, hab, joinAttributes_eq]
    · simp [hva, hvb]

theorem PDG.exists_hasEdge_of_mergeInto {a b u w : ℕ} {p : PDGEdge} (hm : g.graph.Mirrored)
    (h : (g.mergeInto a b).HasEdge u p w) :
    ∃ v t, g.HasEdge v p t ∧ (v = u ∨ u = a ∧ v = b) ∧ (t = w ∨ w = a ∧ t = b) := by
  obtain ⟨he | ⟨rfl, he, -⟩ | ⟨rfl, he⟩, -, -⟩ := (PDG.hasEdge_mergeInto_iff hm).mp h
  · exact ⟨u, w, he, Or.inl rfl, Or.inl rfl⟩
  · exact ⟨b, w, he, Or.inr ⟨rfl, rfl⟩, Or.inl rfl⟩
  · exact ⟨u, b, he, Or.inl rfl, Or.inr ⟨rfl, rfl⟩⟩

omit [DecidableEq Fn] in
/-- The subnodes of a vertex that is shared after a merge are or will be shared. -/
theorem SharedLoop.subnode {a b v t : ℕ} {p : PDGEdge} (h : SharedLoop s ρ) (hok : s.KeepsShared)
    (hnext : s.nextMerge = some (a, b)) (hp : p.Structural) (he : s.pdg.HasEdge v p t)
    (hv : s.pdg.Shared v ∨ (v = a ∨ v = b) ∧ (s.pdg.Shared a ∨ s.pdg.Shared b)) :
    s.WillBeShared a b t ∨ (t = a ∨ t = b) ∧ (s.pdg.Shared a ∨ s.pdg.Shared b) := by
  by_cases hvs : s.pdg.Shared v
  · obtain ⟨z, hz, hj⟩ := h.closed v p t hp he hvs
    exact Or.inl ⟨z, hz, hj.mono (fun q hq ↦ .rel _ _ (Or.inl (List.mem_append_left _ hq)))
      fun _ _ ↦ id⟩
  · obtain ⟨hvab, hshared⟩ := hv.resolve_left hvs
    -- one of the two is shared and the other one, `v`, is not
    have hone : ¬ (s.pdg.Shared a ↔ s.pdg.Shared b) := by
      intro hiff
      have hboth : s.pdg.Shared a ∧ s.pdg.Shared b :=
        hshared.elim (fun ha ↦ ⟨ha, hiff.mp ha⟩) fun hb ↦ ⟨hiff.mpr hb, hb⟩
      rcases hvab with rfl | rfl
      · exact hvs hboth.1
      · exact hvs hboth.2
    rcases (hok a b hnext).2 hone v p t hvab hp he with hta | htb | hwill
    · exact Or.inr ⟨Or.inl hta, hshared⟩
    · exact Or.inr ⟨Or.inr htb, hshared⟩
    · exact Or.inl hwill

theorem UniteState.WillBeShared.merge {a b x y w : ℕ} {queue : List (ℕ × ℕ)}
    (hw : s.WillBeShared a b w) (hq : s.queue = (x, y) :: queue)
    (hρ : ∀ x, IsRep s.oldToNew x (ρ x)) (hab : a ≠ b) (ha : s.oldToNew a = none)
    (hb : s.oldToNew b = none) (hxy : ρ x = a ∧ ρ y = b ∨ ρ x = b ∧ ρ y = a) :
    ∃ z, (s.pdg.mergeInto a b).Shared z ∧
      Joined (Function.update s.oldToNew b (some a)) (queue ++ s.pdg.matchedPairs a b) w z := by
  obtain ⟨z, hz, hj⟩ := hw
  rw [hq, List.cons_append] at hj
  have hj := hj.merge hρ hab ha hb hxy fun _ ↦ id
  by_cases hzb : z = b
  · subst hzb
    exact ⟨a, (PDG.shared_mergeInto hab).mpr ⟨hab, Or.inr ⟨rfl, hz⟩⟩, hj.trans _ _ _ joined_update⟩
  · exact ⟨z, (PDG.shared_mergeInto hab).mpr ⟨hzb, Or.inl hz⟩, hj⟩

/-- **One iteration** keeps sharedness closed up to the pending pairs. -/
theorem SharedLoop.step (h : SharedLoop s ρ) (hok : s.KeepsShared) (hstep : UniteStep s s') :
    ∃ ρ', SharedLoop s' ρ' := by
  have hr' := hstep.ranked h.ranked
  obtain ⟨x, y, queue, hq, hcase⟩ := hstep.inv h.ranked
  rcases hcase with ⟨a, hx, hy, rfl⟩ | ⟨a, b, hnext, hab, hb, -, -, hlead, rfl⟩
  · have hxy : ρ x = ρ y := ((h.isRep x).of_leads hx).unique ((h.isRep y).of_leads hy)
    refine ⟨ρ, h.mirrored, hr', h.isRep, h.live, h.present, fun u p w hp he hu ↦ ?_⟩
    obtain ⟨z, hz, hj⟩ := h.closed u p w hp he hu
    rw [hq] at hj
    exact ⟨z, hz, hj.skip h.isRep hxy⟩
  · have ha : s.oldToNew a = none := (hok a b hnext).1
    have hxy := IsRep.eq_or_eq h.isRep ha hb hlead
    refine ⟨fun z ↦ if ρ z = b then a else ρ z, PDG.mirrored_mergeInto h.mirrored a b, hr',
      fun z ↦ (h.isRep z).update ha hb hab, fun u p w he ↦ ?_, fun z hz ↦ ?_,
      fun u p w hp he hu ↦ ?_⟩
    · have hwb : w ≠ b := ((PDG.hasEdge_mergeInto_iff h.mirrored).mp he).2.2
      refine (Function.update_of_ne hwb ..).trans ?_
      obtain ⟨v, t, hvt, -, rfl | ⟨rfl, -⟩⟩ := PDG.exists_hasEdge_of_mergeInto h.mirrored he
      · exact h.live v p t hvt
      · exact ha
    · obtain ⟨hzb, hz | ⟨rfl, -⟩⟩ := (PDG.shared_mergeInto hab).mp hz
      · exact (Function.update_of_ne hzb ..).trans (h.present z hz)
      · exact (Function.update_of_ne hzb ..).trans ha
    · obtain ⟨v, t, hvt, hv, ht⟩ := PDG.exists_hasEdge_of_mergeInto h.mirrored he
      have hshared : s.pdg.Shared v ∨ (v = a ∨ v = b) ∧ (s.pdg.Shared a ∨ s.pdg.Shared b) := by
        obtain ⟨-, hus⟩ := (PDG.shared_mergeInto hab).mp hu
        rcases hv with rfl | ⟨rfl, rfl⟩
        · exact hus.imp_right fun ⟨hva, hb'⟩ ↦ ⟨Or.inl hva, Or.inr hb'⟩
        · exact Or.inr ⟨Or.inr rfl, hus.imp_right And.right⟩
      have hjwt : Joined (Function.update s.oldToNew b (some a))
          (queue ++ s.pdg.matchedPairs a b) w t := by
        rcases ht with rfl | ⟨rfl, rfl⟩
        · exact .refl _
        · exact joined_update.symm
      rcases h.subnode hok hnext hp hvt hshared with hwill | ⟨htab, hsh⟩
      · obtain ⟨z, hz, hj⟩ := hwill.merge hq h.isRep hab ha hb hxy
        exact ⟨z, hz, hjwt.trans _ _ _ hj⟩
      · refine ⟨a, (PDG.shared_mergeInto hab).mpr ⟨hab, hsh.imp_right fun hb' ↦ ⟨rfl, hb'⟩⟩,
          hjwt.trans _ _ _ ?_⟩
        rcases htab with rfl | rfl
        · exact .refl _
        · exact joined_update

/-! ## The calls -/

/-- The frames of `markAsShared` and `markAsPointerToShared`. -/
def Frame.Marks : Frame → Prop
  | .markAsShared _ => True
  | .markAsPointerToShared _ => True
  | _ => False

/-- The frames of `addSubnodeEdges`, and of `uniteSubnodes` before its loop. -/
def Frame.Flows : Frame → Prop
  | .addSubnodeEdges .. => True
  | .addLoop .. => True
  | .uniteSubnodes .. => True
  | _ => False

/-- What holds while calls are going on.  Marking and uniting are never interleaved:
while a vertex is marked, sharedness is closed up to the calls of `markAsShared` that
are still to come, and while vertices are united, up to the pending pairs. -/
inductive SharedInv : Config Val Fn → Prop
  | marking {g : PDG Val Fn} {stack : List Frame} (hstack : ∀ f ∈ stack, f.Marks)
      (hm : g.graph.Mirrored)
      (hclosed : ∀ u p w, p.Structural → g.HasEdge u p w → g.Shared u →
        g.Shared w ∨ .markAsShared w ∈ stack) : SharedInv ⟨g, stack⟩
  | flowing {g : PDG Val Fn} {stack : List Frame} (hstack : ∀ f ∈ stack, f.Flows)
      (hm : g.graph.Mirrored) (hclosed : g.SharedClosed) : SharedInv ⟨g, stack⟩
  | uniting {g : PDG Val Fn} {queue : List (ℕ × ℕ)} {oldToNew : ℕ → Option ℕ} {stack : List Frame}
      {ρ : ℕ → ℕ} (hstack : ∀ f ∈ stack, f.Flows) (hloop : SharedLoop ⟨g, queue, oldToNew⟩ ρ) :
      SharedInv ⟨g, .uniteLoop queue oldToNew :: stack⟩

omit [DecidableEq Fn] in
theorem SharedInv.sharedClosed {c : Config Val Fn} (h : SharedInv c) (hc : c.stack = []) :
    c.pdg.graph.Mirrored ∧ c.pdg.SharedClosed := by
  cases h with
  | marking _ hm hclosed =>
    cases hc
    exact ⟨hm, fun u p w hp he hu ↦ (hclosed u p w hp he hu).resolve_right (List.not_mem_nil)⟩
  | flowing _ hm hclosed => exact ⟨hm, hclosed⟩
  | uniting => cases hc

omit [DecidableEq Fn] in
theorem sharedInv_call {f : Frame} (hf : f.IsCall) (hm : g.graph.Mirrored)
    (hg : g.SharedClosed) : SharedInv ⟨g, [f]⟩ := by
  have hclosed : ∀ u p w, p.Structural → g.HasEdge u p w → g.Shared u →
      g.Shared w ∨ Frame.markAsShared w ∈ [f] := fun u p w hp he hu ↦ Or.inl (hg u p w hp he hu)
  cases f with
  | addSubnodeEdges => exact .flowing (List.forall_mem_singleton.mpr trivial) hm hg
  | uniteSubnodes => exact .flowing (List.forall_mem_singleton.mpr trivial) hm hg
  | markAsShared => exact .marking (List.forall_mem_singleton.mpr trivial) hm hclosed
  | markAsPointerToShared => exact .marking (List.forall_mem_singleton.mpr trivial) hm hclosed
  | addLoop => exact hf.elim
  | uniteLoop => exact hf.elim

omit [DecidableEq Fn] in
theorem PDG.flows_of_mem_subnodeCalls {k : ℤ} {e : Edge PDGEdge} :
    ∀ f ∈ g.subnodeCalls v1 v2 k e, f.Flows := by
  intro f hf
  obtain ⟨v2s, -, ⟨-, -, rfl⟩ | ⟨-, -, rfl⟩ | ⟨-, rfl⟩⟩ := PDG.mem_subnodeCalls hf
  all_goals trivial

omit [DecidableEq Fn] in
theorem PDG.marks_of_mem_markCalls {v : ℕ} {onPart : ℕ → Frame} (honPart : ∀ w, (onPart w).Marks) :
    ∀ f ∈ g.markCalls v onPart, f.Marks := by
  intro f hf
  obtain ⟨e, -, ⟨-, rfl⟩ | ⟨-, rfl⟩⟩ := PDG.exists_of_mem_markCalls hf
  · trivial
  · exact honPart _

omit [DecidableEq Fn] in
/-- A `Data` edge does not matter. -/
theorem PDG.SharedClosed.addEdge (hg : g.SharedClosed) :
    (g.addEdge v1 v2 .dataEdge).SharedClosed := by
  intro u p w hp he hu
  simp only [PDG.Shared, PDG.node_addEdge] at hu ⊢
  rcases PDG.hasEdge_addEdge.mp he with he | ⟨-, rfl, -⟩
  · exact hg u p w hp he hu
  · rcases hp with hp | hp <;> cases hp

/-- A step of `addSubnodeEdges`, or of `uniteSubnodes` before its loop. -/
theorem sharedInv_flowing_step {c c' : Config Val Fn} (hstack : ∀ f ∈ c.stack, f.Flows)
    (hm : c.pdg.graph.Mirrored) (hg : c.pdg.SharedClosed) (h : FrameStep c c') : SharedInv c' := by
  cases h with
  | addData =>
    exact .flowing (List.forall_mem_cons.mpr ⟨trivial, (Config.forall_stack hstack).2⟩)
      (hm.addEdge ..) hg.addEdge
  | loopNext =>
    exact .flowing (List.forall_mem_append.mpr ⟨PDG.flows_of_mem_subnodeCalls,
      List.forall_mem_cons.mpr ⟨trivial, (Config.forall_stack hstack).2⟩⟩) hm hg
  | merge => exact .uniting (Config.forall_stack hstack).2 (sharedLoop_start hm hg)
  | link =>
    exact .flowing (List.forall_mem_cons.mpr ⟨trivial,
      List.forall_mem_cons.mpr ⟨trivial, (Config.forall_stack hstack).2⟩⟩) hm hg
  | mergeNext => exact (hstack _ List.mem_cons_self).elim
  | mark => exact (hstack _ List.mem_cons_self).elim
  | markPointer => exact (hstack _ List.mem_cons_self).elim
  | _ => exact .flowing (Config.forall_stack hstack).2 hm hg

/-- A step of `markAsShared` or `markAsPointerToShared`. -/
theorem sharedInv_marking_step {c c' : Config Val Fn} (hstack : ∀ f ∈ c.stack, f.Marks)
    (hm : c.pdg.graph.Mirrored)
    (hg : ∀ u p w, p.Structural → c.pdg.HasEdge u p w → c.pdg.Shared u →
      c.pdg.Shared w ∨ .markAsShared w ∈ c.stack) (h : FrameStep c c') : SharedInv c' := by
  cases h with
  | marked hv =>
    refine .marking (Config.forall_stack hstack).2 hm fun u p w hp he hu ↦ ?_
    rcases hg u p w hp he hu with hw | hw
    · exact Or.inl hw
    · rcases List.mem_cons.mp hw with heq | hw
      · cases heq
        exact Or.inl hv
      · exact Or.inr hw
  | @mark g v stack _ =>
    refine .marking (List.forall_mem_append.mpr
      ⟨PDG.marks_of_mem_markCalls fun _ ↦ trivial, (Config.forall_stack hstack).2⟩)
      (PDG.mirrored_setNode hm ..) fun u p w hp he hu ↦ ?_
    have he' : g.HasEdge u p w := (PDG.hasEdge_setNode ..).mp he
    by_cases huv : u = v
    · subst huv
      exact Or.inr (List.mem_append_left _ (PDG.mem_markCalls hp he'))
    · simp only [PDG.Shared, PDG.node_setNode, huv, ↓reduceIte] at hu
      rcases hg u p w hp he' hu with hw | hw
      · refine Or.inl ?_
        simp only [PDG.Shared, PDG.node_setNode]
        split
        · rfl
        · exact hw
      · rcases List.mem_cons.mp hw with heq | hw
        · cases heq
          exact Or.inl (by simp [PDG.Shared])
        · exact Or.inr (List.mem_append_right _ hw)
  | markPointer =>
    refine .marking (List.forall_mem_append.mpr
      ⟨PDG.marks_of_mem_markCalls fun _ ↦ trivial, (Config.forall_stack hstack).2⟩) hm
      fun u p w hp he hu ↦ ?_
    refine (hg u p w hp he hu).imp_right fun hw ↦ ?_
    rcases List.mem_cons.mp hw with heq | hw
    · cases heq
    · exact List.mem_append_right _ hw
  | _ => exact (hstack _ List.mem_cons_self).elim

/-- A step of the loop of `uniteSubnodes`. -/
theorem sharedInv_uniting_step {queue : List (ℕ × ℕ)} {oldToNew : ℕ → Option ℕ}
    {stack : List Frame} {c' : Config Val Fn} (hstack : ∀ f ∈ stack, f.Flows)
    (hloop : SharedLoop ⟨g, queue, oldToNew⟩ ρ)
    (hok : UniteState.KeepsShared ⟨g, queue, oldToNew⟩)
    (h : FrameStep ⟨g, .uniteLoop queue oldToNew :: stack⟩ c') : SharedInv c' := by
  cases h with
  | mergeReturn => exact .flowing hstack hloop.mirrored (hloop.sharedClosed rfl)
  | mergeNext hs =>
    obtain ⟨ρ', hloop'⟩ := hloop.step hok hs
    exact .uniting hstack hloop'

theorem SharedInv.step {c c' : Config Val Fn} {e : MachineEvent} (h : SharedInv c)
    (hok : c.KeepsShared e) (hstep : MachineStep c e c') : SharedInv c' := by
  cases hstep with
  | call hf =>
    obtain ⟨hm, hg⟩ := h.sharedClosed rfl
    exact sharedInv_call hf hm hg
  | internal hnext =>
    have hframe := frameStep_of_machineStep hnext
    cases h with
    | marking hstack hm hclosed => exact sharedInv_marking_step hstack hm hclosed hframe
    | flowing hstack hm hclosed => exact sharedInv_flowing_step hstack hm hclosed hframe
    | uniting hstack hloop => exact sharedInv_uniting_step hstack hloop (hok _ _ _ rfl) hframe

/-- **Sharedness stays closed.**  From a graph without shared vertices, in every run of
calls whose merges all keep sharedness closed, whenever no call is going on a vertex
that a shared one points to or contains is shared. -/
theorem sharedClosed_of_keepsShared {t : List (MachineEvent × Config Val Fn)}
    (hm : g.graph.Mirrored) (hg : ∀ v, ¬ g.Shared v) (hrun : IsRun MachineStep ⟨g, []⟩ t)
    (hok : RunOk Config.KeepsShared ⟨g, []⟩ t) :
    ∀ c ∈ runStates ⟨g, []⟩ t, c.stack = [] → c.pdg.SharedClosed := by
  have hstart : SharedInv (⟨g, []⟩ : Config Val Fn) :=
    .flowing (List.forall_mem_nil _) hm fun u _ _ _ _ hu ↦ absurd hu (hg u)
  intro c hc hstack
  have hinv := hrun.invariant (fun _ _ _ h hok hst ↦ h.step hok hst) hstart hok c hc
  exact (hinv.sharedClosed hstack).2

/-! ## Runs -/

/-- If only one of the two vertices of the next merge is shared, then the subnodes of
both are shared already. -/
def UniteState.SubnodesShared (s : UniteState Val Fn) : Prop :=
  match s.nextMerge with
  | none => True
  | some (a, b) => s.oldToNew a = none ∧
      (¬ (s.pdg.Shared a ↔ s.pdg.Shared b) →
        ∀ e ∈ s.pdg.graph.outEdges a ++ s.pdg.graph.outEdges b, e.property.Structural →
          e.target = a ∨ e.target = b ∨ s.pdg.Shared e.target)

instance (s : UniteState Val Fn) : Decidable s.SubnodesShared := by
  unfold UniteState.SubnodesShared
  split <;> infer_instance

/-- `UniteState.SubnodesShared` before a step of the loop. -/
def Config.SubnodesShared (c : Config Val Fn) (_ : MachineEvent) : Prop :=
  match c.stack with
  | .uniteLoop queue oldToNew :: _ => UniteState.SubnodesShared ⟨c.pdg, queue, oldToNew⟩
  | _ => True

instance (c : Config Val Fn) (e : MachineEvent) : Decidable (c.SubnodesShared e) := by
  unfold Config.SubnodesShared
  split <;> infer_instance

omit [DecidableEq Fn] in
theorem UniteState.SubnodesShared.keepsShared (h : s.SubnodesShared) : s.KeepsShared := by
  intro a b hnext
  simp only [UniteState.SubnodesShared, hnext] at h
  refine ⟨h.1, fun hone v p w hv hp he ↦ ?_⟩
  have hmem : (⟨v, w, p⟩ : Edge PDGEdge) ∈ s.pdg.graph.outEdges a ++ s.pdg.graph.outEdges b := by
    rcases hv with rfl | rfl
    · exact List.mem_append_left _ he
    · exact List.mem_append_right _ he
  exact (h.2 hone _ hmem hp).imp_right (Or.imp_right fun hw ↦ ⟨w, hw, .refl _⟩)

omit [DecidableEq Fn] in
theorem Config.SubnodesShared.keepsShared (c : Config Val Fn) (e : MachineEvent)
    (h : c.SubnodesShared e) : c.KeepsShared e := by
  intro queue oldToNew stack hstack
  simp only [Config.SubnodesShared, hstack] at h
  exact h.keepsShared

/-- A pointer and what it points to, and a third vertex. -/
def onePointer : PDG Empty Empty := .ofEdges 3 [⟨0, 1, ⟨.deref, 0⟩⟩]

/-- The pointer is marked as shared, and the third vertex is united with it. -/
def onePointerEvents : List MachineEvent :=
  [.call (.markAsShared 0), .internal, .internal, .call (.uniteSubnodes 0 2), .internal, .internal,
    .internal]

theorem onePointer_sharedClosed :
    (∀ v, ¬ onePointer.Shared v) ∧
      ∀ c ∈ runStates ⟨onePointer, []⟩ (trace Config.exec ⟨onePointer, []⟩ onePointerEvents),
        c.stack = [] → c.pdg.SharedClosed := by
  have hno : ∀ v, ¬ onePointer.Shared v := fun v ↦ by
    simp [PDG.Shared, onePointer, PDG.node_ofEdges]
  have hok : RunOk Config.SubnodesShared ⟨onePointer, []⟩
      (trace Config.exec ⟨onePointer, []⟩ onePointerEvents) := by decide +kernel
  exact ⟨hno, sharedClosed_of_keepsShared PDG.mirrored_ofEdges hno
    (isRun_exec (by decide +kernel)) (hok.mono Config.SubnodesShared.keepsShared)⟩

/-- A vertex, and a pointer and what it points to. -/
def unsharedPointee : PDG Empty Empty := .ofEdges 3 [⟨1, 2, ⟨.deref, 0⟩⟩]

/-- The first vertex is marked as shared, and the pointer is united with it. -/
def unsharedPointeeEvents : List MachineEvent :=
  [.call (.markAsShared 0), .internal, .call (.uniteSubnodes 0 1), .internal, .internal, .internal]

/-- The first vertex is shared and points to the third, which is not. -/
theorem not_sharedClosed_unsharedPointee :
    ¬ ∀ (g : PDG Empty Empty) (t : List (MachineEvent × Config Empty Empty)),
      g.graph.Mirrored → (∀ v, ¬ g.Shared v) → IsRun MachineStep ⟨g, []⟩ t →
      ∀ c ∈ runStates ⟨g, []⟩ t, c.stack = [] → c.pdg.SharedClosed := by
  intro hall
  have hrun : IsRun MachineStep ⟨unsharedPointee, []⟩
      (trace Config.exec ⟨unsharedPointee, []⟩ unsharedPointeeEvents) :=
    isRun_exec (by decide +kernel)
  have hclosed := hall unsharedPointee _ PDG.mirrored_ofEdges
    (fun v ↦ by simp [PDG.Shared, unsharedPointee, PDG.node_ofEdges]) hrun
    _ (List.getLast_mem (List.cons_ne_nil _ _)) rfl
  exact absurd (hclosed 0 ⟨.deref, 0⟩ 2 (Or.inl rfl) (by decide +kernel) (by decide +kernel))
    (by decide +kernel)

end Cali.Passes
