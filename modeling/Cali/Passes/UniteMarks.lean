import Cali.Passes.UnitePairs

/-!
# Uniting vertices and their marks

The analysis marks of a vertex that `uniteSubnodes` removes must survive on the vertex
that replaces it.  `join node attributes` takes care of that for `source`, `ipcsink`
and `filedescriptor`; for `reaches_ipc_sink` it assigns the attribute of the kept
vertex to itself, so that mark only survives if the kept vertex has it already.  And
all of them get lost when the kept vertex has been removed before.
-/

namespace Cali.Passes

open Cali.Graph Cali.Lib

variable {Val Fn : Type}

/-- Every mark of the first node is a mark of the second. -/
structure MarksLe (n m : PDGNode Val Fn) : Prop where
  ipcsink : n.ipcsink = true → m.ipcsink = true
  reachesIpcSink : n.reachesIpcSink = true → m.reachesIpcSink = true
  filedescriptor : n.filedescriptor = true → m.filedescriptor = true
  source : n.source = true → m.source = true

variable {n m k : PDGNode Val Fn}

theorem MarksLe.refl (n : PDGNode Val Fn) : MarksLe n n := ⟨id, id, id, id⟩

theorem MarksLe.trans (h : MarksLe n m) (h' : MarksLe m k) : MarksLe n k :=
  ⟨h'.ipcsink ∘ h.ipcsink, h'.reachesIpcSink ∘ h.reachesIpcSink,
    h'.filedescriptor ∘ h.filedescriptor, h'.source ∘ h.source⟩

theorem marksLe_joinAttributes_left (n m : PDGNode Val Fn) : MarksLe n (joinAttributes n m) := by
  rw [joinAttributes_eq]
  exact ⟨fun h ↦ by simp [h], id, fun h ↦ by simp [h], fun h ↦ by simp [h]⟩

/-- The marks of the removed vertex are kept, except possibly `reaches_ipc_sink`. -/
theorem marksLe_joinAttributes_right
    (h : m.reachesIpcSink = true → n.reachesIpcSink = true) : MarksLe m (joinAttributes n m) := by
  rw [joinAttributes_eq]
  exact ⟨fun h ↦ by simp [h], h, fun h ↦ by simp [h], fun h ↦ by simp [h]⟩

/-- Of two vertices that are to be united, the one that is kept has the mark
`reaches_ipc_sink` if the other one has it. -/
def PDG.KeepsReaches (g : PDG Val Fn) (v1 v2 : ℕ) : Prop :=
  ∀ x y, g.United v1 v2 x y → g.rank x < g.rank y →
    (g.node y).reachesIpcSink = true → (g.node x).reachesIpcSink = true

/-- Every vertex has a replacement that has its marks. -/
structure MarksInv (g : PDG Val Fn) (s : UniteState Val Fn) (ρ : ℕ → ℕ) : Prop where
  ranked : s.pdg.Ranked s.oldToNew
  isRep : ∀ x, IsRep s.oldToNew x (ρ x)
  marks : ∀ x, MarksLe (g.node x) (s.pdg.node (ρ x))

variable [DecidableEq Fn] {g : PDG Val Fn} {s s' : UniteState Val Fn} {ρ : ℕ → ℕ} {v1 v2 : ℕ}

/-- **One iteration** keeps the marks. -/
theorem MarksInv.step (h : MarksInv g s ρ) (hinv : PairsInv g v1 v2 s)
    (hpairs : g.UnitedInPairs v1 v2) (hreaches : g.KeepsReaches v1 v2) (hstep : UniteStep s s') :
    ∃ ρ', MarksInv g s' ρ' := by
  have hr' := hstep.ranked h.ranked
  obtain ⟨x, y, queue, hq, ⟨a, -, -, rfl⟩ | ⟨a, b, -, hab, hb, ho, hi, hlead, rfl⟩⟩ :=
    hstep.inv h.ranked
  · exact ⟨ρ, hr', h.isRep, h.marks⟩
  · obtain ⟨hunited, hrank, hfa, hfb⟩ :=
      hinv.merged hpairs (hq ▸ List.mem_cons_self) hlead hb (ho hi)
    have ha := hfa.1
    have hmark := hreaches a b hunited hrank
    rw [← hinv.node a hfa, ← hinv.node b hfb] at hmark
    refine ⟨fun z ↦ if ρ z = b then a else ρ z, hr', fun z ↦ (h.isRep z).update ha hb hab,
      fun z ↦ (h.marks z).trans ?_⟩
    simp only [PDG.node_mergeInto hab]
    by_cases hz : ρ z = b
    · simp only [hz, ↓reduceIte, hab]
      exact marksLe_joinAttributes_right hmark
    · simp only [hz, ↓reduceIte]
      split
      · next hza => exact hza ▸ marksLe_joinAttributes_left _ _
      · exact .refl _

/-- Two vertices, the second of which is shared and a descriptor. -/
def sharedDescriptor : PDG Empty Empty :=
  (PDG.isolated 2).setNode 1 { ipcsink := true, filedescriptor := true }

/-- Two vertices, the second of which reaches a sink. -/
def reachesSink : PDG Empty Empty := (PDG.isolated 2).setNode 1 { reachesIpcSink := true }

end Cali.Passes
