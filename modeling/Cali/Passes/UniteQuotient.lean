import Mathlib.Order.WellFounded
import Cali.Passes.UnitePairs

/-!
# `uniteSubnodes` as a quotient

The merging path of `uniteSubnodes` is meant to compute the quotient of the graph by
the vertices it unites.  It does so if no more than two vertices are united into one
and the loops at those that are removed are not lost.  The source ensures neither.
Only the second vertex of a pair is looked up in `old_to_new`, and a loop at the
removed vertex is re-pointed to edges that the removal deletes again.
-/

namespace Cali.Passes

open Cali.Graph Cali.Lib

variable {Val Fn : Type}

/-- The loops at a vertex that is removed are kept in some form. -/
def PDG.KeepsLoops (g : PDG Val Fn) (v1 v2 : ℕ) : Prop :=
  ∀ x y, g.United v1 v2 x y → g.rank x < g.rank y →
    LoopsKept PDGEdge.Structural g.HasEdge x y

/-- Everything in the graph is alive: no slot is empty and the edges stay inside. -/
structure PDG.AllLive (g : PDG Val Fn) : Prop where
  isEmpty : ∀ v, v < g.graph.capacity → g.graph.isEmpty v = false
  inside : ∀ u p w, g.HasEdge u p w → u < g.graph.capacity ∧ w < g.graph.capacity

/-- At most one `Deref` edge and at most one `Part` edge per index leave each vertex. -/
def PDG.UniqueStructure (g : PDG Val Fn) : Prop :=
  ∀ u p q w w', g.HasEdge u p w → g.HasEdge u q w' →
    (p.type = .deref ∧ q.type = .deref ∨ p.type = .part ∧ q.type = .part ∧ p.index = q.index) →
    p = q ∧ w = w'

section Result

variable [DecidableEq Fn]

/-- The result of a call that takes the merging path: the call ends, and with `rep`
the closure of `old_to_new`,
* no edge is incident to a removed vertex,
* the image of every edge under `rep` is present,
* every edge is such an image, and
* unique structure is kept. -/
def UnitesToQuotient (g : PDG Val Fn) (v1 v2 : ℕ) : Prop :=
  ∃ (s : UniteState Val Fn) (rep : ℕ → ℕ), UniteReaches g v1 v2 s ∧ uniteIteration s = .finished ∧
    (∀ x, IsRep s.oldToNew x (rep x)) ∧
    (∀ u p w, s.pdg.HasEdge u p w →
      s.pdg.graph.isEmpty u = false ∧ s.pdg.graph.isEmpty w = false) ∧
    (∀ x p y, g.HasEdge x p y → s.pdg.HasEdge (rep x) p (rep y)) ∧
    (∀ u p w, s.pdg.HasEdge u p w → ∃ x y, g.HasEdge x p y ∧ rep x = u ∧ rep y = w) ∧
    (g.UniqueStructure → s.pdg.UniqueStructure)

end Result

/-! ## The invariant of the loop -/

/-- The part of the invariant that says which graph the loop has come to. -/
structure QuotientInv (g : PDG Val Fn) (s : UniteState Val Fn) (ρ : ℕ → ℕ) : Prop where
  mirrored : s.pdg.graph.Mirrored
  plain : s.pdg.Plain
  ranked : s.pdg.Ranked s.oldToNew
  quotient : IsQuotient PDGEdge.Structural g.HasEdge s.pdg.HasEdge s.oldToNew s.queue ρ

variable {g : PDG Val Fn} {s s' : UniteState Val Fn} {ρ : ℕ → ℕ} {v1 v2 : ℕ}

theorem quotientInv_start (hm : g.graph.Mirrored) (hg : g.Plain) :
    QuotientInv g (uniteStart g v1 v2) id :=
  ⟨hm, hg, nofun, isQuotient_refl⟩

/-- The pairs pushed by a merge join the targets of the edges that are dropped. -/
theorem exists_matched_of_dropped {g : PDG Val Fn} (hm : g.graph.Mirrored) (hg : g.Plain)
    {a b t : ℕ} {p : PDGEdge} (hp : p.Structural) (ha : ∃ m, g.HasEdge a p m)
    (hb : g.HasEdge b p t) :
    ∃ m, g.HasEdge a p m ∧ (m, t) ∈ g.matchedPairs a b := by
  have hplain := hg _ _ _ hb
  cases hmatch : g.matchOf a p with
  | none => exact absurd ⟨hp, ha⟩ ((PDG.matchOf_eq_none_iff hm hg hplain).mp hmatch)
  | some m =>
    exact ⟨m, (PDG.matchOf_eq_some hm hg hplain hmatch).2,
      (PDG.mem_matchedPairs hm).mpr ⟨p, hb, hmatch⟩⟩

variable [DecidableEq Fn]

omit [DecidableEq Fn] in
theorem PairsInv.loopsKept (h : PairsInv g v1 v2 s) (hloops : g.KeepsLoops v1 v2) {a b : ℕ}
    (hunited : g.United v1 v2 a b) (hrank : g.rank a < g.rank b) (ha : s.Fresh a)
    (hb : s.Fresh b) : LoopsKept PDGEdge.Structural s.pdg.HasEdge a b := by
  intro l hl
  rw [h.edge a l a ha ha, h.edge a l b ha hb, h.edge b l a hb ha]
  refine (hloops a b hunited hrank l ((h.edge b l b hb hb).mp hl)).imp_left ?_
  rintro ⟨hstructural, m, hm⟩
  exact ⟨hstructural, h.exists_edge a l m ha hm⟩

/-- **One iteration** preserves the invariant. -/
theorem QuotientInv.step (h : QuotientInv g s ρ) (hinv : PairsInv g v1 v2 s)
    (hpairs : g.UnitedInPairs v1 v2) (hloops : g.KeepsLoops v1 v2) (hstep : UniteStep s s') :
    ∃ ρ', QuotientInv g s' ρ' := by
  have hr' := hstep.ranked h.ranked
  obtain ⟨x, y, queue, hq, hcase⟩ := hstep.inv h.ranked
  have hquot := h.quotient
  rw [hq] at hquot
  rcases hcase with ⟨a, hx, hy, rfl⟩ | ⟨a, b, -, hab, hb, ho, hi, hlead, rfl⟩
  · have hxy : ρ x = ρ y :=
      ((hquot.isRep x).of_leads hx).unique ((hquot.isRep y).of_leads hy)
    exact ⟨ρ, h.mirrored, h.plain, hr', hquot.skip hxy⟩
  · obtain ⟨hunited, hrank, hfa, hfb⟩ :=
      hinv.merged hpairs (hq ▸ List.mem_cons_self) hlead hb (ho hi)
    have ha := hfa.1
    have hxy := IsRep.eq_or_eq hquot.isRep ha hb hlead
    refine ⟨fun z ↦ if ρ z = b then a else ρ z, PDG.mirrored_mergeInto h.mirrored a b,
      h.plain.mergeInto h.mirrored, hr', ?_⟩
    have hedges : (s.pdg.mergeInto a b).HasEdge =
        mergeEdge PDGEdge.Structural s.pdg.HasEdge a b := by
      funext u p w
      exact propext (PDG.hasEdge_mergeInto h.mirrored h.plain)
    rw [hedges]
    refine hquot.merge hab ha hb hxy (hinv.loopsKept hloops hunited hrank hfa hfb)
      (fun p hp ↦ List.mem_append_left _ hp) ?_
    intro p t hp hm ht
    obtain ⟨m, hm, hmem⟩ := exists_matched_of_dropped h.mirrored h.plain hp hm ht
    exact ⟨m, hm, .rel _ _ (Or.inl (List.mem_append_right _ hmem))⟩

/-! ## Termination

Each iteration removes a vertex or shortens the queue. -/

/-- The part of the invariant that bounds the loop: everything it handles is inside
the graph and has no instruction, and exactly the replaced vertices are removed. -/
structure BoundInv (s : UniteState Val Fn) : Prop where
  ranked : s.pdg.Ranked s.oldToNew
  mirrored : s.pdg.graph.Mirrored
  queue : ∀ p ∈ s.queue, p.1 < s.pdg.graph.capacity ∧ p.2 < s.pdg.graph.capacity
  edges : ∀ u p w, s.pdg.HasEdge u p w → u < s.pdg.graph.capacity ∧ w < s.pdg.graph.capacity
  values : ∀ x y, s.oldToNew x = some y →
    y < s.pdg.graph.capacity ∧ s.pdg.hasInstruction y = false
  removed : ∀ x, x < s.pdg.graph.capacity →
    (s.pdg.graph.isEmpty x = true ↔ s.oldToNew x ≠ none)

/-- No vertex of the queue has an instruction. -/
def UniteState.NoInstruction (s : UniteState Val Fn) : Prop :=
  ∀ p ∈ s.queue, s.pdg.hasInstruction p.1 = false ∧ s.pdg.hasInstruction p.2 = false

omit [DecidableEq Fn] in
theorem BoundInv.of_leads (h : BoundInv s) {x y : ℕ} (hlead : Leads s.oldToNew x y)
    (hx : x < s.pdg.graph.capacity) (hi : s.pdg.hasInstruction x = false) :
    y < s.pdg.graph.capacity ∧ s.pdg.hasInstruction y = false := by
  induction hlead with
  | refl => exact ⟨hx, hi⟩
  | tail _ hstep _ => exact h.values _ _ hstep

theorem BoundInv.step (h : BoundInv s) (hi : s.NoInstruction) (hstep : UniteStep s s') :
    BoundInv s' ∧ uniteMeasure s' < uniteMeasure s := by
  refine ⟨?_, hstep.measure_lt h.ranked h.queue fun x y hxy ↦ (h.values x y hxy).1⟩
  have hr' := hstep.ranked h.ranked
  obtain ⟨x, y, queue, hq, hcase⟩ := hstep.inv h.ranked
  have hxy : (x, y) ∈ s.queue := hq ▸ List.mem_cons_self
  rcases hcase with ⟨a, -, -, rfl⟩ | ⟨a, b, -, hab, -, -, -, hlead, rfl⟩
  · exact ⟨hr', h.mirrored, fun p hp ↦ h.queue p (hq ▸ List.mem_cons_of_mem _ hp), h.edges,
      h.values, h.removed⟩
  · -- both vertices of the merge come from the pair that was taken from the queue
    have hends : a < s.pdg.graph.capacity ∧ s.pdg.hasInstruction a = false := by
      have hx : ∀ {z}, Leads s.oldToNew x z → _ :=
        fun hz ↦ h.of_leads hz (h.queue _ hxy).1 (hi _ hxy).1
      have hy : ∀ {z}, Leads s.oldToNew y z → _ :=
        fun hz ↦ h.of_leads hz (h.queue _ hxy).2 (hi _ hxy).2
      rcases hlead with ⟨hxa, -⟩ | ⟨-, hya⟩
      · exact hx hxa
      · exact hy hya
    obtain ⟨hacap, hai⟩ := hends
    have hcap : (s.pdg.mergeInto a b).graph.capacity = s.pdg.graph.capacity :=
      PDG.capacity_mergeInto a b
    refine ⟨hr', PDG.mirrored_mergeInto h.mirrored a b, ?_, ?_, ?_, ?_⟩
    · simp only [hcap]
      intro p hp
      rcases List.mem_append.mp hp with hp | hp
      · exact h.queue p (hq ▸ List.mem_cons_of_mem _ hp)
      · obtain ⟨q, hedge, hmatch⟩ := (PDG.mem_matchedPairs h.mirrored).mp hp
        obtain ⟨q', hedge', -⟩ := PDG.exists_hasEdge_of_matchOf h.mirrored hmatch
        exact ⟨(h.edges _ _ _ hedge').2, (h.edges _ _ _ hedge).2⟩
    · simp only [hcap]
      intro u p w hedge
      obtain ⟨hold | ⟨rfl, hold, -⟩ | ⟨rfl, hold⟩, -, -⟩ :=
        (PDG.hasEdge_mergeInto_iff h.mirrored).mp hedge
      · exact h.edges _ _ _ hold
      · exact ⟨hacap, (h.edges _ _ _ hold).2⟩
      · exact ⟨(h.edges _ _ _ hold).1, hacap⟩
    · simp only [hcap, PDG.hasInstruction_mergeInto hab]
      intro u v huv
      by_cases hu : u = b
      · subst hu
        rw [Function.update_self, Option.some.injEq] at huv
        exact huv ▸ ⟨hacap, hai⟩
      · rw [Function.update_of_ne hu] at huv
        exact h.values u v huv
    · simp only [hcap, PDG.isEmpty_mergeInto]
      intro u hu
      by_cases hub : u = b
      · simp [hub]
      · simpa [hub] using h.removed u hu

/-! ## The result -/

omit [DecidableEq Fn] in
/-- With plain labels, unique structure means that structural labels are unique. -/
theorem PDG.Plain.uniqueStructure_iff {g : PDG Val Fn} (hg : g.Plain) :
    g.UniqueStructure ↔ Functional PDGEdge.Structural g.HasEdge := by
  constructor
  · intro h u p w w' hp hw hw'
    refine (h u p p w w' hw hw' ?_).2
    rcases hp with hp | hp
    · exact Or.inl ⟨hp, hp⟩
    · exact Or.inr ⟨hp, hp, rfl⟩
  · rintro h u ⟨tp, ip⟩ ⟨tq, iq⟩ w w' hw hw' (⟨hp, hq⟩ | ⟨hp, hq, hi⟩)
    · have hip := (hg _ _ _ hw).1 hp
      have hiq := (hg _ _ _ hw').1 hq
      simp only at hp hq hip hiq
      subst hp hq hip hiq
      exact ⟨rfl, h u _ w w' (Or.inl rfl) hw hw'⟩
    · simp only at hp hq hi
      subst hp hq hi
      exact ⟨rfl, h u _ w w' (Or.inr rfl) hw hw'⟩

omit [DecidableEq Fn] in
theorem boundInv_start (hm : g.graph.Mirrored) (hlive : g.AllLive) (hv1 : v1 < g.graph.capacity)
    (hv2 : v2 < g.graph.capacity) : BoundInv (uniteStart g v1 v2) where
  ranked := nofun
  mirrored := hm
  queue p hp := by
    rw [List.mem_singleton.mp hp]
    exact ⟨hv1, hv2⟩
  edges := hlive.inside
  values := nofun
  removed x hx := by simp [uniteStart, hlive.isEmpty x hx]

theorem BoundInv.finished (h : BoundInv s) (hi : s.NoInstruction) (hend : ∀ s', ¬ UniteStep s s') :
    uniteIteration s = .finished ∧ s.queue = [] := by
  rcases uniteIteration_of_no_step h.ranked hend with hfin | ⟨x, y, queue, a, b, hq, hb, hsel⟩
  · exact hfin
  · have hxy : (x, y) ∈ s.queue := hq ▸ List.mem_cons_self
    have hb' : s.pdg.hasInstruction b = false := by
      rcases hsel with ⟨-, -, hy⟩ | ⟨-, -, -, ⟨-, hy⟩ | ⟨hx, -⟩⟩
      · exact (h.of_leads hy (h.queue _ hxy).2 (hi _ hxy).2).2
      · exact (h.of_leads hy (h.queue _ hxy).2 (hi _ hxy).2).2
      · exact (h.of_leads hx (h.queue _ hxy).1 (hi _ hxy).1).2
    rw [hb'] at hb
    cases hb

omit [DecidableEq Fn] in
theorem PDG.allLive_ofEdges {n : ℕ} {es : List (Edge PDGEdge)}
    (h : ∀ e ∈ es, e.source < n ∧ e.target < n) : (PDG.ofEdges n es : PDG Val Fn).AllLive := by
  have hsame := PDG.sameNodes_addEdges (g := (PDG.isolated n : PDG Val Fn)) es
  refine ⟨fun v _ ↦ hsame.isEmpty v, fun u p w hedge ↦ ?_⟩
  rw [PDG.capacity_ofEdges]
  exact h _ (PDG.hasEdge_ofEdges.mp hedge)

omit [DecidableEq Fn] in
theorem PDG.plain_ofEdges {n : ℕ} {es : List (Edge PDGEdge)}
    (h : ∀ e ∈ es, e.property.Clamped 32) : (PDG.ofEdges n es : PDG Val Fn).Plain := by
  intro u p w hedge
  have hmax : (PDG.ofEdges n es : PDG Val Fn).maxParts = 32 := PDG.maxParts_addEdges es
  rw [hmax]
  exact h _ (PDG.hasEdge_ofEdges.mp hedge)

/-- Two pointers to different variables. -/
def twoPointers : PDG Empty Empty :=
  .ofEdges 4 [⟨0, 2, ⟨.deref, 0⟩⟩, ⟨1, 3, ⟨.deref, 0⟩⟩, ⟨3, 0, .dataEdge⟩]

theorem United.div_two {x y : ℕ} (h : twoPointers.United 0 1 x y) : x / 2 = y / 2 := by
  refine h.eq_map (· / 2) rfl fun x y x' y' p q _ hx hy hpq ↦ ?_
  have hedges : ∀ e ∈ [(⟨0, 2, ⟨.deref, 0⟩⟩ : Edge PDGEdge), ⟨1, 3, ⟨.deref, 0⟩⟩,
      ⟨3, 0, .dataEdge⟩], e.property.Structural → e.target / 2 = 1 := by decide
  have hp : p.Structural := hpq.imp And.left And.left
  have hq : q.Structural := hpq.imp And.right fun h ↦ h.2.1
  exact (hedges _ (PDG.hasEdge_ofEdges.mp hx) hp).trans
    (hedges _ (PDG.hasEdge_ofEdges.mp hy) hq).symm

/-- Two structs that share a member: the first has the members 2 and 3, the second
the members 3 and 4, and member 4 flows into the first struct. -/
def sharedMember : PDG Empty Empty :=
  .ofEdges 5 [⟨0, 2, ⟨.part, 0⟩⟩, ⟨0, 3, ⟨.part, 1⟩⟩, ⟨1, 3, ⟨.part, 0⟩⟩, ⟨1, 4, ⟨.part, 1⟩⟩,
    ⟨4, 0, .dataEdge⟩]

end Cali.Passes
