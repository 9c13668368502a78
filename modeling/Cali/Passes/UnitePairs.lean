import Cali.Passes.Unite

/-!
# Vertices that are united in pairs

Which vertices `uniteSubnodes` is meant to unite is a matter of the graph it is called on: the two
vertices, and with any two also the vertices that their equal `Deref` and `Part` edges lead to.
The loop only looks up the second vertex of a pair in `old_to_new`.  This does no harm if no more
than two vertices are united into one: whenever two vertices are merged, neither of them has been
part of a merge before, and both are still as they were.
-/

namespace Cali.Passes

open Cali.Graph Cali.Lib

variable {Val Fn : Type}

namespace PDG

/-- The vertices that are to be united. -/
inductive United (g : PDG Val Fn) (v1 v2 : ℕ) : ℕ → ℕ → Prop
  | start : United g v1 v2 v1 v2
  | refl (x : ℕ) : United g v1 v2 x x
  | symm {x y : ℕ} : United g v1 v2 x y → United g v1 v2 y x
  | trans {x y z : ℕ} : United g v1 v2 x y → United g v1 v2 y z → United g v1 v2 x z
  | matched {x y x' y' : ℕ} {p q : PDGEdge} : United g v1 v2 x y → g.HasEdge x p x' →
      g.HasEdge y q y' → p.Matches g.maxParts q → United g v1 v2 x' y'

/-- No more than two vertices are united into one. -/
def UnitedInPairs (g : PDG Val Fn) (v1 v2 : ℕ) : Prop :=
  ∀ x y z, g.United v1 v2 x y → g.United v1 v2 x z → x = y ∨ x = z ∨ y = z

variable {g : PDG Val Fn} {v1 v2 x y : ℕ}

theorem United.eq_map {α : Type} (f : ℕ → α) (h : g.United v1 v2 x y) (hstart : f v1 = f v2)
    (hmatched : ∀ x y x' y' p q, f x = f y → g.HasEdge x p x' → g.HasEdge y q y' →
      p.Matches g.maxParts q → f x' = f y') : f x = f y := by
  induction h with
  | start => exact hstart
  | refl => rfl
  | symm _ ih => exact ih.symm
  | trans _ _ ih₁ ih₂ => exact ih₁.trans ih₂
  | matched _ hx hy hpq ih => exact hmatched _ _ _ _ _ _ ih hx hy hpq

end PDG

/-- No merge has changed the vertex. -/
def UniteState.Fresh (s : UniteState Val Fn) (x : ℕ) : Prop :=
  s.oldToNew x = none ∧ ∀ z, s.oldToNew z ≠ some x

/-- The loop unites what is to be united, and leaves the other vertices as they are. -/
structure PairsInv (g : PDG Val Fn) (v1 v2 : ℕ) (s : UniteState Val Fn) : Prop where
  ranked : s.pdg.Ranked s.oldToNew
  mirrored : s.pdg.graph.Mirrored
  maxParts : s.pdg.maxParts = g.maxParts
  rank : ∀ x, s.pdg.rank x = g.rank x
  queue : ∀ p ∈ s.queue, g.United v1 v2 p.1 p.2
  map : ∀ x y, s.oldToNew x = some y → g.United v1 v2 x y
  edges : ∀ u p w, s.pdg.HasEdge u p w →
    ∃ x y, g.HasEdge x p y ∧ g.United v1 v2 x u ∧ g.United v1 v2 y w
  node : ∀ x, s.Fresh x → s.pdg.node x = g.node x
  edge : ∀ x p y, s.Fresh x → s.Fresh y → (s.pdg.HasEdge x p y ↔ g.HasEdge x p y)
  exists_edge : ∀ x p y, s.Fresh x → g.HasEdge x p y → ∃ t, s.pdg.HasEdge x p t

variable {g : PDG Val Fn} {s s' : UniteState Val Fn} {v1 v2 x y a b : ℕ}

theorem pairsInv_start (hm : g.graph.Mirrored) : PairsInv g v1 v2 (uniteStart g v1 v2) where
  ranked := nofun
  mirrored := hm
  maxParts := rfl
  rank _ := rfl
  queue p hp := by
    rw [List.mem_singleton.mp hp]
    exact .start
  map := nofun
  edges u _ w he := ⟨u, w, he, .refl u, .refl w⟩
  node _ _ := rfl
  edge _ _ _ _ _ := Iff.rfl
  exists_edge _ _ y _ he := ⟨y, he⟩

theorem PairsInv.united_of_leads (h : PairsInv g v1 v2 s) (hlead : Leads s.oldToNew x y) :
    g.United v1 v2 x y := by
  induction hlead with
  | refl => exact .refl x
  | tail _ hstep ih => exact ih.trans (h.map _ _ hstep)

theorem PairsInv.united (h : PairsInv g v1 v2 s) (hxy : (x, y) ∈ s.queue)
    (hlead : Leads s.oldToNew x a ∧ Leads s.oldToNew y b ∨
      Leads s.oldToNew x b ∧ Leads s.oldToNew y a) : g.United v1 v2 a b := by
  rcases hlead with ⟨hx, hy⟩ | ⟨hx, hy⟩
  · exact ((h.united_of_leads hx).symm.trans (h.queue _ hxy)).trans (h.united_of_leads hy)
  · exact ((h.united_of_leads hy).symm.trans (h.queue _ hxy).symm).trans (h.united_of_leads hx)

theorem PairsInv.united_matchedPairs (h : PairsInv g v1 v2 s) (hab : g.United v1 v2 a b)
    {m t : ℕ} (hmem : (m, t) ∈ s.pdg.matchedPairs a b) : g.United v1 v2 m t := by
  obtain ⟨p, hp, hmatch⟩ := (PDG.mem_matchedPairs h.mirrored).mp hmem
  obtain ⟨q, hq, hpq⟩ := PDG.exists_hasEdge_of_matchOf h.mirrored hmatch
  obtain ⟨x, y, hxy, hx, hy⟩ := h.edges b p t hp
  obtain ⟨x', y', hxy', hx', hy'⟩ := h.edges a q m hq
  have hxx' : g.United v1 v2 x x' := (hx.trans hab.symm).trans hx'.symm
  rw [h.maxParts] at hpq
  exact (hy'.symm.trans (PDG.United.matched hxx' hxy hxy' hpq).symm).trans hy

variable [DecidableEq Fn]

/-- **The step lemma.** -/
theorem PairsInv.step (h : PairsInv g v1 v2 s) (hstep : UniteStep s s') : PairsInv g v1 v2 s' := by
  have hr' := hstep.ranked h.ranked
  obtain ⟨x, y, queue, hq, ⟨a, -, -, rfl⟩ | ⟨a, b, -, hab, hb, -, -, hlead, rfl⟩⟩ :=
    hstep.inv h.ranked
  · exact { h with queue := fun p hp ↦ h.queue p (hq ▸ List.mem_cons_of_mem _ hp) }
  have hunited := h.united (hq ▸ List.mem_cons_self) hlead
  -- a vertex that is fresh after the merge was so before, and is none of the two
  have hfresh : ∀ {x}, UniteState.Fresh ⟨s.pdg.mergeInto a b, queue ++ s.pdg.matchedPairs a b,
      Function.update s.oldToNew b (some a)⟩ x → s.Fresh x ∧ x ≠ a ∧ x ≠ b := by
    rintro x ⟨hx, hinto⟩
    have hxb : x ≠ b := by
      rintro rfl
      simp at hx
    refine ⟨⟨by rwa [← Function.update_of_ne hxb (some a) s.oldToNew], fun z hz ↦ ?_⟩, ?_, hxb⟩
    · have hzb : z ≠ b := fun hzb ↦ by simp [hzb, hb] at hz
      exact hinto z ((Function.update_of_ne hzb ..).trans hz)
    · rintro rfl
      exact hinto b (Function.update_self ..)
  constructor
  case ranked => exact hr'
  case mirrored => exact PDG.mirrored_mergeInto h.mirrored a b
  case maxParts => exact PDG.maxParts_mergeInto.trans h.maxParts
  case rank => exact fun x ↦ (rank_mergeInto hab x).trans (h.rank x)
  case queue =>
    rintro ⟨m, t⟩ hp
    rcases List.mem_append.mp hp with hp | hp
    · exact h.queue _ (hq ▸ List.mem_cons_of_mem _ hp)
    · exact h.united_matchedPairs hunited hp
  case map =>
    intro x y hxy
    change Function.update s.oldToNew b (some a) x = some y at hxy
    by_cases hx : x = b
    · subst hx
      rw [Function.update_self, Option.some.injEq] at hxy
      exact hxy ▸ hunited.symm
    · rw [Function.update_of_ne hx] at hxy
      exact h.map x y hxy
  case edges =>
    intro u p w he
    obtain ⟨hold | ⟨rfl, hold, -⟩ | ⟨rfl, hold⟩, -, -⟩ :=
      (PDG.hasEdge_mergeInto_iff h.mirrored).mp he
    · exact h.edges u p w hold
    · obtain ⟨x, y, hxy, hx, hy⟩ := h.edges _ p w hold
      exact ⟨x, y, hxy, hx.trans hunited.symm, hy⟩
    · obtain ⟨x, y, hxy, hx, hy⟩ := h.edges u p _ hold
      exact ⟨x, y, hxy, hx, hy.trans hunited.symm⟩
  case node =>
    intro x hx
    obtain ⟨hx, hxa, hxb⟩ := hfresh hx
    rw [PDG.node_mergeInto hab, if_neg hxb, if_neg hxa, h.node x hx]
  case edge =>
    intro x p y hx hy
    obtain ⟨hx, hxa, hxb⟩ := hfresh hx
    obtain ⟨hy, hya, hyb⟩ := hfresh hy
    rw [PDG.hasEdge_mergeInto_iff h.mirrored, ← h.edge x p y hx hy]
    simp [hxa, hxb, hya, hyb]
  case exists_edge =>
    intro x p y hx hxy
    obtain ⟨hx, hxa, hxb⟩ := hfresh hx
    obtain ⟨t, ht⟩ := h.exists_edge x p y hx hxy
    by_cases htb : t = b
    · exact ⟨a, (PDG.hasEdge_mergeInto_iff h.mirrored).mpr
        ⟨Or.inr (Or.inr ⟨rfl, htb ▸ ht⟩), hxb, hab⟩⟩
    · exact ⟨t, (PDG.hasEdge_mergeInto_iff h.mirrored).mpr ⟨Or.inl ht, hxb, htb⟩⟩

theorem UniteReaches.pairsInv (h : UniteReaches g v1 v2 s) (hm : g.graph.Mirrored) :
    PairsInv g v1 v2 s :=
  invariant_of_reaches (fun _ _ hs hst ↦ hs.step hst) h.2 (pairsInv_start hm)

omit [DecidableEq Fn] in
/-- **What is merged is fresh**, if the vertices are united in pairs. -/
theorem PairsInv.merged (h : PairsInv g v1 v2 s) (hpairs : g.UnitedInPairs v1 v2)
    (hxy : (x, y) ∈ s.queue) (hlead : Leads s.oldToNew x a ∧ Leads s.oldToNew y b ∨
      Leads s.oldToNew x b ∧ Leads s.oldToNew y a) (hb : s.oldToNew b = none)
    (hrank : s.pdg.rank a < s.pdg.rank b) :
    g.United v1 v2 a b ∧ g.rank a < g.rank b ∧ s.Fresh a ∧ s.Fresh b := by
  have hunited := h.united hxy hlead
  rw [h.rank, h.rank] at hrank
  have hne : ∀ {x y}, s.oldToNew x = some y → g.rank y < g.rank x := fun hxy ↦ by
    rw [← h.rank, ← h.rank]
    exact h.ranked _ _ hxy
  -- a third vertex of the class would be one too many
  have ha : s.oldToNew a = none := by
    cases hc : s.oldToNew a with
    | none => rfl
    | some c =>
      have hlt := hne hc
      rcases hpairs a b c hunited (h.map a c hc) with rfl | rfl | rfl
      · exact absurd hrank (Nat.lt_irrefl _)
      · exact absurd hlt (Nat.lt_irrefl _)
      · exact absurd hlt hrank.asymm
  refine ⟨hunited, hrank, ⟨ha, fun z hz ↦ ?_⟩, hb, fun z hz ↦ ?_⟩
  · rcases hpairs a b z hunited (h.map z a hz).symm with rfl | rfl | rfl
    · exact absurd hrank (Nat.lt_irrefl _)
    · simp [ha] at hz
    · simp [hb] at hz
  · rcases hpairs b a z hunited.symm (h.map z b hz).symm with rfl | rfl | rfl
    · exact absurd hrank (Nat.lt_irrefl _)
    · simp [hb] at hz
    · simp [ha] at hz

end Cali.Passes
