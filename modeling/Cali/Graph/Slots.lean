import Cali.Graph.BaseGraph

/-!
# The slots of a graph

The ids of a `BaseGraph` are slots of its vector of vertices.  A slot is *live* if it
is inside the vector and not marked as empty; `add_vertex` hands out the slots on the
stack of free ids before it appends a new one.  `SlotsOk` says that the stack holds
exactly the empty slots, each one once.  It is what makes `add_vertex` return an id
that is not in use.
-/

namespace Cali.Graph.BaseGraph

variable {N L : Type} {g g' : BaseGraph N L} {u v : ℕ} {prop : N}

/-- The id is the id of a vertex. -/
def Live (g : BaseGraph N L) (v : ℕ) : Prop := v < g.capacity ∧ g.isEmpty v = false

instance (g : BaseGraph N L) (v : ℕ) : Decidable (g.Live v) :=
  inferInstanceAs (Decidable (_ ∧ _))

/-- The stack of free ids holds exactly the empty slots, without repetition. -/
structure SlotsOk (g : BaseGraph N L) : Prop where
  nodup : g.freeVertices.Nodup
  mem_free : ∀ v, v ∈ g.freeVertices ↔ v < g.capacity ∧ g.isEmpty v = true

theorem slotsOk_nil (prop : N) : (nil prop : BaseGraph N L).SlotsOk :=
  ⟨.nil, fun v ↦ ⟨nofun, fun h ↦ absurd h.1 (Nat.not_lt_zero v)⟩⟩

theorem SlotsOk.not_live_of_mem (h : g.SlotsOk) (hv : v ∈ g.freeVertices) : ¬ g.Live v := by
  rintro ⟨-, hlive⟩
  rw [((h.mem_free v).mp hv).2] at hlive
  cases hlive

/-! ## Operations that leave the slots alone -/

@[simp] theorem live_setProperty : (g.setProperty v prop).Live u ↔ g.Live u := by
  unfold Live
  rw [isEmpty_setProperty]
  rfl

theorem SlotsOk.setProperty (h : g.SlotsOk) (v : ℕ) (prop : N) :
    (g.setProperty v prop).SlotsOk := by
  refine ⟨h.nodup, fun u ↦ ?_⟩
  rw [isEmpty_setProperty]
  exact h.mem_free u

/-! ## Adding a vertex -/

/-- The two ways of `add_vertex`: it takes the top of the stack if there is one. -/
theorem SlotsOk.addVertex_cases (h : g.SlotsOk) (prop : N) :
    (∃ v free, g.freeVertices = v :: free ∧ v < g.capacity ∧
      g.addVertex prop = (v, { g with size := g.size + 1, freeVertices := free }.setVertex v
        { g.vertices v with empty := false, property := prop })) ∨
    g.freeVertices = [] ∧
      g.addVertex prop = (g.capacity, { g with
        size := g.size + 1, freeVertices := [], capacity := g.capacity + 1 }.setVertex g.capacity
          ⟨[], [], prop, false⟩) := by
  cases hfree : g.freeVertices with
  | nil => exact Or.inr ⟨rfl, by simp only [addVertex, hfree, popFree]⟩
  | cons v free =>
    have hv : v < g.capacity := ((h.mem_free v).mp (hfree ▸ List.mem_cons_self)).1
    refine Or.inl ⟨v, free, rfl, hv, ?_⟩
    simp only [addVertex, hfree, popFree, if_pos (Nat.le_of_lt hv)]

/-- **`add_vertex` returns an id that is not in use.** -/
theorem SlotsOk.not_live_addVertex (h : g.SlotsOk) (prop : N) :
    ¬ g.Live (g.addVertex prop).1 := by
  obtain ⟨v, free, hfree, -, hadd⟩ | ⟨-, hadd⟩ := h.addVertex_cases prop
  · rw [hadd]
    exact h.not_live_of_mem (hfree ▸ List.mem_cons_self)
  · rw [hadd]
    exact fun hlive ↦ Nat.lt_irrefl _ hlive.1

theorem property_addVertex (g : BaseGraph N L) (prop : N) (u : ℕ) :
    (g.addVertex prop).2.property u = if u = (g.addVertex prop).1 then prop else g.property u := by
  unfold addVertex
  split
  · exact property_setVertex ..
  · exact property_setVertex ..

theorem capacity_le_addVertex (g : BaseGraph N L) (prop : N) :
    g.capacity ≤ (g.addVertex prop).2.capacity := by
  unfold addVertex
  split
  · exact Nat.le_refl _
  · exact Nat.le_succ _

/-- The stack holds ids of slots. -/
def FreeInside (g : BaseGraph N L) : Prop := ∀ v ∈ g.freeVertices, v < g.capacity

theorem mem_of_popFree {capacity : ℕ} {stack free : List ℕ}
    (h : popFree capacity stack = some (v, free)) : v ∈ stack ∧ ∀ u ∈ free, u ∈ stack := by
  induction stack with
  | nil => cases h
  | cons u stack ih =>
    rw [popFree] at h
    split at h
    · cases h
      exact ⟨List.mem_cons_self, fun _ ↦ List.mem_cons_of_mem _⟩
    · obtain ⟨hv, hfree⟩ := ih h
      exact ⟨List.mem_cons_of_mem _ hv, fun u hu ↦ List.mem_cons_of_mem _ (hfree u hu)⟩

theorem FreeInside.addVertex (h : g.FreeInside) (prop : N) :
    (g.addVertex prop).2.FreeInside ∧ (g.addVertex prop).1 < (g.addVertex prop).2.capacity := by
  unfold BaseGraph.addVertex
  split
  · next v free hpop =>
      obtain ⟨hv, hfree⟩ := mem_of_popFree hpop
      exact ⟨fun u hu ↦ h u (hfree u hu), h v hv⟩
  · exact ⟨fun _ hu ↦ absurd hu List.not_mem_nil, Nat.lt_succ_self _⟩

theorem live_of_live_addVertex (h : (g.addVertex prop).2.Live u) (hne : u ≠ (g.addVertex prop).1) :
    g.Live u := by
  unfold Live addVertex at h
  unfold addVertex at hne
  split at h
  · next v free hpop =>
      rw [hpop] at hne
      rw [isEmpty_setVertex, if_neg hne] at h
      exact h
  · next hpop =>
      rw [hpop] at hne
      rw [isEmpty_setVertex, if_neg hne] at h
      exact ⟨Nat.lt_of_le_of_ne (Nat.le_of_lt_succ h.1) hne, h.2⟩

/-- `add_vertex` leaves the lists alone if the slot behind the end has none. -/
theorem outEdges_addVertex_of_nil (h : g.outEdges g.capacity = []) (prop : N) (u : ℕ) :
    (g.addVertex prop).2.outEdges u = g.outEdges u := by
  unfold addVertex
  split
  · rw [outEdges_setVertex]
    split
    next hu => exact hu ▸ rfl
    next => rfl
  · rw [outEdges_setVertex]
    split
    next hu => exact hu ▸ h.symm
    next => rfl

theorem inEdges_addVertex_of_nil (h : g.inEdges g.capacity = []) (prop : N) (u : ℕ) :
    (g.addVertex prop).2.inEdges u = g.inEdges u := by
  unfold addVertex
  split
  · rw [inEdges_setVertex]
    split
    next hu => exact hu ▸ rfl
    next => rfl
  · rw [inEdges_setVertex]
    split
    next hu => exact hu ▸ h.symm
    next => rfl

/-- `add_vertex` leaves the lists of the vertices alone. -/
theorem SlotsOk.edges_addVertex (h : g.SlotsOk) (prop : N) (hu : g.Live u) :
    (g.addVertex prop).2.outEdges u = g.outEdges u ∧
      (g.addVertex prop).2.inEdges u = g.inEdges u := by
  have hne : u ≠ (g.addVertex prop).1 := fun heq ↦ h.not_live_addVertex prop (heq ▸ hu)
  obtain ⟨v, free, -, -, hadd⟩ | ⟨-, hadd⟩ := h.addVertex_cases prop
  · rw [hadd] at hne ⊢
    rw [outEdges_setVertex, inEdges_setVertex, if_neg hne, if_neg hne]
    exact ⟨rfl, rfl⟩
  · rw [hadd] at hne ⊢
    rw [outEdges_setVertex, inEdges_setVertex, if_neg hne, if_neg hne]
    exact ⟨rfl, rfl⟩

theorem SlotsOk.edges_addVertex_new (h : g.SlotsOk) (prop : N) {e : Edge L}
    (he : e ∈ (g.addVertex prop).2.outEdges (g.addVertex prop).1 ∨
      e ∈ (g.addVertex prop).2.inEdges (g.addVertex prop).1) :
    e ∈ g.outEdges (g.addVertex prop).1 ∨ e ∈ g.inEdges (g.addVertex prop).1 := by
  obtain ⟨v, free, -, -, hadd⟩ | ⟨-, hadd⟩ := h.addVertex_cases prop
  · rw [hadd, outEdges_setVertex, inEdges_setVertex, if_pos rfl, if_pos rfl] at he
    rw [hadd]
    exact he
  · rw [hadd, outEdges_setVertex, inEdges_setVertex, if_pos rfl, if_pos rfl] at he
    rcases he with he | he
    · cases he
    · cases he

theorem SlotsOk.live_addVertex (h : g.SlotsOk) :
    (g.addVertex prop).2.Live u ↔ g.Live u ∨ u = (g.addVertex prop).1 := by
  obtain ⟨v, free, -, hv, hadd⟩ | ⟨-, hadd⟩ := h.addVertex_cases prop
  · rw [hadd]
    unfold Live
    rw [isEmpty_setVertex]
    by_cases huv : u = v
    · subst huv
      simpa [setVertex] using hv
    · simp [huv, setVertex, isEmpty]
  · rw [hadd]
    unfold Live
    rw [isEmpty_setVertex]
    by_cases hu : u = g.capacity
    · subst hu
      simp [setVertex]
    · have hlt : u < g.capacity + 1 ↔ u < g.capacity := by omega
      simp [hu, setVertex, isEmpty, hlt]

theorem SlotsOk.addVertex (h : g.SlotsOk) (prop : N) : (g.addVertex prop).2.SlotsOk := by
  obtain ⟨v, free, hfree, hv, hadd⟩ | ⟨hfree, hadd⟩ := h.addVertex_cases prop
  · rw [hadd]
    obtain ⟨hnot, hnodup⟩ := List.nodup_cons.mp (hfree ▸ h.nodup)
    refine ⟨hnodup, fun u ↦ ?_⟩
    have hmem := h.mem_free u
    rw [hfree, List.mem_cons] at hmem
    rw [isEmpty_setVertex]
    by_cases huv : u = v
    · subst huv
      simpa [setVertex] using hnot
    · rw [if_neg huv]
      exact (or_iff_right huv).symm.trans hmem
  · rw [hadd]
    refine ⟨.nil, fun u ↦ ⟨nofun, ?_⟩⟩
    rintro ⟨hu, hempty⟩
    rw [isEmpty_setVertex] at hempty
    split at hempty
    · cases hempty
    · next hne =>
        have hmem : u ∈ g.freeVertices :=
          (h.mem_free u).mpr ⟨Nat.lt_of_le_of_ne (Nat.lt_succ_iff.mp hu) hne, hempty⟩
        rwa [hfree] at hmem

/-! ## Removing a vertex -/

variable [DecidableEq L]

theorem live_removeVertex : (g.removeVertex v).Live u ↔ g.Live u ∧ u ≠ v := by
  unfold Live
  rw [capacity_removeVertex, isEmpty_removeVertex]
  by_cases huv : u = v
  · simp [huv]
  · simp [huv]

theorem SlotsOk.removeVertex (h : g.SlotsOk) (hv : g.Live v) : (g.removeVertex v).SlotsOk := by
  constructor
  · rw [freeVertices_removeVertex]
    exact List.nodup_cons.mpr ⟨fun hmem ↦ h.not_live_of_mem hmem hv, h.nodup⟩
  · intro u
    rw [freeVertices_removeVertex, capacity_removeVertex, isEmpty_removeVertex, List.mem_cons,
      h.mem_free]
    by_cases huv : u = v
    · subst huv
      simpa using hv.1
    · simp [huv]

end Cali.Graph.BaseGraph
