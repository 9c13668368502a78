import Mathlib.Data.List.Nodup
import Mathlib.Logic.Function.Basic

/-!
# `BaseGraph`: adjacency lists in both directions

`graph/basegraph.h` stores a directed multigraph as one record per vertex, with the
list of its outgoing and the list of its incoming edges.  Removed vertices keep
their slot, which a stack of free ids gives to later vertices.

The vector of vertices is a function on ids together with its length `capacity`.
`Mirrored` is the invariant that ties the two lists together; under it the graph is
the relation `HasEdge`, and each operation has a lemma saying what it does to it.
-/

namespace Cali.Graph

variable {N L : Type}

/-- `EdgeImplBase` -/
structure Edge (L : Type) where
  source : ℕ
  target : ℕ
  property : L
deriving DecidableEq, Repr

/-- `VertexImplBase` -/
structure VertexImpl (N L : Type) where
  outEdges : List (Edge L)
  inEdges : List (Edge L)
  property : N
  empty : Bool

/-- `BaseGraph`; `size` and `edge_size` are of type `size_t`, and the top of the
stack `free_vertices` is the head of the list. -/
structure BaseGraph (N L : Type) where
  size : BitVec 64
  edgeSize : BitVec 64
  freeVertices : List ℕ
  capacity : ℕ
  vertices : ℕ → VertexImpl N L

/-! ## `unique_vector` -/

section UniqueVector

variable {α : Type} [DecidableEq α]

/-- `unique_vector::insert` -/
def uniqueInsert (vec : List α) (x : α) : List α × Bool :=
  if x ∈ vec then (vec, false) else (vec ++ [x], true)

/-- `unique_vector::remove` -/
def uniqueRemove (vec : List α) (x : α) : List α × Bool := (vec.erase x, decide (x ∈ vec))

@[simp] theorem mem_uniqueInsert {vec : List α} {x y : α} :
    y ∈ (uniqueInsert vec x).1 ↔ y ∈ vec ∨ y = x := by
  unfold uniqueInsert
  split
  · next h =>
      constructor
      · exact Or.inl
      · rintro (hy | rfl)
        · exact hy
        · exact h
  · simp

theorem uniqueInsert_snd {vec : List α} {x : α} : (uniqueInsert vec x).2 = true ↔ x ∉ vec := by
  unfold uniqueInsert
  split <;> simp_all

theorem nodup_uniqueInsert {vec : List α} (h : vec.Nodup) (x : α) :
    (uniqueInsert vec x).1.Nodup := by
  unfold uniqueInsert
  split
  · exact h
  · next hx => exact List.nodup_append.mpr ⟨h, List.nodup_singleton x, by grind⟩

end UniqueVector

namespace BaseGraph

/-! ## Operations -/

/-- The empty graph; `prop` is the default of the node properties. -/
def nil (prop : N) : BaseGraph N L := ⟨0, 0, [], 0, fun _ ↦ ⟨[], [], prop, false⟩⟩

/-- `out_edges(v)` -/
def outEdges (g : BaseGraph N L) (v : ℕ) : List (Edge L) := (g.vertices v).outEdges

/-- `in_edges(v)` -/
def inEdges (g : BaseGraph N L) (v : ℕ) : List (Edge L) := (g.vertices v).inEdges

/-- `operator[]` -/
def property (g : BaseGraph N L) (v : ℕ) : N := (g.vertices v).property

/-- `vertices[v].empty` -/
def isEmpty (g : BaseGraph N L) (v : ℕ) : Bool := (g.vertices v).empty

/-- Replace the record of one vertex. -/
def setVertex (g : BaseGraph N L) (v : ℕ) (x : VertexImpl N L) : BaseGraph N L :=
  { g with vertices := Function.update g.vertices v x }

/-- Assign to the list of outgoing edges. -/
def setOutEdges (g : BaseGraph N L) (v : ℕ) (es : List (Edge L)) : BaseGraph N L :=
  g.setVertex v { g.vertices v with outEdges := es }

/-- Assign to the list of incoming edges. -/
def setInEdges (g : BaseGraph N L) (v : ℕ) (es : List (Edge L)) : BaseGraph N L :=
  g.setVertex v { g.vertices v with inEdges := es }

/-- Assign to the property of a vertex. -/
def setProperty (g : BaseGraph N L) (v : ℕ) (prop : N) : BaseGraph N L :=
  g.setVertex v { g.vertices v with property := prop }

/-- Assign to `edge_size`. -/
def setEdgeSize (g : BaseGraph N L) (n : BitVec 64) : BaseGraph N L := { g with edgeSize := n }

/-- The loop of `add_vertex` over the free ids: the first one that is not above the
end of the vector, and the rest of the stack. -/
def popFree (capacity : ℕ) : List ℕ → Option (ℕ × List ℕ)
  | [] => none
  | v :: free => if v ≤ capacity then some (v, free) else popFree capacity free

/-- `add_vertex` -/
def addVertex (g : BaseGraph N L) (prop : N) : ℕ × BaseGraph N L :=
  match popFree g.capacity g.freeVertices with
  | some (v, free) =>
    (v, { g with size := g.size + 1, freeVertices := free }.setVertex v
      { g.vertices v with empty := false, property := prop })
  | none =>
    (g.capacity, { g with
      size := g.size + 1, freeVertices := [], capacity := g.capacity + 1 }.setVertex g.capacity
        ⟨[], [], prop, false⟩)

section EdgeOperations

variable [DecidableEq L]

/-- `add_edge`: the incoming list is only touched when the edge was new in the
outgoing one. -/
def addEdge (g : BaseGraph N L) (v1 v2 : ℕ) (property : L) : BaseGraph N L :=
  let e : Edge L := ⟨v1, v2, property⟩
  let out := uniqueInsert (g.outEdges v1) e
  let g := g.setOutEdges v1 out.1
  if out.2 then
    let inn := uniqueInsert (g.inEdges v2) e
    let g := g.setInEdges v2 inn.1
    if inn.2 then g.setEdgeSize (g.edgeSize + 1) else g
  else
    g

/-- `vertices[e.source].out_edges.remove(e)` for the edges of a list. -/
def removeFromSources (g : BaseGraph N L) (es : List (Edge L)) : BaseGraph N L :=
  es.foldl (fun g e ↦ g.setOutEdges e.source (uniqueRemove (g.outEdges e.source) e).1) g

/-- `vertices[e.target].in_edges.remove(e)` for the edges of a list. -/
def removeFromTargets (g : BaseGraph N L) (es : List (Edge L)) : BaseGraph N L :=
  es.foldl (fun g e ↦ g.setInEdges e.target (uniqueRemove (g.inEdges e.target) e).1) g

/-- The first half of `remove_vertex`, up to the loops that take the edges at `v` out
of the lists of its neighbours.  The second loop runs over the outgoing edges the
first one has left, which no longer hold the loops at `v`. -/
def detach (g : BaseGraph N L) (v : ℕ) : BaseGraph N L :=
  let g := g.setEdgeSize (g.edgeSize - BitVec.ofNat 64 (g.inEdges v).length
    - BitVec.ofNat 64 (g.outEdges v).length)
  let g := g.removeFromSources (g.inEdges v)
  g.removeFromTargets (g.outEdges v)

/-- `remove_vertex` -/
def removeVertex (g : BaseGraph N L) (v : ℕ) : BaseGraph N L :=
  let g := g.detach v
  let g := g.setVertex v { g.vertices v with inEdges := [], outEdges := [], empty := true }
  { g with size := g.size - 1, freeVertices := v :: g.freeVertices }

end EdgeOperations

/-! ## The graph as a relation -/

/-- There is an edge from `u` to `w` with the property `p`. -/
def HasEdge (g : BaseGraph N L) (u : ℕ) (p : L) (w : ℕ) : Prop :=
  (⟨u, w, p⟩ : Edge L) ∈ g.outEdges u

instance [DecidableEq L] (g : BaseGraph N L) (u : ℕ) (p : L) (w : ℕ) :
    Decidable (g.HasEdge u p w) :=
  inferInstanceAs (Decidable (_ ∈ _))

/-- The two lists of a vertex hold its own edges, without repetition, and an edge is
in the list of its source exactly when it is in the list of its target. -/
structure Mirrored (g : BaseGraph N L) : Prop where
  source_eq : ∀ {u e}, e ∈ g.outEdges u → e.source = u
  target_eq : ∀ {u e}, e ∈ g.inEdges u → e.target = u
  mem_inEdges_iff : ∀ e, e ∈ g.inEdges e.target ↔ e ∈ g.outEdges e.source
  outEdges_nodup : ∀ u, (g.outEdges u).Nodup
  inEdges_nodup : ∀ u, (g.inEdges u).Nodup

variable {g : BaseGraph N L}

theorem Mirrored.congr {g' : BaseGraph N L} (hm : g.Mirrored)
    (hout : ∀ u, g'.outEdges u = g.outEdges u) (hin : ∀ u, g'.inEdges u = g.inEdges u) :
    g'.Mirrored where
  source_eq {u e} h := hm.source_eq (hout u ▸ h)
  target_eq {u e} h := hm.target_eq (hin u ▸ h)
  mem_inEdges_iff e := by rw [hin, hout, hm.mem_inEdges_iff]
  outEdges_nodup u := hout u ▸ hm.outEdges_nodup u
  inEdges_nodup u := hin u ▸ hm.inEdges_nodup u

theorem Mirrored.mem_outEdges_iff (hm : g.Mirrored) {u : ℕ} {e : Edge L} :
    e ∈ g.outEdges u ↔ e.source = u ∧ g.HasEdge u e.property e.target := by
  constructor
  · intro h
    obtain rfl := hm.source_eq h
    exact ⟨rfl, h⟩
  · rintro ⟨rfl, h⟩
    exact h

theorem Mirrored.mem_inEdges_iff_hasEdge (hm : g.Mirrored) {u : ℕ} {e : Edge L} :
    e ∈ g.inEdges u ↔ e.target = u ∧ g.HasEdge e.source e.property u := by
  constructor
  · intro h
    obtain rfl := hm.target_eq h
    exact ⟨rfl, (hm.mem_inEdges_iff e).mp h⟩
  · rintro ⟨rfl, h⟩
    exact (hm.mem_inEdges_iff e).mpr h

/-! ## What the operations do to the lists -/

theorem vertices_setVertex (v u : ℕ) (x : VertexImpl N L) :
    (g.setVertex v x).vertices u = if u = v then x else g.vertices u := by
  unfold setVertex
  by_cases h : u = v
  · simp [h]
  · simp [h]

theorem outEdges_setVertex (v u : ℕ) (x : VertexImpl N L) :
    (g.setVertex v x).outEdges u = if u = v then x.outEdges else g.outEdges u := by
  unfold outEdges
  rw [vertices_setVertex]
  split <;> rfl

theorem inEdges_setVertex (v u : ℕ) (x : VertexImpl N L) :
    (g.setVertex v x).inEdges u = if u = v then x.inEdges else g.inEdges u := by
  unfold inEdges
  rw [vertices_setVertex]
  split <;> rfl

@[simp] theorem outEdges_setOutEdges (v u : ℕ) (es : List (Edge L)) :
    (g.setOutEdges v es).outEdges u = if u = v then es else g.outEdges u :=
  outEdges_setVertex ..

@[simp] theorem inEdges_setOutEdges (v u : ℕ) (es : List (Edge L)) :
    (g.setOutEdges v es).inEdges u = g.inEdges u := by
  unfold setOutEdges
  rw [inEdges_setVertex, ite_eq_right_iff]
  rintro rfl
  rfl

@[simp] theorem outEdges_setInEdges (v u : ℕ) (es : List (Edge L)) :
    (g.setInEdges v es).outEdges u = g.outEdges u := by
  unfold setInEdges
  rw [outEdges_setVertex, ite_eq_right_iff]
  rintro rfl
  rfl

@[simp] theorem inEdges_setInEdges (v u : ℕ) (es : List (Edge L)) :
    (g.setInEdges v es).inEdges u = if u = v then es else g.inEdges u :=
  inEdges_setVertex ..

@[simp] theorem outEdges_setProperty (v u : ℕ) (prop : N) :
    (g.setProperty v prop).outEdges u = g.outEdges u := by
  unfold setProperty
  rw [outEdges_setVertex, ite_eq_right_iff]
  rintro rfl
  rfl

@[simp] theorem inEdges_setProperty (v u : ℕ) (prop : N) :
    (g.setProperty v prop).inEdges u = g.inEdges u := by
  unfold setProperty
  rw [inEdges_setVertex, ite_eq_right_iff]
  rintro rfl
  rfl

@[simp] theorem outEdges_setEdgeSize (n : BitVec 64) (u : ℕ) :
    (g.setEdgeSize n).outEdges u = g.outEdges u := rfl

@[simp] theorem inEdges_setEdgeSize (n : BitVec 64) (u : ℕ) :
    (g.setEdgeSize n).inEdges u = g.inEdges u := rfl

variable [DecidableEq L]

theorem outEdges_addEdge (v1 v2 u : ℕ) (p : L) :
    (g.addEdge v1 v2 p).outEdges u =
      if u = v1 then (uniqueInsert (g.outEdges v1) ⟨v1, v2, p⟩).1 else g.outEdges u := by
  unfold addEdge
  simp only
  split
  · split <;> simp
  · simp

theorem inEdges_addEdge (v1 v2 u : ℕ) (p : L) :
    (g.addEdge v1 v2 p).inEdges u =
      if u = v2 ∧ ¬ g.HasEdge v1 p v2 then (uniqueInsert (g.inEdges v2) ⟨v1, v2, p⟩).1
      else g.inEdges u := by
  unfold addEdge
  simp only
  by_cases h : g.HasEdge v1 p v2
  · rw [if_neg fun hins ↦ uniqueInsert_snd.mp hins h]
    simp [h]
  · rw [if_pos (uniqueInsert_snd.mpr h)]
    split <;> simp [h]

/-- `add_edge` adds the edge and nothing else. -/
@[simp] theorem hasEdge_addEdge {v1 v2 u w : ℕ} {p q : L} :
    (g.addEdge v1 v2 p).HasEdge u q w ↔ g.HasEdge u q w ∨ u = v1 ∧ q = p ∧ w = v2 := by
  unfold HasEdge
  rw [outEdges_addEdge]
  by_cases h : u = v1
  · subst h
    simp
    tauto
  · simp [h]

theorem Mirrored.addEdge (hm : g.Mirrored) (v1 v2 : ℕ) (p : L) :
    (g.addEdge v1 v2 p).Mirrored where
  source_eq {u e} h := by
    rw [outEdges_addEdge] at h
    split at h
    · next hu =>
        rcases mem_uniqueInsert.mp h with h | rfl
        · exact (hm.source_eq h).trans hu.symm
        · exact hu.symm
    · exact hm.source_eq h
  target_eq {u e} h := by
    rw [inEdges_addEdge] at h
    split at h
    · next hu =>
        rcases mem_uniqueInsert.mp h with h | rfl
        · exact (hm.target_eq h).trans hu.1.symm
        · exact hu.1.symm
    · exact hm.target_eq h
  mem_inEdges_iff e := by
    have hout : e ∈ (g.addEdge v1 v2 p).outEdges e.source ↔
        e ∈ g.outEdges e.source ∨ e = ⟨v1, v2, p⟩ := by
      obtain ⟨u, w, q⟩ := e
      simpa [HasEdge, and_comm] using hasEdge_addEdge (g := g)
    have hin : e ∈ (g.addEdge v1 v2 p).inEdges e.target ↔
        e ∈ g.inEdges e.target ∨ e = ⟨v1, v2, p⟩ := by
      rw [inEdges_addEdge]
      by_cases hold : g.HasEdge v1 p v2
      · have : (⟨v1, v2, p⟩ : Edge L) ∈ g.inEdges v2 := (hm.mem_inEdges_iff ⟨v1, v2, p⟩).mpr hold
        simp only [hold, not_true, and_false, ↓reduceIte, iff_self_or]
        rintro rfl
        exact this
      · by_cases ht : e.target = v2
        · simp [hold, ht]
        · simp only [ht, false_and, ↓reduceIte, iff_self_or]
          rintro rfl
          exact absurd rfl ht
    rw [hin, hout, hm.mem_inEdges_iff]
  outEdges_nodup u := by
    rw [outEdges_addEdge]
    split
    · exact nodup_uniqueInsert (hm.outEdges_nodup v1) _
    · exact hm.outEdges_nodup u
  inEdges_nodup u := by
    rw [inEdges_addEdge]
    split
    · exact nodup_uniqueInsert (hm.inEdges_nodup v2) _
    · exact hm.inEdges_nodup u

/-! ### Removal -/

theorem outEdges_removeFromSources (es : List (Edge L)) (u : ℕ) :
    (g.removeFromSources es).outEdges u = (g.outEdges u).diff (es.filter (·.source = u)) := by
  induction es generalizing g with
  | nil => rfl
  | cons e es ih =>
    unfold removeFromSources at ih ⊢
    rw [List.foldl_cons, ih, List.filter_cons, outEdges_setOutEdges]
    by_cases h : e.source = u
    · simp [h, uniqueRemove, List.diff_cons]
    · simp [h, Ne.symm h]

theorem inEdges_removeFromSources (es : List (Edge L)) (u : ℕ) :
    (g.removeFromSources es).inEdges u = g.inEdges u := by
  induction es generalizing g with
  | nil => rfl
  | cons e es ih =>
    unfold removeFromSources at ih ⊢
    rw [List.foldl_cons, ih, inEdges_setOutEdges]

theorem inEdges_removeFromTargets (es : List (Edge L)) (u : ℕ) :
    (g.removeFromTargets es).inEdges u = (g.inEdges u).diff (es.filter (·.target = u)) := by
  induction es generalizing g with
  | nil => rfl
  | cons e es ih =>
    unfold removeFromTargets at ih ⊢
    rw [List.foldl_cons, ih, List.filter_cons, inEdges_setInEdges]
    by_cases h : e.target = u
    · simp [h, uniqueRemove, List.diff_cons]
    · simp [h, Ne.symm h]

theorem outEdges_removeFromTargets (es : List (Edge L)) (u : ℕ) :
    (g.removeFromTargets es).outEdges u = g.outEdges u := by
  induction es generalizing g with
  | nil => rfl
  | cons e es ih =>
    unfold removeFromTargets at ih ⊢
    rw [List.foldl_cons, ih, outEdges_setInEdges]

theorem outEdges_detach (v u : ℕ) :
    (g.detach v).outEdges u = (g.outEdges u).diff ((g.inEdges v).filter (·.source = u)) := by
  unfold detach
  simp only [outEdges_removeFromTargets]
  rw [outEdges_removeFromSources]
  rfl

theorem inEdges_detach (v u : ℕ) :
    (g.detach v).inEdges u = (g.inEdges u).diff
      (((g.outEdges v).diff ((g.inEdges v).filter (·.source = v))).filter (·.target = u)) := by
  unfold detach
  simp only [inEdges_removeFromTargets, inEdges_removeFromSources, outEdges_removeFromSources]
  rfl

theorem outEdges_removeVertex (v u : ℕ) :
    (g.removeVertex v).outEdges u = if u = v then [] else (g.detach v).outEdges u :=
  outEdges_setVertex ..

theorem inEdges_removeVertex (v u : ℕ) :
    (g.removeVertex v).inEdges u = if u = v then [] else (g.detach v).inEdges u :=
  inEdges_setVertex ..

/-- `remove_vertex` removes the edges at the vertex and nothing else. -/
theorem Mirrored.hasEdge_removeVertex (hm : g.Mirrored) {v u w : ℕ} {p : L} :
    (g.removeVertex v).HasEdge u p w ↔ g.HasEdge u p w ∧ u ≠ v ∧ w ≠ v := by
  unfold HasEdge
  rw [outEdges_removeVertex]
  by_cases hu : u = v
  · simp [hu]
  · rw [if_neg hu, outEdges_detach, (hm.outEdges_nodup u).mem_sdiff_iff, List.mem_filter,
      hm.mem_inEdges_iff_hasEdge, HasEdge]
    simp only [decide_true, and_true, not_and]
    constructor
    · rintro ⟨h, hnot⟩
      exact ⟨h, hu, fun hw ↦ hnot hw (hw ▸ h)⟩
    · rintro ⟨h, -, hw⟩
      exact ⟨h, fun hw' ↦ absurd hw' hw⟩

theorem Mirrored.mem_inEdges_removeVertex (hm : g.Mirrored) {v u : ℕ} {e : Edge L} :
    e ∈ (g.removeVertex v).inEdges u ↔ e ∈ g.inEdges u ∧ u ≠ v ∧ e.source ≠ v := by
  rw [inEdges_removeVertex]
  by_cases hu : u = v
  · simp [hu]
  · rw [if_neg hu, inEdges_detach, (hm.inEdges_nodup u).mem_sdiff_iff, List.mem_filter,
      (hm.outEdges_nodup v).mem_sdiff_iff, List.mem_filter]
    constructor
    · rintro ⟨h, hnot⟩
      refine ⟨h, hu, fun hs ↦ hnot ⟨⟨?_, ?_⟩, ?_⟩⟩
      · rw [← hs]
        exact (hm.mem_inEdges_iff e).mp (hm.target_eq h ▸ h)
      · rintro ⟨hloop, -⟩
        exact hu ((hm.target_eq h).symm.trans (hm.target_eq hloop))
      · simpa using hm.target_eq h
    · rintro ⟨h, -, hs⟩
      exact ⟨h, fun hout ↦ hs (hm.source_eq hout.1.1)⟩

theorem Mirrored.removeVertex (hm : g.Mirrored) (v : ℕ) : (g.removeVertex v).Mirrored where
  source_eq {u e} h := by
    rw [outEdges_removeVertex] at h
    split at h
    · simp at h
    · rw [outEdges_detach] at h
      exact hm.source_eq (List.diff_subset _ _ h)
  target_eq {u e} h := hm.target_eq (hm.mem_inEdges_removeVertex.mp h).1
  mem_inEdges_iff e := by
    obtain ⟨u, w, p⟩ := e
    rw [hm.mem_inEdges_removeVertex, hm.mem_inEdges_iff]
    have := hm.hasEdge_removeVertex (v := v) (u := u) (w := w) (p := p)
    unfold HasEdge at this
    rw [this]
    tauto
  outEdges_nodup u := by
    rw [outEdges_removeVertex]
    split
    · exact List.nodup_nil
    · rw [outEdges_detach]
      exact (hm.outEdges_nodup u).diff
  inEdges_nodup u := by
    rw [inEdges_removeVertex]
    split
    · exact List.nodup_nil
    · rw [inEdges_detach]
      exact (hm.inEdges_nodup u).diff

/-! ## What the operations leave alone -/

omit [DecidableEq L] in
theorem property_setVertex (v u : ℕ) (x : VertexImpl N L) :
    (g.setVertex v x).property u = if u = v then x.property else g.property u := by
  unfold property
  rw [vertices_setVertex]
  split <;> rfl

omit [DecidableEq L] in
theorem isEmpty_setVertex (v u : ℕ) (x : VertexImpl N L) :
    (g.setVertex v x).isEmpty u = if u = v then x.empty else g.isEmpty u := by
  unfold isEmpty
  rw [vertices_setVertex]
  split <;> rfl

omit [DecidableEq L] in
@[simp] theorem property_setProperty (v u : ℕ) (prop : N) :
    (g.setProperty v prop).property u = if u = v then prop else g.property u :=
  property_setVertex ..

omit [DecidableEq L] in
@[simp] theorem isEmpty_setProperty (v u : ℕ) (prop : N) :
    (g.setProperty v prop).isEmpty u = g.isEmpty u := by
  unfold setProperty
  rw [isEmpty_setVertex, ite_eq_right_iff]
  rintro rfl
  rfl

/-- The parts of a graph that edges do not touch. -/
structure SameNodes (g g' : BaseGraph N L) : Prop where
  property : ∀ u, g'.property u = g.property u
  isEmpty : ∀ u, g'.isEmpty u = g.isEmpty u
  capacity : g'.capacity = g.capacity
  freeVertices : g'.freeVertices = g.freeVertices
  size : g'.size = g.size

omit [DecidableEq L] in
theorem SameNodes.refl (g : BaseGraph N L) : SameNodes g g :=
  ⟨fun _ ↦ rfl, fun _ ↦ rfl, rfl, rfl, rfl⟩

omit [DecidableEq L] in
theorem SameNodes.trans {g g' g'' : BaseGraph N L} (h : SameNodes g g') (h' : SameNodes g' g'') :
    SameNodes g g'' :=
  ⟨fun u ↦ (h'.property u).trans (h.property u), fun u ↦ (h'.isEmpty u).trans (h.isEmpty u),
    h'.capacity.trans h.capacity, h'.freeVertices.trans h.freeVertices, h'.size.trans h.size⟩

omit [DecidableEq L] in
theorem sameNodes_setOutEdges (v : ℕ) (es : List (Edge L)) : SameNodes g (g.setOutEdges v es) := by
  refine ⟨fun u ↦ ?_, fun u ↦ ?_, rfl, rfl, rfl⟩
  · unfold setOutEdges
    rw [property_setVertex, ite_eq_right_iff]
    rintro rfl
    rfl
  · unfold setOutEdges
    rw [isEmpty_setVertex, ite_eq_right_iff]
    rintro rfl
    rfl

omit [DecidableEq L] in
theorem sameNodes_setInEdges (v : ℕ) (es : List (Edge L)) : SameNodes g (g.setInEdges v es) := by
  refine ⟨fun u ↦ ?_, fun u ↦ ?_, rfl, rfl, rfl⟩
  · unfold setInEdges
    rw [property_setVertex, ite_eq_right_iff]
    rintro rfl
    rfl
  · unfold setInEdges
    rw [isEmpty_setVertex, ite_eq_right_iff]
    rintro rfl
    rfl

omit [DecidableEq L] in
theorem sameNodes_setEdgeSize (n : BitVec 64) : SameNodes g (g.setEdgeSize n) :=
  ⟨fun _ ↦ rfl, fun _ ↦ rfl, rfl, rfl, rfl⟩

theorem sameNodes_addEdge (g : BaseGraph N L) (v1 v2 : ℕ) (p : L) :
    SameNodes g (g.addEdge v1 v2 p) := by
  unfold addEdge
  simp only
  split
  · split
    · exact ((sameNodes_setOutEdges ..).trans (sameNodes_setInEdges ..)).trans
        (sameNodes_setEdgeSize _)
    · exact (sameNodes_setOutEdges ..).trans (sameNodes_setInEdges ..)
  · exact sameNodes_setOutEdges ..

theorem sameNodes_removeFromSources (es : List (Edge L)) :
    SameNodes g (g.removeFromSources es) := by
  induction es generalizing g with
  | nil => exact SameNodes.refl g
  | cons e es ih => exact (sameNodes_setOutEdges ..).trans ih

theorem sameNodes_removeFromTargets (es : List (Edge L)) :
    SameNodes g (g.removeFromTargets es) := by
  induction es generalizing g with
  | nil => exact SameNodes.refl g
  | cons e es ih => exact (sameNodes_setInEdges ..).trans ih

theorem sameNodes_detach (g : BaseGraph N L) (v : ℕ) : SameNodes g (g.detach v) :=
  ((sameNodes_setEdgeSize _).trans (sameNodes_removeFromSources _)).trans
    (sameNodes_removeFromTargets _)

@[simp] theorem property_removeVertex (v u : ℕ) :
    (g.removeVertex v).property u = g.property u := by
  change (setVertex _ v _).property u = _
  rw [property_setVertex]
  split
  · next h => exact h ▸ (sameNodes_detach g v).property u
  · exact (sameNodes_detach g v).property u

@[simp] theorem isEmpty_removeVertex (v u : ℕ) :
    (g.removeVertex v).isEmpty u = if u = v then true else g.isEmpty u := by
  change (setVertex _ v _).isEmpty u = _
  rw [isEmpty_setVertex, (sameNodes_detach g v).isEmpty]

@[simp] theorem capacity_removeVertex (v : ℕ) : (g.removeVertex v).capacity = g.capacity :=
  (sameNodes_detach g v).capacity

@[simp] theorem freeVertices_removeVertex (v : ℕ) :
    (g.removeVertex v).freeVertices = v :: g.freeVertices :=
  congrArg (v :: ·) (sameNodes_detach g v).freeVertices

end BaseGraph

end Cali.Graph
