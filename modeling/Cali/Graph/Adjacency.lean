import Cali.Graph.Slots
import Cali.Lib.LabelledGraph
import Cali.Lib.Run

/-!
# The graph that the adjacency lists stand for

What a `BaseGraph` is for is a labelled directed graph: a set of vertices and a relation.  The
calls of its clients are steps between such graphs, and the lists follow them: `Represents`
ties a `BaseGraph` to the graph it stands for, and every call of a client that keeps to the
contract preserves it.  That each edge is stored twice, and once only, follows.
-/

namespace Cali.Graph

open Cali.Lib

variable {N L : Type}

/-- `unique_vector::insert_unique` -/
def uniqueInsertUnique {α : Type} (vec : List α) (x : α) : List α × Bool := (vec ++ [x], true)

namespace BaseGraph

/-- `add_edge_unique` -/
def addEdgeUnique (g : BaseGraph N L) (v1 v2 : ℕ) (property : L) : BaseGraph N L :=
  let e : Edge L := ⟨v1, v2, property⟩
  let out := uniqueInsertUnique (g.outEdges v1) e
  let g := g.setOutEdges v1 out.1
  if out.2 then
    let inn := uniqueInsertUnique (g.inEdges v2) e
    let g := g.setInEdges v2 inn.1
    if inn.2 then g.setEdgeSize (g.edgeSize + 1) else g
  else
    g

/-- `remove_edge`: both lists are searched, whatever the first one answers. -/
def removeEdge [DecidableEq L] (g : BaseGraph N L) (e : Edge L) : BaseGraph N L :=
  let out := uniqueRemove (g.outEdges e.source) e
  let g := g.setOutEdges e.source out.1
  let inn := uniqueRemove (g.inEdges e.target) e
  let g := g.setInEdges e.target inn.1
  if out.2 && inn.2 then g.setEdgeSize (g.edgeSize - 1) else g

/-! ## Edges -/

section Edges

variable [DecidableEq L] {g : BaseGraph N L} {v1 v2 : ℕ} {p : L}

theorem Mirrored.addEdgeUnique_eq (hm : g.Mirrored) (h : ¬ g.HasEdge v1 p v2) :
    g.addEdgeUnique v1 v2 p = g.addEdge v1 v2 p := by
  have hout : (⟨v1, v2, p⟩ : Edge L) ∉ g.outEdges v1 := h
  have hin : (⟨v1, v2, p⟩ : Edge L) ∉ g.inEdges v2 :=
    fun hin ↦ h ((hm.mem_inEdges_iff ⟨v1, v2, p⟩).mp hin)
  unfold BaseGraph.addEdgeUnique BaseGraph.addEdge uniqueInsertUnique uniqueInsert
  simp only [inEdges_setOutEdges, hout, hin, ↓reduceIte]

theorem outEdges_removeEdge (e : Edge L) (u : ℕ) :
    (g.removeEdge e).outEdges u =
      if u = e.source then (g.outEdges e.source).erase e else g.outEdges u := by
  unfold removeEdge
  simp only
  split
  · simp [uniqueRemove]
  · simp [uniqueRemove]

theorem inEdges_removeEdge (e : Edge L) (u : ℕ) :
    (g.removeEdge e).inEdges u =
      if u = e.target then (g.inEdges e.target).erase e else g.inEdges u := by
  unfold removeEdge
  simp only
  split
  · simp [uniqueRemove]
  · simp [uniqueRemove]

theorem sameNodes_removeEdge (g : BaseGraph N L) (e : Edge L) : SameNodes g (g.removeEdge e) := by
  unfold removeEdge
  simp only
  split
  · exact ((sameNodes_setOutEdges ..).trans (sameNodes_setInEdges ..)).trans
      (sameNodes_setEdgeSize _)
  · exact (sameNodes_setOutEdges ..).trans (sameNodes_setInEdges ..)

theorem Mirrored.mem_outEdges_removeEdge (hm : g.Mirrored) {e e' : Edge L} {u : ℕ} :
    e' ∈ (g.removeEdge e).outEdges u ↔ e' ∈ g.outEdges u ∧ e' ≠ e := by
  rw [outEdges_removeEdge]
  split
  next hu => rw [hu, (hm.outEdges_nodup _).mem_erase_iff, and_comm]
  next hu =>
      refine ⟨fun h ↦ ⟨h, ?_⟩, fun h ↦ h.1⟩
      rintro rfl
      exact hu (hm.source_eq h).symm

theorem Mirrored.mem_inEdges_removeEdge (hm : g.Mirrored) {e e' : Edge L} {u : ℕ} :
    e' ∈ (g.removeEdge e).inEdges u ↔ e' ∈ g.inEdges u ∧ e' ≠ e := by
  rw [inEdges_removeEdge]
  split
  next hu => rw [hu, (hm.inEdges_nodup _).mem_erase_iff, and_comm]
  next hu =>
      refine ⟨fun h ↦ ⟨h, ?_⟩, fun h ↦ h.1⟩
      rintro rfl
      exact hu (hm.target_eq h).symm

theorem Mirrored.removeEdge (hm : g.Mirrored) (e : Edge L) : (g.removeEdge e).Mirrored where
  source_eq h := hm.source_eq (hm.mem_outEdges_removeEdge.mp h).1
  target_eq h := hm.target_eq (hm.mem_inEdges_removeEdge.mp h).1
  mem_inEdges_iff e' := by
    rw [hm.mem_inEdges_removeEdge, hm.mem_outEdges_removeEdge, hm.mem_inEdges_iff]
  outEdges_nodup u := by
    rw [outEdges_removeEdge]
    split
    · exact (hm.outEdges_nodup e.source).erase e
    · exact hm.outEdges_nodup u
  inEdges_nodup u := by
    rw [inEdges_removeEdge]
    split
    · exact (hm.inEdges_nodup e.target).erase e
    · exact hm.inEdges_nodup u

/-- `remove_edge` removes the edge and nothing else. -/
theorem Mirrored.hasEdge_removeEdge (hm : g.Mirrored) {e : Edge L} {u w : ℕ} {q : L} :
    (g.removeEdge e).HasEdge u q w ↔
      g.HasEdge u q w ∧ ¬ (u = e.source ∧ q = e.property ∧ w = e.target) := by
  unfold HasEdge
  rw [hm.mem_outEdges_removeEdge]
  obtain ⟨v1, v2, p⟩ := e
  simp [and_comm]

end Edges

/-! ## The calls of the clients -/

inductive Call (N L : Type)
  | addVertex (prop : N)
  | addEdge (v1 v2 : ℕ) (property : L)
  | addEdgeUnique (v1 v2 : ℕ) (property : L)
  | removeEdge (e : Edge L)
  | removeVertex (v : ℕ)

/-- The contract: arguments are live, and `add_edge_unique` gets an edge that is not there. -/
def Call.Ok (g : BaseGraph N L) : Call N L → Prop
  | .addVertex _ => True
  | .addEdge v1 v2 _ => g.Live v1 ∧ g.Live v2
  | .addEdgeUnique v1 v2 p => g.Live v1 ∧ g.Live v2 ∧ ¬ g.HasEdge v1 p v2
  | .removeEdge e => g.Live e.source ∧ g.Live e.target
  | .removeVertex v => g.Live v

variable [DecidableEq L]

instance (g : BaseGraph N L) (c : Call N L) : Decidable (c.Ok g) :=
  match c with
  | .addVertex _ => isTrue trivial
  | .addEdge .. => inferInstanceAs (Decidable (_ ∧ _))
  | .addEdgeUnique .. => inferInstanceAs (Decidable (_ ∧ _ ∧ ¬ _))
  | .removeEdge .. => inferInstanceAs (Decidable (_ ∧ _))
  | .removeVertex _ => inferInstanceAs (Decidable (Live _ _))

def exec (g : BaseGraph N L) : Call N L → BaseGraph N L
  | .addVertex prop => (g.addVertex prop).2
  | .addEdge v1 v2 p => g.addEdge v1 v2 p
  | .addEdgeUnique v1 v2 p => g.addEdgeUnique v1 v2 p
  | .removeEdge e => g.removeEdge e
  | .removeVertex v => g.removeVertex v

def Step (g : BaseGraph N L) (c : Call N L) (g' : BaseGraph N L) : Prop := c.Ok g ∧ g' = g.exec c

/-- The calls as steps between the graphs that the lists stand for. -/
inductive Follows (d : LabelledGraph ℕ L) : Call N L → LabelledGraph ℕ L → Prop
  | addVertex {prop : N} {v : ℕ} (h : v ∉ d.vertices) :
      Follows d (.addVertex prop) (d.insertVertex v)
  | addEdge {v1 v2 : ℕ} {p : L} (h1 : v1 ∈ d.vertices) (h2 : v2 ∈ d.vertices) :
      Follows d (.addEdge v1 v2 p) (d.insertEdge v1 p v2 h1 h2)
  | addEdgeUnique {v1 v2 : ℕ} {p : L} (h1 : v1 ∈ d.vertices) (h2 : v2 ∈ d.vertices)
      (h : ¬ d.edges v1 p v2) : Follows d (.addEdgeUnique v1 v2 p) (d.insertEdge v1 p v2 h1 h2)
  | removeEdge {e : Edge L} :
      Follows d (.removeEdge e) (d.eraseEdge e.source e.property e.target)
  | removeVertex {v : ℕ} (h : v ∈ d.vertices) : Follows d (.removeVertex v) (d.eraseVertex v)

/-! ## The lists stand for a graph -/

section Representation

variable {g g' : BaseGraph N L} {d : LabelledGraph ℕ L} {c : Call N L} {u v w : ℕ} {p : L}

structure Represents (g : BaseGraph N L) (d : LabelledGraph ℕ L) : Prop where
  mirrored : g.Mirrored
  slots : g.SlotsOk
  live : ∀ v, g.Live v ↔ v ∈ d.vertices
  edges : ∀ u p w, g.HasEdge u p w ↔ d.edges u p w

omit [DecidableEq L] in
theorem represents_nil (prop : N) : (nil prop : BaseGraph N L).Represents .empty where
  mirrored := ⟨nofun, nofun, fun _ ↦ ⟨nofun, nofun⟩, fun _ ↦ .nil, fun _ ↦ .nil⟩
  slots := slotsOk_nil prop
  live := fun v ↦ ⟨fun h ↦ absurd h.1 (Nat.not_lt_zero v), nofun⟩
  edges := fun _ _ _ ↦ ⟨nofun, nofun⟩

omit [DecidableEq L] in
theorem SameNodes.live (h : SameNodes g g') : g'.Live v ↔ g.Live v := by
  unfold Live
  rw [h.capacity, h.isEmpty]

omit [DecidableEq L] in
theorem SameNodes.slotsOk (h : SameNodes g g') (hs : g.SlotsOk) : g'.SlotsOk := by
  refine ⟨h.freeVertices ▸ hs.nodup, fun v ↦ ?_⟩
  rw [h.freeVertices, h.capacity, h.isEmpty]
  exact hs.mem_free v

omit [DecidableEq L] in
theorem Represents.live_of_mem_outEdges (h : g.Represents d) {e : Edge L}
    (he : e ∈ g.outEdges u) : g.Live e.source ∧ g.Live e.target := by
  obtain ⟨rfl, hedge⟩ := h.mirrored.mem_outEdges_iff.mp he
  have hd := (h.edges ..).mp hedge
  exact ⟨(h.live _).mpr (d.source_mem hd), (h.live _).mpr (d.target_mem hd)⟩

omit [DecidableEq L] in
theorem Represents.live_of_mem_inEdges (h : g.Represents d) {e : Edge L}
    (he : e ∈ g.inEdges u) : g.Live e.source ∧ g.Live e.target := by
  obtain ⟨rfl, hedge⟩ := h.mirrored.mem_inEdges_iff_hasEdge.mp he
  exact h.live_of_mem_outEdges hedge

omit [DecidableEq L] in
theorem Represents.edges_eq_nil (h : g.Represents d) (hv : ¬ g.Live v) :
    g.outEdges v = [] ∧ g.inEdges v = [] := by
  refine ⟨List.eq_nil_iff_forall_not_mem.mpr fun e he ↦ hv ?_,
    List.eq_nil_iff_forall_not_mem.mpr fun e he ↦ hv ?_⟩
  · exact h.mirrored.source_eq he ▸ (h.live_of_mem_outEdges he).1
  · exact h.mirrored.target_eq he ▸ (h.live_of_mem_inEdges he).2

omit [DecidableEq L] in
theorem Represents.addVertex (h : g.Represents d) (prop : N) :
    (g.addVertex prop).2.Represents (d.insertVertex (g.addVertex prop).1) := by
  obtain ⟨hout, hin⟩ := h.edges_eq_nil fun hlive ↦ Nat.lt_irrefl g.capacity hlive.1
  have hout := outEdges_addVertex_of_nil hout prop
  have hin := inEdges_addVertex_of_nil hin prop
  refine ⟨h.mirrored.congr hout hin, h.slots.addVertex prop, fun v ↦ ?_, fun u p w ↦ ?_⟩
  · rw [h.slots.live_addVertex, h.live, or_comm]
    rfl
  · unfold HasEdge
    rw [hout]
    exact h.edges u p w

theorem Represents.addEdge (h : g.Represents d) (h1 : u ∈ d.vertices) (h2 : w ∈ d.vertices) :
    (g.addEdge u w p).Represents (d.insertEdge u p w h1 h2) where
  mirrored := h.mirrored.addEdge u w p
  slots := (sameNodes_addEdge g u w p).slotsOk h.slots
  live := fun v ↦ (sameNodes_addEdge g u w p).live.trans (h.live v)
  edges := fun x q y ↦ by
    rw [hasEdge_addEdge, h.edges]
    rfl

theorem Represents.removeEdge (h : g.Represents d) (e : Edge L) :
    (g.removeEdge e).Represents (d.eraseEdge e.source e.property e.target) where
  mirrored := h.mirrored.removeEdge e
  slots := (sameNodes_removeEdge g e).slotsOk h.slots
  live := fun v ↦ (sameNodes_removeEdge g e).live.trans (h.live v)
  edges := fun x q y ↦ by
    rw [h.mirrored.hasEdge_removeEdge, h.edges]
    rfl

theorem Represents.removeVertex (h : g.Represents d) (hv : g.Live v) :
    (g.removeVertex v).Represents (d.eraseVertex v) where
  mirrored := h.mirrored.removeVertex v
  slots := h.slots.removeVertex hv
  live := fun u ↦ by
    rw [live_removeVertex, h.live]
    rfl
  edges := fun x q y ↦ by
    rw [h.mirrored.hasEdge_removeVertex, h.edges]
    rfl

/-- **The lists follow the graph** with every call that keeps to the contract. -/
theorem Represents.step (h : g.Represents d) (hstep : Step g c g') :
    ∃ d', Follows d c d' ∧ g'.Represents d' := by
  obtain ⟨hok, rfl⟩ := hstep
  cases c with
  | addVertex prop =>
    have hfresh := h.slots.not_live_addVertex prop
    rw [h.live] at hfresh
    exact ⟨_, .addVertex hfresh, h.addVertex prop⟩
  | addEdge v1 v2 p =>
    have h1 := (h.live v1).mp hok.1
    have h2 := (h.live v2).mp hok.2
    exact ⟨_, .addEdge h1 h2, h.addEdge h1 h2⟩
  | addEdgeUnique v1 v2 p =>
    obtain ⟨hlive1, hlive2, hnew⟩ := hok
    have h1 := (h.live v1).mp hlive1
    have h2 := (h.live v2).mp hlive2
    refine ⟨_, .addEdgeUnique h1 h2 fun hd ↦ hnew ((h.edges ..).mpr hd), ?_⟩
    show (g.addEdgeUnique v1 v2 p).Represents _
    rw [h.mirrored.addEdgeUnique_eq hnew]
    exact h.addEdge h1 h2
  | removeEdge e => exact ⟨_, .removeEdge, h.removeEdge e⟩
  | removeVertex v => exact ⟨_, .removeVertex ((h.live v).mp hok), h.removeVertex hok⟩

/-- **The adjacency lists**: an edge is in the list of its source exactly when it is in the list
of its target, no list has an edge twice, the lists of a vertex hold its own edges, edges join
live vertices, and the vertex that `add_vertex` returns was not live and has no edges. -/
structure Adjacency (g : BaseGraph N L) : Prop where
  mem_iff : ∀ u w p, (⟨u, w, p⟩ : Edge L) ∈ g.outEdges u ↔ (⟨u, w, p⟩ : Edge L) ∈ g.inEdges w
  outEdges_nodup : ∀ u, (g.outEdges u).Nodup
  inEdges_nodup : ∀ u, (g.inEdges u).Nodup
  source_eq : ∀ u, ∀ e ∈ g.outEdges u, e.source = u
  target_eq : ∀ u, ∀ e ∈ g.inEdges u, e.target = u
  outEdges_live : ∀ u, ∀ e ∈ g.outEdges u, g.Live e.source ∧ g.Live e.target
  inEdges_live : ∀ u, ∀ e ∈ g.inEdges u, g.Live e.source ∧ g.Live e.target
  fresh : ∀ prop, ¬ g.Live (g.addVertex prop).1 ∧
    (g.addVertex prop).2.outEdges (g.addVertex prop).1 = [] ∧
    (g.addVertex prop).2.inEdges (g.addVertex prop).1 = []

omit [DecidableEq L] in
theorem Represents.adjacency (h : g.Represents d) : g.Adjacency where
  mem_iff := fun u w p ↦ (h.mirrored.mem_inEdges_iff ⟨u, w, p⟩).symm
  outEdges_nodup := h.mirrored.outEdges_nodup
  inEdges_nodup := h.mirrored.inEdges_nodup
  source_eq := fun _ _ he ↦ h.mirrored.source_eq he
  target_eq := fun _ _ he ↦ h.mirrored.target_eq he
  outEdges_live := fun _ _ he ↦ h.live_of_mem_outEdges he
  inEdges_live := fun _ _ he ↦ h.live_of_mem_inEdges he
  fresh := fun prop ↦ by
    have hfresh := h.slots.not_live_addVertex prop
    obtain ⟨hout, hin⟩ := h.edges_eq_nil fun hlive ↦ Nat.lt_irrefl g.capacity hlive.1
    rw [outEdges_addVertex_of_nil hout, inEdges_addVertex_of_nil hin]
    exact ⟨hfresh, h.edges_eq_nil hfresh⟩

/-- **The adjacency lists are right in every graph** that the clients build. -/
theorem adjacency_of_run {prop : N} {t : List (Call N L × BaseGraph N L)}
    (hrun : IsRun Step (nil prop) t) : ∀ g ∈ runStates (nil prop) t, g.Adjacency := by
  have hstep : ∀ (g : BaseGraph N L) c g', (∃ d, g.Represents d) → Step g c g' →
      ∃ d', g'.Represents d' := by
    rintro g c g' ⟨d, h⟩ hstep
    obtain ⟨d', -, h'⟩ := h.step hstep
    exact ⟨d', h'⟩
  intro g hg
  obtain ⟨d, h⟩ := hrun.always hstep ⟨_, represents_nil prop⟩ g hg
  exact h.adjacency

/-- A loop and parallel edges at a vertex that is removed, whose id is then given out again. -/
theorem adjacency_recycled :
    ∃ t : List (Call Unit ℕ × BaseGraph Unit ℕ), IsRun Step (nil ()) t ∧
      (∃ g ∈ runStates (nil ()) t, g.outEdges 0 = [⟨0, 0, 5⟩, ⟨0, 1, 5⟩, ⟨0, 1, 6⟩]) ∧
      (∃ g ∈ runStates (nil ()) t, g.capacity = 2 ∧ (g.addVertex ()).1 = 0) ∧
      ∀ g ∈ runStates (nil ()) t, g.Adjacency := by
  let t : List (Call Unit ℕ × BaseGraph Unit ℕ) := trace exec (nil ())
    [.addVertex (), .addVertex (), .addEdge 0 0 5, .addEdge 0 1 5, .addEdge 0 1 6,
      .addEdgeUnique 1 0 5, .removeEdge ⟨0, 1, 5⟩, .removeVertex 0]
  have hrun : IsRun Step (nil ()) t := by
    refine isRun_trace ?_
    simp only [Step, and_true]
    decide
  exact ⟨t, hrun, by decide, by decide, adjacency_of_run hrun⟩

end Representation

end BaseGraph

end Cali.Graph
