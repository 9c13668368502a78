import Mathlib.Data.List.Nodup
import Cali.Graph.Adjacency

/-!
# Copying the edges of a component

When `PDGSpecializationPass` has cloned the vertices of a component of functions,
`cloneGraphForSCCEdges` gives the clones the edges of the originals: an edge between two
cloned vertices gets a copy between the clones, and an edge to or from the outside one that
keeps its outer end.

The loops go over the very lists of a graph to which they add edges, with an insertion that
does not look for duplicates.  The clones are the only vertices of the component whose lists
change, and no two of the new edges are the same.

Only the graph is changed, so nodes and properties of edges may be of any type.
-/

namespace Cali.Passes

open Cali.Graph

variable {N L : Type} [DecidableEq L]

/-- A loop `for (Edge &e: list)` whose body changes the graph.  Its iterators belong to the list
as it is at the start; `none` means that the body has changed this list, so that they are no
longer valid. -/
def forEdges (list : BaseGraph N L → List (Edge L))
    (body : BaseGraph N L → Edge L → BaseGraph N L) :
    List (Edge L) → BaseGraph N L → Option (BaseGraph N L)
  | [], g => some g
  | e :: es, g => if list (body g e) = list g then forEdges list body es (body g e) else none

/-- `vertex_map`, a `std::map` from vertices to vertices. -/
abbrev VertexMap := ℕ → Option ℕ

namespace VertexMap

/-- The entries of the map, for keys below `n`, in the order of a loop over it. -/
def entries (vertexMap : VertexMap) (n : ℕ) : List (ℕ × ℕ) :=
  (List.range n).filterMap fun v ↦ (vertexMap v).map (v, ·)

/-- The clone of a vertex that has one, and the vertex itself otherwise. -/
def image (vertexMap : VertexMap) (v : ℕ) : ℕ := (vertexMap v).getD v

theorem image_of_some {vertexMap : VertexMap} {v c : ℕ} (h : vertexMap v = some c) :
    vertexMap.image v = c := by
  rw [image, h, Option.getD_some]

theorem image_of_none {vertexMap : VertexMap} {v : ℕ} (h : vertexMap v = none) :
    vertexMap.image v = v := by
  rw [image, h, Option.getD_none]

theorem mem_entries {vertexMap : VertexMap} {n a a' : ℕ} :
    (a, a') ∈ vertexMap.entries n ↔ a < n ∧ vertexMap a = some a' := by
  simp only [entries, List.mem_filterMap, List.mem_range, Option.map_eq_some_iff, Prod.mk.injEq]
  constructor
  · rintro ⟨v, hv, c, hc, rfl, rfl⟩
    exact ⟨hv, hc⟩
  · rintro ⟨ha, hc⟩
    exact ⟨a, ha, a', hc, rfl, rfl⟩

theorem pairwise_entries (vertexMap : VertexMap) (n : ℕ) :
    (vertexMap.entries n).Pairwise fun it it' ↦ it.1 ≠ it'.1 := by
  refine List.pairwise_filterMap.mpr (List.nodup_range.imp fun hne it hit it' hit' ↦ ?_)
  obtain ⟨-, -, rfl⟩ := Option.map_eq_some_iff.mp hit
  obtain ⟨-, -, rfl⟩ := Option.map_eq_some_iff.mp hit'
  exact hne

end VertexMap

section CloneEdges

variable (insert : BaseGraph N L → ℕ → ℕ → L → BaseGraph N L) (vertexMap : VertexMap)

/-- One iteration of `cloneGraphForSCCEdges`, for an entry of the map. -/
def cloneEntry (g : BaseGraph N L) (it : ℕ × ℕ) : Option (BaseGraph N L) := do
  let g ← forEdges (·.outEdges it.1)
    (fun g e ↦ insert g it.2 (vertexMap.image e.target) e.property) (g.outEdges it.1) g
  forEdges (·.inEdges it.1)
    (fun g e ↦ if vertexMap e.source = none then insert g e.source it.2 e.property else g)
    (g.inEdges it.1) g

/-- `cloneGraphForSCCEdges` with some way of adding an edge. -/
def cloneGraphForSCCEdgesWith (g : BaseGraph N L) : Option (BaseGraph N L) :=
  (vertexMap.entries g.capacity).foldlM (cloneEntry insert vertexMap) g

/-- `cloneGraphForSCCEdges` -/
def cloneGraphForSCCEdges (g : BaseGraph N L) : Option (BaseGraph N L) :=
  cloneGraphForSCCEdgesWith BaseGraph.addEdgeUnique vertexMap g

/-- The edges that are added for an entry of the map. -/
def newEdges (g : BaseGraph N L) (it : ℕ × ℕ) : List (Edge L) :=
  (g.outEdges it.1).map (fun e ↦ ⟨it.2, vertexMap.image e.target, e.property⟩) ++
    ((g.inEdges it.1).filter fun e ↦ vertexMap e.source = none).map
      fun e ↦ ⟨e.source, it.2, e.property⟩

/-- The edges that are added for all entries. -/
def allNewEdges (g : BaseGraph N L) : List (Edge L) :=
  (vertexMap.entries g.capacity).flatMap (newEdges vertexMap g)

end CloneEdges

/-! ## The loops -/

section Loops

variable {insert : BaseGraph N L → ℕ → ℕ → L → BaseGraph N L} {vertexMap : VertexMap}
  {g g' : BaseGraph N L} {a a' b b' u w : ℕ} {p : L}

theorem forEdges_eq {list : BaseGraph N L → List (Edge L)}
    {body : BaseGraph N L → Edge L → BaseGraph N L} {es : List (Edge L)}
    (hbody : ∀ g, ∀ e ∈ es, list (body g e) = list g) :
    forEdges list body es g = some (es.foldl body g) := by
  induction es generalizing g with
  | nil => rfl
  | cons e es ih =>
    rw [forEdges, if_pos (hbody g e List.mem_cons_self),
      ih fun g e he ↦ hbody g e (List.mem_cons_of_mem _ he)]
    rfl

/-- Adding an edge changes the outgoing list of its source and the incoming list of its target
only. -/
structure Inserts (insert : BaseGraph N L → ℕ → ℕ → L → BaseGraph N L) : Prop where
  outEdges : ∀ g u w p x, x ≠ u → (insert g u w p).outEdges x = g.outEdges x
  inEdges : ∀ g u w p x, x ≠ w → (insert g u w p).inEdges x = g.inEdges x

theorem inserts_addEdge : Inserts (BaseGraph.addEdge (N := N) (L := L)) where
  outEdges g u w p x hx := by rw [BaseGraph.outEdges_addEdge, if_neg hx]
  inEdges g u w p x hx := by rw [BaseGraph.inEdges_addEdge, if_neg fun h ↦ hx h.1]

omit [DecidableEq L] in
theorem inserts_addEdgeUnique : Inserts (BaseGraph.addEdgeUnique (N := N) (L := L)) where
  outEdges g u w p x hx := by simp [BaseGraph.addEdgeUnique, uniqueInsertUnique, hx]
  inEdges g u w p x hx := by simp [BaseGraph.addEdgeUnique, uniqueInsertUnique, hx]

/-- The map sends vertices of the graph to new vertices without edges, different ones to
different ones. -/
structure Clones (g : BaseGraph N L) (vertexMap : VertexMap) : Prop where
  existing : ∀ {a a'}, vertexMap a = some a' → a < g.capacity
  injective : ∀ {a b c}, vertexMap a = some c → vertexMap b = some c → a = b
  fresh : ∀ {a a'}, vertexMap a = some a' → vertexMap a' = none
  outEdges : ∀ {a a'}, vertexMap a = some a' → g.outEdges a' = []
  inEdges : ∀ {a a'}, vertexMap a = some a' → g.inEdges a' = []

/-- Add the edges of a list. -/
def insertAll (insert : BaseGraph N L → ℕ → ℕ → L → BaseGraph N L) (g : BaseGraph N L)
    (es : List (Edge L)) : BaseGraph N L :=
  es.foldl (fun g e ↦ insert g e.source e.target e.property) g

omit [DecidableEq L] in
theorem Clones.image_notMem (h : Clones g vertexMap) (v : ℕ) :
    vertexMap (vertexMap.image v) = none := by
  unfold VertexMap.image
  cases hv : vertexMap v with
  | none => exact hv
  | some v' => exact h.fresh hv

omit [DecidableEq L] in
theorem Clones.notMem_of_mem_newEdges (h : Clones g vertexMap) (ha : vertexMap a = some a')
    {e : Edge L} (he : e ∈ newEdges vertexMap g' (a, a')) :
    vertexMap e.source = none ∧ vertexMap e.target = none := by
  rcases List.mem_append.mp he with he | he
  · obtain ⟨d, -, rfl⟩ := List.mem_map.mp he
    exact ⟨h.fresh ha, h.image_notMem _⟩
  · obtain ⟨d, hd, rfl⟩ := List.mem_map.mp he
    exact ⟨by simpa using (List.mem_filter.mp hd).2, h.fresh ha⟩

omit [DecidableEq L] in
/-- The lists of a vertex that is neither source nor target stay as they are. -/
theorem Inserts.insertAll (hins : Inserts insert) (es : List (Edge L)) {x : ℕ}
    (hes : ∀ e ∈ es, e.source ≠ x ∧ e.target ≠ x) :
    (insertAll insert g es).outEdges x = g.outEdges x ∧
      (insertAll insert g es).inEdges x = g.inEdges x := by
  induction es generalizing g with
  | nil => exact ⟨rfl, rfl⟩
  | cons e es ih =>
    obtain ⟨hout, hin⟩ := ih (g := insert g e.source e.target e.property)
      fun e he ↦ hes e (List.mem_cons_of_mem _ he)
    obtain ⟨hs, ht⟩ := hes e List.mem_cons_self
    exact ⟨hout.trans (hins.outEdges _ _ _ _ _ hs.symm),
      hin.trans (hins.inEdges _ _ _ _ _ ht.symm)⟩

/-- **One iteration** adds the edges of its entry; the two lists it goes over do not change. -/
theorem cloneEntry_eq (hins : Inserts insert) (h : Clones g' vertexMap)
    (ha : vertexMap a = some a') :
    cloneEntry insert vertexMap g (a, a') =
      some (insertAll insert g (newEdges vertexMap g (a, a'))) := by
  have hmem : ∀ v, vertexMap v = none → a ≠ v := by
    rintro v hv rfl
    rw [ha] at hv
    cases hv
  have hne : a ≠ a' := hmem a' (h.fresh ha)
  have hout : forEdges (·.outEdges a)
      (fun g e ↦ insert g a' (vertexMap.image e.target) e.property) (g.outEdges a) g =
      some (insertAll insert g ((g.outEdges a).map fun e ↦
        ⟨a', vertexMap.image e.target, e.property⟩)) := by
    rw [forEdges_eq fun g e _ ↦ hins.outEdges g _ _ _ a hne, insertAll, List.foldl_map]
  -- the first loop leaves the list of the second one alone
  have hlist := (hins.insertAll (g := g) (x := a)
    ((g.outEdges a).map fun e ↦ ⟨a', vertexMap.image e.target, e.property⟩) fun e he ↦ by
      obtain ⟨d, -, rfl⟩ := List.mem_map.mp he
      exact ⟨hne.symm, (hmem _ (h.image_notMem _)).symm⟩).2
  unfold cloneEntry
  simp only [hout, Option.bind_eq_bind, Option.bind_some, hlist]
  rw [forEdges_eq fun g e _ ↦ ?_]
  · rw [newEdges, insertAll, insertAll, List.foldl_append, List.foldl_map, List.foldl_map,
      List.foldl_filter]
    simp only [decide_eq_true_eq]
  · split
    · exact hins.inEdges g _ _ _ a hne
    · rfl

/-- **All iterations** add the edges that the graph before the loop gives. -/
theorem foldlM_cloneEntry (hins : Inserts insert) (h : Clones g vertexMap) {its : List (ℕ × ℕ)}
    (hits : ∀ it ∈ its, vertexMap it.1 = some it.2)
    (hlists : ∀ a a', vertexMap a = some a' →
      g'.outEdges a = g.outEdges a ∧ g'.inEdges a = g.inEdges a) :
    its.foldlM (cloneEntry insert vertexMap) g' =
      some (insertAll insert g' (its.flatMap (newEdges vertexMap g))) := by
  induction its generalizing g' with
  | nil => rfl
  | cons it its ih =>
    have ha := hits it List.mem_cons_self
    have hnew : newEdges vertexMap g' it = newEdges vertexMap g it := by
      rw [newEdges, newEdges, (hlists _ _ ha).1, (hlists _ _ ha).2]
    have hstep := cloneEntry_eq (g := g') hins h ha
    rw [hnew] at hstep
    rw [List.foldlM_cons, hstep, List.flatMap_cons]
    refine (ih (fun it hit ↦ hits it (List.mem_cons_of_mem _ hit)) fun b b' hb ↦ ?_).trans ?_
    · have hkeep := hins.insertAll (g := g') (x := b) (newEdges vertexMap g it)
        fun e he ↦ by
          obtain ⟨hs, ht⟩ := h.notMem_of_mem_newEdges ha he
          constructor
          · rintro rfl
            rw [hb] at hs
            cases hs
          · rintro rfl
            rw [hb] at ht
            cases ht
      exact ⟨hkeep.1.trans (hlists b b' hb).1, hkeep.2.trans (hlists b b' hb).2⟩
    · rw [insertAll, insertAll, insertAll, List.foldl_append]

end Loops

/-! ## The new edges -/

section NewEdges

variable {vertexMap : VertexMap} {g : BaseGraph N L} {a a' b b' u w : ℕ} {p : L}

omit [DecidableEq L] in
theorem Clones.not_hasEdge_out (h : Clones g vertexMap) (ha : vertexMap a = some a') :
    ¬ g.HasEdge a' p w := by
  intro he
  rw [BaseGraph.HasEdge, h.outEdges ha] at he
  cases he

omit [DecidableEq L] in
theorem Clones.not_hasEdge_in (h : Clones g vertexMap) (hm : g.Mirrored)
    (ha : vertexMap a = some a') : ¬ g.HasEdge u p a' := by
  intro he
  have hin : (⟨u, a', p⟩ : Edge L) ∈ g.inEdges a' := (hm.mem_inEdges_iff ⟨u, a', p⟩).mpr he
  rw [h.inEdges ha] at hin
  cases hin

omit [DecidableEq L] in
theorem mem_newEdges (hm : g.Mirrored) :
    (⟨u, w, p⟩ : Edge L) ∈ newEdges vertexMap g (a, a') ↔
      (u = a' ∧ ∃ b, g.HasEdge a p b ∧ w = vertexMap.image b) ∨
        (w = a' ∧ vertexMap u = none ∧ g.HasEdge u p a) := by
  simp only [newEdges, List.mem_append, List.mem_map, List.mem_filter, decide_eq_true_eq,
    hm.mem_outEdges_iff, hm.mem_inEdges_iff_hasEdge, Edge.mk.injEq]
  constructor
  · rintro (⟨e, ⟨-, he⟩, rfl, rfl, rfl⟩ | ⟨e, ⟨⟨-, he⟩, hs⟩, rfl, rfl, rfl⟩)
    · exact Or.inl ⟨rfl, e.target, he, rfl⟩
    · exact Or.inr ⟨rfl, hs, he⟩
  · rintro (⟨rfl, b, he, rfl⟩ | ⟨rfl, hs, he⟩)
    · exact Or.inl ⟨⟨a, b, p⟩, ⟨rfl, he⟩, rfl, rfl, rfl⟩
    · exact Or.inr ⟨⟨u, a, p⟩, ⟨⟨rfl, he⟩, hs⟩, rfl, rfl, rfl⟩

omit [DecidableEq L] in
theorem Clones.image_inj (h : Clones g vertexMap) (hm : g.Mirrored) {x y : ℕ} {q : L}
    (hb : g.HasEdge x p b) (hb' : g.HasEdge y q b') (heq : vertexMap.image b = vertexMap.image b') :
    b = b' := by
  unfold VertexMap.image at heq
  cases hv : vertexMap b with
  | none =>
    cases hv' : vertexMap b' with
    | none => simpa [hv, hv'] using heq
    | some c =>
      rw [hv, hv'] at heq
      obtain rfl : b = c := heq
      exact absurd hb (h.not_hasEdge_in hm hv')
  | some c =>
    cases hv' : vertexMap b' with
    | none =>
      rw [hv, hv'] at heq
      obtain rfl : c = b' := heq
      exact absurd hb' (h.not_hasEdge_in hm hv)
    | some c' =>
      rw [hv, hv'] at heq
      obtain rfl : c = c' := heq
      exact h.injective hv hv'

omit [DecidableEq L] in
theorem Clones.nodup_newEdges (h : Clones g vertexMap) (hm : g.Mirrored)
    (ha : vertexMap a = some a') : (newEdges vertexMap g (a, a')).Nodup := by
  refine List.nodup_append.mpr ⟨?_, ?_, ?_⟩
  · refine List.Nodup.map_on (fun e he e' he' heq ↦ ?_) (hm.outEdges_nodup a)
    obtain ⟨s, t, q⟩ := e
    obtain ⟨s', t', q'⟩ := e'
    obtain ⟨rfl, he⟩ : s = a ∧ g.HasEdge a q t := hm.mem_outEdges_iff.mp he
    obtain ⟨rfl, he'⟩ : s' = s ∧ g.HasEdge s q' t' := hm.mem_outEdges_iff.mp he'
    simp only [Edge.mk.injEq, true_and] at heq
    obtain ⟨himage, rfl⟩ := heq
    obtain rfl := h.image_inj hm he he' himage
    rfl
  · refine List.Nodup.map_on (fun e he e' he' heq ↦ ?_) ((hm.inEdges_nodup a).filter _)
    obtain ⟨s, t, q⟩ := e
    obtain ⟨s', t', q'⟩ := e'
    obtain rfl : t = a := hm.target_eq (List.mem_filter.mp he).1
    obtain rfl : t' = t := hm.target_eq (List.mem_filter.mp he').1
    simp only [Edge.mk.injEq, true_and] at heq
    obtain ⟨rfl, rfl⟩ := heq
    rfl
  · -- the sources of the first part are clones, those of the second one have edges
    rintro e he e' he' rfl
    obtain ⟨d, -, rfl⟩ := List.mem_map.mp he
    obtain ⟨d', hd', heq⟩ := List.mem_map.mp he'
    obtain ⟨-, hedge⟩ := hm.mem_inEdges_iff_hasEdge.mp (List.mem_filter.mp hd').1
    simp only [Edge.mk.injEq] at heq
    rw [heq.1] at hedge
    exact h.not_hasEdge_out ha hedge

omit [DecidableEq L] in
theorem Clones.newEdges_disjoint (h : Clones g vertexMap) (hm : g.Mirrored)
    (ha : vertexMap a = some a') (hb : vertexMap b = some b') (hab : a ≠ b) :
    List.Disjoint (newEdges vertexMap g (a, a')) (newEdges vertexMap g (b, b')) := by
  rintro ⟨u, w, p⟩ he he'
  have hne : a' ≠ b' := fun heq ↦ hab (h.injective ha (heq ▸ hb))
  rcases (mem_newEdges hm).mp he with ⟨rfl, -⟩ | ⟨rfl, -, hedge⟩
  · rcases (mem_newEdges hm).mp he' with ⟨heq, -⟩ | ⟨-, -, hedge⟩
    · exact hne heq
    · exact h.not_hasEdge_out ha hedge
  · rcases (mem_newEdges hm).mp he' with ⟨rfl, -⟩ | ⟨heq, -⟩
    · exact h.not_hasEdge_out hb hedge
    · exact hne heq

omit [DecidableEq L] in
/-- **No edge is added twice.** -/
theorem Clones.nodup_allNewEdges (h : Clones g vertexMap) (hm : g.Mirrored) :
    (allNewEdges vertexMap g).Nodup := by
  refine List.nodup_flatMap.mpr ⟨fun it hit ↦ ?_, ?_⟩
  · exact h.nodup_newEdges hm (VertexMap.mem_entries.mp hit).2
  · refine (VertexMap.pairwise_entries vertexMap g.capacity).imp_of_mem fun hit hit' hne ↦ ?_
    exact h.newEdges_disjoint hm (VertexMap.mem_entries.mp hit).2
      (VertexMap.mem_entries.mp hit').2 hne

omit [DecidableEq L] in
theorem Clones.mem_allNewEdges (h : Clones g vertexMap) (hm : g.Mirrored) :
    (⟨u, w, p⟩ : Edge L) ∈ allNewEdges vertexMap g ↔
      (∃ a b, vertexMap a = some u ∧ g.HasEdge a p b ∧ w = vertexMap.image b) ∨
        (∃ a, vertexMap a = some w ∧ vertexMap u = none ∧ g.HasEdge u p a) := by
  simp only [allNewEdges, List.mem_flatMap]
  constructor
  · rintro ⟨⟨a, a'⟩, hit, he⟩
    have ha := (VertexMap.mem_entries.mp hit).2
    rcases (mem_newEdges hm).mp he with ⟨rfl, b, hedge, rfl⟩ | ⟨rfl, hs, hedge⟩
    · exact Or.inl ⟨a, b, ha, hedge, rfl⟩
    · exact Or.inr ⟨a, ha, hs, hedge⟩
  · rintro (⟨a, b, ha, hedge, rfl⟩ | ⟨a, ha, hs, hedge⟩)
    · exact ⟨(a, u), VertexMap.mem_entries.mpr ⟨h.existing ha, ha⟩,
        (mem_newEdges hm).mpr (Or.inl ⟨rfl, b, hedge, rfl⟩)⟩
    · exact ⟨(a, w), VertexMap.mem_entries.mpr ⟨h.existing ha, ha⟩,
        (mem_newEdges hm).mpr (Or.inr ⟨rfl, hs, hedge⟩)⟩

omit [DecidableEq L] in
/-- **No edge is added that is there already.** -/
theorem Clones.not_hasEdge_of_mem (h : Clones g vertexMap) (hm : g.Mirrored) {e : Edge L}
    (he : e ∈ allNewEdges vertexMap g) : ¬ g.HasEdge e.source e.property e.target := by
  rcases (h.mem_allNewEdges hm).mp he with ⟨a, b, ha, -⟩ | ⟨a, ha, -⟩
  · exact h.not_hasEdge_out ha
  · exact h.not_hasEdge_in hm ha

end NewEdges

/-! ## The copy -/

section Copy

variable {vertexMap : VertexMap} {g : BaseGraph N L} {a a' b b' u w : ℕ} {p : L}

theorem mirrored_insertAll (hm : g.Mirrored) (es : List (Edge L)) :
    (insertAll BaseGraph.addEdge g es).Mirrored := by
  induction es generalizing g with
  | nil => exact hm
  | cons e es ih => exact ih (hm.addEdge ..)

theorem hasEdge_insertAll {es : List (Edge L)} :
    (insertAll BaseGraph.addEdge g es).HasEdge u p w ↔
      g.HasEdge u p w ∨ (⟨u, w, p⟩ : Edge L) ∈ es := by
  induction es generalizing g with
  | nil => simp [insertAll]
  | cons e es ih =>
    refine (ih (g := g.addEdge e.source e.target e.property)).trans ?_
    rw [BaseGraph.hasEdge_addEdge, or_assoc, List.mem_cons]
    refine or_congr_right (or_congr_left ⟨?_, ?_⟩)
    · rintro ⟨rfl, rfl, rfl⟩
      rfl
    · rintro rfl
      exact ⟨rfl, rfl, rfl⟩

/-- For new edges that are all different it does not matter that duplicates are not looked for. -/
theorem insertAll_addEdgeUnique (hm : g.Mirrored) {es : List (Edge L)} (hnodup : es.Nodup)
    (hnew : ∀ e ∈ es, ¬ g.HasEdge e.source e.property e.target) :
    insertAll BaseGraph.addEdgeUnique g es = insertAll BaseGraph.addEdge g es := by
  induction es generalizing g with
  | nil => rfl
  | cons e es ih =>
    obtain ⟨hnotMem, hnodup⟩ := List.nodup_cons.mp hnodup
    have hstep := hm.addEdgeUnique_eq (hnew e List.mem_cons_self)
    change insertAll _ (g.addEdgeUnique e.source e.target e.property) es = _
    rw [hstep]
    refine ih (hm.addEdge ..) hnodup fun d hd ↦ ?_
    rw [BaseGraph.hasEdge_addEdge]
    rintro (hedge | ⟨hs, hp, ht⟩)
    · exact hnew d (List.mem_cons_of_mem _ hd) hedge
    · obtain rfl : d = e := by
        cases d
        cases e
        simp_all
      exact hnotMem hd

theorem Clones.cloneGraphForSCCEdges_eq (h : Clones g vertexMap) (hm : g.Mirrored) :
    cloneGraphForSCCEdges vertexMap g =
        some (insertAll BaseGraph.addEdge g (allNewEdges vertexMap g)) ∧
      cloneGraphForSCCEdgesWith BaseGraph.addEdge vertexMap g =
        some (insertAll BaseGraph.addEdge g (allNewEdges vertexMap g)) := by
  have hits : ∀ it ∈ vertexMap.entries g.capacity, vertexMap it.1 = some it.2 :=
    fun it hit ↦ (VertexMap.mem_entries.mp hit).2
  have hlists : ∀ a a', vertexMap a = some a' →
      g.outEdges a = g.outEdges a ∧ g.inEdges a = g.inEdges a := fun _ _ _ ↦ ⟨rfl, rfl⟩
  constructor
  · rw [← insertAll_addEdgeUnique hm (h.nodup_allNewEdges hm) fun e he ↦
      h.not_hasEdge_of_mem hm he]
    exact foldlM_cloneEntry inserts_addEdgeUnique h hits hlists
  · exact foldlM_cloneEntry inserts_addEdge h hits hlists

theorem Clones.hasEdge_cloned (h : Clones g vertexMap) (hm : g.Mirrored) :
    (insertAll BaseGraph.addEdge g (allNewEdges vertexMap g)).HasEdge u p w ↔
      g.HasEdge u p w ∨
        (∃ a b, vertexMap a = some u ∧ g.HasEdge a p b ∧ w = vertexMap.image b) ∨
        (∃ a, vertexMap a = some w ∧ vertexMap u = none ∧ g.HasEdge u p a) :=
  hasEdge_insertAll.trans (or_congr_right (h.mem_allNewEdges hm))

theorem Clones.hasEdge_inner (h : Clones g vertexMap) (hm : g.Mirrored) {a a' b b' : ℕ}
    (ha : vertexMap a = some a') (hb : vertexMap b = some b') :
    g.HasEdge a p b ↔
      (insertAll BaseGraph.addEdge g (allNewEdges vertexMap g)).HasEdge a' p b' := by
  rw [h.hasEdge_cloned hm]
  constructor
  · exact fun he ↦ Or.inr (Or.inl ⟨a, b, ha, he, (VertexMap.image_of_some hb).symm⟩)
  · rintro (he | ⟨c, d, hc, he, hd⟩ | ⟨c, -, -, he⟩)
    · exact absurd he (h.not_hasEdge_out ha)
    · obtain rfl := h.injective ha hc
      cases hv : vertexMap d with
      | none =>
        rw [VertexMap.image_of_none hv] at hd
        exact absurd (hd ▸ he) (h.not_hasEdge_in hm hb)
      | some d' =>
        rw [VertexMap.image_of_some hv] at hd
        exact h.injective hb (hd ▸ hv) ▸ he
    · exact absurd he (h.not_hasEdge_out ha)

theorem Clones.hasEdge_out (h : Clones g vertexMap) (hm : g.Mirrored) {a a' b : ℕ}
    (ha : vertexMap a = some a') (hb : vertexMap b = none) (hfresh : ∀ c, vertexMap c ≠ some b) :
    g.HasEdge a p b ↔
      (insertAll BaseGraph.addEdge g (allNewEdges vertexMap g)).HasEdge a' p b := by
  rw [h.hasEdge_cloned hm]
  constructor
  · exact fun he ↦ Or.inr (Or.inl ⟨a, b, ha, he, (VertexMap.image_of_none hb).symm⟩)
  · rintro (he | ⟨c, d, hc, he, hd⟩ | ⟨c, hc, -⟩)
    · exact absurd he (h.not_hasEdge_out ha)
    · obtain rfl := h.injective ha hc
      cases hv : vertexMap d with
      | none =>
        rw [VertexMap.image_of_none hv] at hd
        exact hd ▸ he
      | some d' =>
        rw [VertexMap.image_of_some hv] at hd
        exact absurd (hd ▸ hv) (hfresh d)
    · exact absurd hc (hfresh c)

theorem Clones.hasEdge_in (h : Clones g vertexMap) (hm : g.Mirrored) {a a' b : ℕ}
    (ha : vertexMap a = some a') (hb : vertexMap b = none) (hfresh : ∀ c, vertexMap c ≠ some b) :
    g.HasEdge b p a ↔
      (insertAll BaseGraph.addEdge g (allNewEdges vertexMap g)).HasEdge b p a' := by
  rw [h.hasEdge_cloned hm]
  constructor
  · exact fun he ↦ Or.inr (Or.inr ⟨a, ha, hb, he⟩)
  · rintro (he | ⟨c, d, hc, -⟩ | ⟨c, hc, -, he⟩)
    · exact absurd he (h.not_hasEdge_in hm ha)
    · exact absurd hc (hfresh c)
    · exact h.injective ha hc ▸ he

/-- **The clones form a copy of the component with the same surroundings.**  The loops never
change a list that they go over; what they leave behind is what the insertion that looks for
duplicates would. -/
theorem cloneGraphForSCCEdges_copies (hm : g.Mirrored) (h : Clones g vertexMap) :
    ∃ g', cloneGraphForSCCEdges vertexMap g = some g' ∧
      (∀ a a' b b' p, vertexMap a = some a' → vertexMap b = some b' →
        (g.HasEdge a p b ↔ g'.HasEdge a' p b')) ∧
      (∀ a a' b p, vertexMap a = some a' → vertexMap b = none → (∀ c, vertexMap c ≠ some b) →
        (g.HasEdge a p b ↔ g'.HasEdge a' p b) ∧ (g.HasEdge b p a ↔ g'.HasEdge b p a')) ∧
      (∀ u p w, (∀ c, vertexMap c ≠ some u) → (∀ c, vertexMap c ≠ some w) →
        (g'.HasEdge u p w ↔ g.HasEdge u p w)) ∧
      g'.Mirrored ∧ cloneGraphForSCCEdgesWith BaseGraph.addEdge vertexMap g = some g' := by
  obtain ⟨hrun, hrun'⟩ := h.cloneGraphForSCCEdges_eq hm
  refine ⟨_, hrun, fun a a' b b' p ha hb ↦ h.hasEdge_inner hm ha hb,
    fun a a' b p ha hb hfresh ↦ ⟨h.hasEdge_out hm ha hb hfresh, h.hasEdge_in hm ha hb hfresh⟩,
    fun u p w hu hw ↦ ?_, mirrored_insertAll hm _, hrun'⟩
  rw [h.hasEdge_cloned hm]
  refine or_iff_left ?_
  rintro (⟨a, b, ha, -⟩ | ⟨a, ha, -⟩)
  · exact hu a ha
  · exact hw a ha

end Copy

/-- Two vertices with edges between them, to themselves, and to and from a third one; the last
two vertices are their clones. -/
def twoAndClones : BaseGraph Unit Unit :=
  insertAll BaseGraph.addEdge ⟨5, 0, [], 5, fun _ ↦ ⟨[], [], (), false⟩⟩
    [⟨0, 1, ()⟩, ⟨1, 0, ()⟩, ⟨0, 0, ()⟩, ⟨2, 0, ()⟩, ⟨1, 2, ()⟩]

/-- The clones of the first two vertices. -/
def twoToClones : VertexMap
  | 0 => some 3
  | 1 => some 4
  | _ => none

theorem twoToClones_eq_some {a a' : ℕ} (h : twoToClones a = some a') :
    a = 0 ∧ a' = 3 ∨ a = 1 ∧ a' = 4 := by
  match a with
  | 0 => exact Or.inl ⟨rfl, (Option.some.inj h).symm⟩
  | 1 => exact Or.inr ⟨rfl, (Option.some.inj h).symm⟩
  | n + 2 => cases h

theorem clones_twoAndClones : Clones twoAndClones twoToClones := by
  refine ⟨fun h ↦ ?_, fun h h' ↦ ?_, fun h ↦ ?_, fun h ↦ ?_, fun h ↦ ?_⟩
  · rcases twoToClones_eq_some h with ⟨rfl, rfl⟩ | ⟨rfl, rfl⟩
    · decide
    · decide
  · rcases twoToClones_eq_some h with ⟨rfl, rfl⟩ | ⟨rfl, rfl⟩
    · rcases twoToClones_eq_some h' with ⟨rfl, -⟩ | ⟨-, hc⟩
      · rfl
      · cases hc
    · rcases twoToClones_eq_some h' with ⟨-, hc⟩ | ⟨rfl, -⟩
      · cases hc
      · rfl
  · rcases twoToClones_eq_some h with ⟨rfl, rfl⟩ | ⟨rfl, rfl⟩
    · rfl
    · rfl
  · rcases twoToClones_eq_some h with ⟨rfl, rfl⟩ | ⟨rfl, rfl⟩
    · decide
    · decide
  · rcases twoToClones_eq_some h with ⟨rfl, rfl⟩ | ⟨rfl, rfl⟩
    · decide
    · decide

theorem mirrored_twoAndClones : twoAndClones.Mirrored := by
  have hnil : BaseGraph.Mirrored (⟨5, 0, [], 5, fun _ ↦ ⟨[], [], (), false⟩⟩ :
      BaseGraph Unit Unit) := by
    refine ⟨fun h ↦ ?_, fun h ↦ ?_, fun _ ↦ Iff.rfl, fun _ ↦ .nil, fun _ ↦ .nil⟩
    · cases h
    · cases h
  exact mirrored_insertAll hnil _

theorem cloneGraphForSCCEdges_twoAndClones :
    (∃ g', cloneGraphForSCCEdges twoToClones twoAndClones = some g' ∧
      (∀ a a' b b' p, twoToClones a = some a' → twoToClones b = some b' →
        (twoAndClones.HasEdge a p b ↔ g'.HasEdge a' p b')) ∧ g'.Mirrored) ∧
    (cloneGraphForSCCEdges twoToClones twoAndClones).map (fun g ↦ (g.outEdges 3, g.inEdges 3)) =
      some ([⟨3, 4, ()⟩, ⟨3, 3, ()⟩], [⟨3, 3, ()⟩, ⟨2, 3, ()⟩, ⟨4, 3, ()⟩]) := by
  refine ⟨?_, by decide +kernel⟩
  obtain ⟨g', hg', hinner, -, -, hm, -⟩ :=
    cloneGraphForSCCEdges_copies mirrored_twoAndClones clones_twoAndClones
  exact ⟨g', hg', hinner, hm⟩

end Cali.Passes
