import Cali.Graph.BaseGraph
import Cali.Graph.ColorMap
import Cali.Lib.Search

/-!
# Breadth-first search

`breadth_first_search_twoway` of `graph/algorithms.h`.  The visitor may change the
graph while the search goes on, so the graph is a state that the hooks of the visitor
read and write.

`bfs_outcome` is the specification of the search: for a visitor whose changes to the
graph do not show in the edges and in its own decisions, the search ends, and what it
has seen is `Discovered`.  A vertex that is expanded is examined once, but a source as often
as it is given.
-/

namespace Cali.Graph

open Cali.Lib

variable {σ L : Type}

/-- A visitor together with the graph it visits.  `discoverVertex` says whether the
vertex is to be expanded. -/
structure BfsVisitor (σ L : Type) where
  inEdges : σ → ℕ → List (Edge L)
  outEdges : σ → ℕ → List (Edge L)
  discoverVertex : ℕ → σ → Bool × σ := fun _ s ↦ (true, s)
  isWantedVertex : ℕ → σ → Bool := fun _ _ ↦ false
  examineVertex : ℕ → σ → σ := fun _ s ↦ s
  finishVertex : ℕ → σ → σ := fun _ s ↦ s
  examineBackwardsEdge : Edge L → σ → Bool := fun _ _ ↦ true
  examineForwardsEdge : Edge L → σ → Bool := fun _ _ ↦ true
  treeEdge : Edge L → σ → σ := fun _ s ↦ s
  finished : σ → σ := fun s ↦ s

/-- The variables of the search. -/
structure BfsState (σ : Type) where
  graph : σ
  colors : ColorMap
  queue : List ℕ

namespace BfsVisitor

variable (vis : BfsVisitor σ L)

/-- A vertex becomes gray.  `true` means that it is the wanted one and that the search
returns. -/
def discover (s : BfsState σ) (v : ℕ) : Bool × BfsState σ :=
  let s := { s with colors := s.colors.putFast v .gray }
  if vis.isWantedVertex v s.graph then (true, s)
  else
    let r := vis.discoverVertex v s.graph
    (false, { s with graph := r.2, queue := if r.1 then s.queue ++ [v] else s.queue })

/-- The loop over the sources. -/
def start (s : BfsState σ) : List ℕ → Bool × BfsState σ
  | [] => (false, s)
  | v :: sources =>
    let r := vis.discover s v
    if r.1 then r else start r.2 sources

/-- The loop over the edges at a vertex, in one of the two directions. -/
def scan (examineEdge : Edge L → σ → Bool) (endpoint : Edge L → ℕ) (s : BfsState σ) :
    List (Edge L) → Bool × BfsState σ
  | [] => (false, s)
  | e :: es =>
    if examineEdge e s.graph = true ∧ s.colors.get (endpoint e) = .white then
      let r := vis.discover { s with graph := vis.treeEdge e s.graph } (endpoint e)
      if r.1 then r else scan examineEdge endpoint r.2 es
    else scan examineEdge endpoint s es

/-- One round of `while (!Q.empty())`, for the vertex taken from the queue. -/
def examine (s : BfsState σ) (u : ℕ) : Bool × BfsState σ :=
  let s := { s with graph := vis.examineVertex u s.graph }
  let r := vis.scan vis.examineBackwardsEdge Edge.source s (vis.inEdges s.graph u)
  if r.1 then r
  else
    let s := r.2
    let r := vis.scan vis.examineForwardsEdge Edge.target s (vis.outEdges s.graph u)
    if r.1 then r
    else
      (false, { r.2 with
        colors := r.2.colors.putFast u .black, graph := vis.finishVertex u r.2.graph })

/-- The loop `while (!Q.empty())`; `none` means that the rounds were not enough. -/
def loop : ℕ → BfsState σ → Option (Bool × BfsState σ)
  | 0, _ => none
  | rounds + 1, s =>
    match s.queue with
    | [] => some (false, { s with graph := vis.finished s.graph })
    | u :: queue =>
      let r := vis.examine { s with queue := queue } u
      if r.1 then some r else loop rounds r.2

/-- `breadth_first_search_twoway` -/
def breadthFirstSearchTwoway (graph : σ) (sources : List ℕ) (colors : ColorMap) :
    Option (Bool × BfsState σ) :=
  if sources = [] then some (false, ⟨graph, colors, []⟩)
  else
    let r := vis.start ⟨graph, colors.init, []⟩ sources
    if r.1 then some r else vis.loop (4 * colors.colors.length + sources.length + 1) r.2

/-! ## What the search sees -/

/-- The vertex is expanded when it is discovered. -/
def Expands (g : σ) (v : ℕ) : Prop := (vis.discoverVertex v g).1 = true

/-- The search is looking for the vertex. -/
def Wants (g : σ) (v : ℕ) : Prop := vis.isWantedVertex v g = true

/-- The endpoints of the edges of a list that are followed. -/
def Offered (examineEdge : Edge L → σ → Bool) (endpoint : Edge L → ℕ) (g : σ)
    (es : List (Edge L)) : Set ℕ :=
  {v | ∃ e ∈ es, examineEdge e g = true ∧ endpoint e = v}

/-- The search comes from `u` to `v`. -/
def Next (g : σ) (u v : ℕ) : Prop :=
  v ∈ Offered vis.examineBackwardsEdge Edge.source g (vis.inEdges g u) ∪
    Offered vis.examineForwardsEdge Edge.target g (vis.outEdges g u)

/-- The vertices the search sees. -/
def Sees (g : σ) (sources : List ℕ) : ℕ → Prop :=
  Discovered (· ∈ sources) (vis.Expands g) (vis.Next g)

/-- The visitor keeps the invariant `I` of the graph and the vertices discovered so far,
and while the invariant holds the edges and the decisions of the visitor are those of
the graph `g₀`. -/
structure Stable (I : Set ℕ → σ → Prop) (g₀ : σ) : Prop where
  inEdges : ∀ {C g}, I C g → ∀ u, vis.inEdges g u = vis.inEdges g₀ u
  outEdges : ∀ {C g}, I C g → ∀ u, vis.outEdges g u = vis.outEdges g₀ u
  backwards : ∀ {C g}, I C g → ∀ e, vis.examineBackwardsEdge e g = vis.examineBackwardsEdge e g₀
  forwards : ∀ {C g}, I C g → ∀ e, vis.examineForwardsEdge e g = vis.examineForwardsEdge e g₀
  wants : ∀ {C g}, I C g → ∀ v, vis.isWantedVertex v g = vis.isWantedVertex v g₀
  expands : ∀ {C g}, I C g → ∀ v, (vis.discoverVertex v g).1 = (vis.discoverVertex v g₀).1
  discover : ∀ {C g}, I C g → ∀ v, I (insert v C) (vis.discoverVertex v g).2
  examineVertex : ∀ {C g}, I C g → ∀ v, I C (vis.examineVertex v g)
  finishVertex : ∀ {C g}, I C g → ∀ v, I C (vis.finishVertex v g)
  treeEdge : ∀ {C g}, I C g → ∀ e, I C (vis.treeEdge e g)
  finished : ∀ {C g}, I C g → I C (vis.finished g)

/-- The visitor keeps the invariant `I` of the graph and the vertices discovered so far when
it discovers a vertex of `D` and when it follows an edge, and while the invariant holds the
edges of these vertices and the decisions about them are those of the graph `g₀`. -/
structure Steady (D : ℕ → Prop) (I : Set ℕ → σ → Prop) (g₀ : σ) : Prop where
  inEdges : ∀ {C g}, I C g → ∀ u, D u → vis.inEdges g u = vis.inEdges g₀ u
  outEdges : ∀ {C g}, I C g → ∀ u, D u → vis.outEdges g u = vis.outEdges g₀ u
  backwards : ∀ {C g}, I C g → ∀ e, vis.examineBackwardsEdge e g = vis.examineBackwardsEdge e g₀
  forwards : ∀ {C g}, I C g → ∀ e, vis.examineForwardsEdge e g = vis.examineForwardsEdge e g₀
  wants : ∀ {C g}, I C g → ∀ v, D v → vis.isWantedVertex v g = vis.isWantedVertex v g₀
  expands : ∀ {C g}, I C g → ∀ v, D v → (vis.discoverVertex v g).1 = (vis.discoverVertex v g₀).1
  discover : ∀ {C g}, I C g → ∀ v, D v → I (insert v C) (vis.discoverVertex v g).2
  finishVertex : ∀ {C g}, I C g → ∀ v, I C (vis.finishVertex v g)
  treeEdge : ∀ {C g}, I C g → ∀ e, I C (vis.treeEdge e g)

/-- The visitor is steady at what the search sees, with an invariant that may also speak about
the list of the vertices examined so far. -/
structure StableOn (sources : List ℕ) (I : Set ℕ → List ℕ → σ → Prop) (g₀ : σ) : Prop where
  steady : ∀ log, vis.Steady (vis.Sees g₀ sources) (I · log) g₀
  examineVertex : ∀ {C log g}, I C log g → ∀ v, vis.Sees g₀ sources v → vis.Expands g₀ v →
    I C (log ++ [v]) (vis.examineVertex v g)

variable {vis} in
theorem Stable.stableOn {I : Set ℕ → σ → Prop} {g₀ : σ} (h : vis.Stable I g₀)
    (sources : List ℕ) : vis.StableOn sources (fun C _ ↦ I C) g₀ where
  steady _ :=
    ⟨fun hI u _ ↦ h.inEdges hI u, fun hI u _ ↦ h.outEdges hI u, h.backwards, h.forwards,
      fun hI v _ ↦ h.wants hI v, fun hI v _ ↦ h.expands hI v, fun hI v _ ↦ h.discover hI v,
      h.finishVertex, h.treeEdge⟩
  examineVertex hI v _ _ := h.examineVertex hI v

end BfsVisitor

namespace BfsState

/-- The vertices that are no longer white. -/
def visited (s : BfsState σ) : Set ℕ := {v | s.colors.get v ≠ .white}

/-- How many vertices are still white or in the queue. -/
def work (s : BfsState σ) : ℕ := s.colors.whites.card + s.queue.length

variable {s : BfsState σ} {v : ℕ}

theorem visited_putFast {c : Color} (hc : c ≠ .white) (hv : s.colors.Covers v) (g : σ)
    (queue : List ℕ) :
    visited ⟨g, s.colors.putFast v c, queue⟩ = insert v s.visited := by
  ext u
  simp only [visited, Set.mem_ofPred_eq, Set.mem_insert_iff, ColorMap.get_putFast hv]
  by_cases huv : u = v
  · simpa [huv] using Color.or_ne_white (Or.inr hc)
  · simp [huv]

end BfsState

namespace BfsVisitor

open BfsState

/-! ## Growing -/

section Growing

variable {vis : BfsVisitor σ L} {D : ℕ → Prop} {I : Set ℕ → σ → Prop} {g₀ : σ}

/-- The search has come from `s` to `s'` by discovering the vertices of `N`, and it has put
`new` into the queue. -/
structure Grown (vis : BfsVisitor σ L) (I : Set ℕ → σ → Prop) (g₀ : σ) (N : Set ℕ)
    (new : List ℕ) (s s' : BfsState σ) : Prop where
  length : s'.colors.colors.length = s.colors.colors.length
  inv : I s'.visited s'.graph
  visited : s'.visited = s.visited ∪ N
  queue : s'.queue = s.queue ++ new
  of_new : ∀ v ∈ new, v ∈ N ∧ vis.Expands g₀ v
  pushed : ∀ v ∈ N, v ∉ s.visited → vis.Expands g₀ v → v ∈ new
  unwanted : ∀ v ∈ N, v ∉ s.visited → ¬ vis.Wants g₀ v

variable {N N' : Set ℕ} {new new' : List ℕ} {s s' s'' : BfsState σ} {u v : ℕ}

theorem Grown.refl (h : I s.visited s.graph) : Grown vis I g₀ ∅ [] s s where
  length := rfl
  inv := h
  visited := (Set.union_empty _).symm
  queue := (List.append_nil _).symm
  of_new _ hv := absurd hv List.not_mem_nil
  pushed _ hv := absurd hv (Set.notMem_empty _)
  unwanted _ hv := absurd hv (Set.notMem_empty _)

theorem Grown.trans (h : Grown vis I g₀ N new s s') (h' : Grown vis I g₀ N' new' s' s'') :
    Grown vis I g₀ (N ∪ N') (new ++ new') s s'' where
  length := h'.length.trans h.length
  inv := h'.inv
  visited := by rw [h'.visited, h.visited, Set.union_assoc]
  queue := by rw [h'.queue, h.queue, List.append_assoc]
  of_new v hv := by
    rcases List.mem_append.mp hv with hv | hv
    · exact (h.of_new v hv).imp_left Or.inl
    · exact (h'.of_new v hv).imp_left Or.inr
  pushed v hv hnot he := by
    by_cases hN : v ∈ N
    · exact List.mem_append_left _ (h.pushed v hN hnot he)
    · refine List.mem_append_right _ (h'.pushed v (hv.resolve_left hN) ?_ he)
      rw [h.visited]
      exact fun hmem ↦ hmem.elim hnot hN
  unwanted v hv hnot := by
    by_cases hN : v ∈ N
    · exact h.unwanted v hN hnot
    · refine h'.unwanted v (hv.resolve_left hN) ?_
      rw [h.visited]
      exact fun hmem ↦ hmem.elim hnot hN

theorem Grown.covers (h : Grown vis I g₀ N new s s') (hv : s.colors.Covers v) :
    s'.colors.Covers v := by
  unfold ColorMap.Covers
  rw [h.length]
  exact hv

theorem Grown.of_eq {t t' : BfsState σ} (h : Grown vis I g₀ N new t t') (hc : t.colors = s.colors)
    (hq : t.queue = s.queue) : Grown vis I g₀ N new s t' := by
  have hvis : s.visited = t.visited := by
    unfold BfsState.visited
    rw [hc]
  refine ⟨hc ▸ h.length, h.inv, hvis ▸ h.visited, hq ▸ h.queue, h.of_new, ?_, ?_⟩
  · rw [hvis]
    exact h.pushed
  · rw [hvis]
    exact h.unwanted

/-- What has been put into the queue are different vertices that were white. -/
structure Fresh (new : List ℕ) (s : BfsState σ) : Prop where
  nodup : new.Nodup
  notMem : ∀ v ∈ new, v ∉ s.visited

theorem Fresh.append (h : Fresh new s) (hg : Grown vis I g₀ N new s s') (h' : Fresh new' s') :
    Fresh (new ++ new') s where
  nodup := by
    refine List.nodup_append.mpr ⟨h.nodup, h'.nodup, fun x hx y hy hxy ↦ ?_⟩
    subst hxy
    refine h'.notMem x hy ?_
    rw [hg.visited]
    exact Or.inr (hg.of_new x hx).1
  notMem v hv := by
    rcases List.mem_append.mp hv with hv | hv
    · exact h.notMem v hv
    · refine fun hold ↦ h'.notMem v hv ?_
      rw [hg.visited]
      exact Or.inl hold

theorem colors_discover : (vis.discover s v).2.colors = s.colors.putFast v .gray := by
  unfold discover
  simp only
  split <;> rfl

variable (vis s v) in
theorem length_queue_discover_le : (vis.discover s v).2.queue.length ≤ s.queue.length + 1 := by
  unfold discover
  simp only
  split
  · exact Nat.le_succ _
  · simp only
    split
    · rw [List.length_append, List.length_singleton]
    · exact Nat.le_succ _

variable (vis s) in
theorem work_discover_le (hv : s.colors.Covers v) (hwhite : s.colors.get v = .white) :
    (vis.discover s v).2.work ≤ s.work := by
  have hlt := ColorMap.card_whites_putFast_lt hv hwhite (c := .gray) (by decide)
  have hlen := length_queue_discover_le vis s v
  unfold work
  rw [colors_discover]
  omega

variable (vis) in
theorem work_discover_le_succ (hv : s.colors.Covers v) :
    (vis.discover s v).2.work ≤ s.work + 1 := by
  have hle := Finset.card_le_card (ColorMap.whites_putFast_subset hv (c := .gray))
  have hlen := length_queue_discover_le vis s v
  unfold work
  rw [colors_discover]
  omega

/-- **Discovering a vertex.** -/
theorem discover_spec (hst : vis.Steady D I g₀) (hI : I s.visited s.graph) (hD : D v)
    (hv : s.colors.Covers v) :
    (vis.discover s v).1 = true ∧ vis.Wants g₀ v ∨
      (vis.discover s v).1 = false ∧ ∃ new, Grown vis I g₀ {v} new s (vis.discover s v).2 ∧
        (vis.Expands g₀ v ∧ new = [v] ∨ ¬ vis.Expands g₀ v ∧ new = []) := by
  unfold discover
  simp only
  by_cases hw : vis.isWantedVertex v s.graph = true
  · rw [if_pos hw]
    exact Or.inl ⟨rfl, (hst.wants hI v hD).symm.trans hw⟩
  rw [if_neg hw]
  have hvis : ∀ queue, visited ⟨(vis.discoverVertex v s.graph).2, s.colors.putFast v .gray, queue⟩ =
      s.visited ∪ {v} := fun queue ↦ by
    rw [visited_putFast (by decide) hv, Set.union_singleton]
  have hinv : ∀ queue, I (visited ⟨(vis.discoverVertex v s.graph).2, s.colors.putFast v .gray,
      queue⟩) (vis.discoverVertex v s.graph).2 := fun queue ↦ by
    rw [hvis, Set.union_singleton]
    exact hst.discover hI v hD
  have hunwanted : ∀ u ∈ ({v} : Set ℕ), u ∉ s.visited → ¬ vis.Wants g₀ u := by
    rintro u rfl -
    exact fun hwant ↦ hw ((hst.wants hI u hD).trans hwant)
  refine Or.inr ⟨rfl, ?_⟩
  by_cases hexp : vis.Expands g₀ v
  · rw [if_pos ((hst.expands hI v hD).trans hexp)]
    refine ⟨[v], ⟨by simp [ColorMap.putFast], hinv _, hvis _, rfl, ?_, ?_, hunwanted⟩,
      Or.inl ⟨hexp, rfl⟩⟩
    · intro u hu
      obtain rfl := List.mem_singleton.mp hu
      exact ⟨rfl, hexp⟩
    · rintro u rfl - -
      exact List.mem_singleton_self u
  · rw [if_neg (by rwa [hst.expands hI v hD])]
    refine ⟨[], ⟨by simp [ColorMap.putFast], hinv _, hvis _, (List.append_nil _).symm, ?_, ?_,
      hunwanted⟩, Or.inr ⟨hexp, rfl⟩⟩
    · exact fun u hu ↦ absurd hu List.not_mem_nil
    · rintro u rfl - he
      exact absurd he hexp

/-- **The loop over the sources** expands each source as often as it is given. -/
theorem start_spec (hst : vis.Steady D I g₀) (sources : List ℕ) (hI : I s.visited s.graph)
    (hD : ∀ v ∈ sources, D v) (hcov : ∀ v ∈ sources, s.colors.Covers v) :
    (vis.start s sources).1 = true ∧ (∃ v ∈ sources, vis.Wants g₀ v) ∨
      (vis.start s sources).1 = false ∧
        (∃ new, Grown vis I g₀ {v | v ∈ sources} new s (vis.start s sources).2 ∧
          ∀ v, vis.Expands g₀ v → new.count v = sources.count v) ∧
        (vis.start s sources).2.work ≤ s.work + sources.length := by
  induction sources generalizing s with
  | nil =>
    refine Or.inr ⟨rfl, ⟨[], ?_, fun _ _ ↦ rfl⟩, Nat.le_refl _⟩
    simpa [start] using Grown.refl hI
  | cons v sources ih =>
    obtain ⟨hv, hcov⟩ := List.forall_mem_cons.mp hcov
    obtain ⟨hDv, hD⟩ := List.forall_mem_cons.mp hD
    have hwork := work_discover_le_succ vis hv
    rw [start]
    rcases discover_spec hst hI hDv hv with ⟨htrue, hw⟩ | ⟨hfalse, new, hgrown, hnew⟩
    · simp only [htrue, ↓reduceIte]
      exact Or.inl ⟨trivial, v, List.mem_cons_self, hw⟩
    · simp only [hfalse, Bool.false_eq_true, ↓reduceIte]
      rcases ih hgrown.inv hD (fun u hu ↦ hgrown.covers (hcov u hu)) with
        ⟨htrue, u, hu, hw⟩ | ⟨hfalse', ⟨new', hgrown', hcount⟩, hwork'⟩
      · exact Or.inl ⟨htrue, u, List.mem_cons_of_mem _ hu, hw⟩
      · refine Or.inr ⟨hfalse', ⟨new ++ new', ?_, fun u hu ↦ ?_⟩, ?_⟩
        · have hset : {u | u ∈ v :: sources} = ({v} : Set ℕ) ∪ {u | u ∈ sources} := by
            ext u
            simp
          rw [hset]
          exact hgrown.trans hgrown'
        · rw [List.count_append, hcount u hu, List.count_cons]
          rcases hnew with ⟨-, rfl⟩ | ⟨hnot, rfl⟩
          · rw [List.count_singleton]
            exact Nat.add_comm ..
          · have hne : v ≠ u := fun hvu ↦ hnot (hvu ▸ hu)
            simp [hne]
        · rw [List.length_cons]
          omega

/-- **The loop over the edges** at a vertex in one direction. -/
theorem scan_spec (hst : vis.Steady D I g₀) {examineEdge : Edge L → σ → Bool}
    (endpoint : Edge L → ℕ) (es : List (Edge L))
    (hex : ∀ {C g}, I C g → ∀ e, examineEdge e g = examineEdge e g₀) (hI : I s.visited s.graph)
    (hD : ∀ v ∈ Offered examineEdge endpoint g₀ es, D v)
    (hcov : ∀ v ∈ Offered examineEdge endpoint g₀ es, s.colors.Covers v) :
    (vis.scan examineEdge endpoint s es).1 = true ∧
        (∃ v ∈ Offered examineEdge endpoint g₀ es, vis.Wants g₀ v) ∨
      (vis.scan examineEdge endpoint s es).1 = false ∧
        (∃ new, Grown vis I g₀ (Offered examineEdge endpoint g₀ es) new s
          (vis.scan examineEdge endpoint s es).2 ∧ Fresh new s) ∧
        (vis.scan examineEdge endpoint s es).2.work ≤ s.work := by
  induction es generalizing s with
  | nil =>
    refine Or.inr ⟨rfl, ⟨[], ?_, List.nodup_nil, nofun⟩, Nat.le_refl _⟩
    simpa [Offered, scan] using Grown.refl hI
  | cons e es ih =>
    have hset : Offered examineEdge endpoint g₀ (e :: es) =
        {v | examineEdge e g₀ = true ∧ endpoint e = v} ∪ Offered examineEdge endpoint g₀ es := by
      ext v
      simp [Offered]
    rw [hset] at hcov hD ⊢
    rw [scan]
    by_cases hcond : examineEdge e s.graph = true ∧ s.colors.get (endpoint e) = .white
    · rw [if_pos hcond]
      have hex₀ : examineEdge e g₀ = true := (hex hI e).symm.trans hcond.1
      have hhead : {v | examineEdge e g₀ = true ∧ endpoint e = v} = {endpoint e} := by
        ext v
        simp [hex₀, eq_comm]
      rw [hhead] at hcov hD ⊢
      have hv : s.colors.Covers (endpoint e) := hcov _ (Or.inl rfl)
      have hwork := work_discover_le vis { s with graph := vis.treeEdge e s.graph } hv hcond.2
      rcases discover_spec (s := { s with graph := vis.treeEdge e s.graph }) hst
          (hst.treeEdge hI e) (hD _ (Or.inl rfl)) hv with
        ⟨htrue, hw⟩ | ⟨hfalse, new, hgrown, hnew⟩
      · simp only [htrue, ↓reduceIte]
        exact Or.inl ⟨trivial, endpoint e, Or.inl rfl, hw⟩
      · simp only [hfalse, Bool.false_eq_true, ↓reduceIte]
        have hgrown : Grown vis I g₀ {endpoint e} new s _ := hgrown.of_eq rfl rfl
        have hfresh : Fresh new s := by
          rcases hnew with ⟨-, rfl⟩ | ⟨-, rfl⟩
          · refine ⟨List.nodup_singleton _, fun v hmem ↦ ?_⟩
            obtain rfl := List.mem_singleton.mp hmem
            exact fun hold ↦ hold hcond.2
          · exact ⟨List.nodup_nil, nofun⟩
        rcases ih hgrown.inv (fun u hu ↦ hD u (Or.inr hu))
            (fun u hu ↦ hgrown.covers (hcov u (Or.inr hu))) with
          ⟨htrue, u, hu, hw⟩ | ⟨hfalse', ⟨new', hgrown', hfresh'⟩, hwork'⟩
        · exact Or.inl ⟨htrue, u, Or.inr hu, hw⟩
        · exact Or.inr ⟨hfalse', ⟨_, hgrown.trans hgrown', hfresh.append hgrown hfresh'⟩,
            hwork'.trans hwork⟩
    · rw [if_neg hcond]
      rcases ih hI (fun u hu ↦ hD u (Or.inr hu)) (fun u hu ↦ hcov u (Or.inr hu)) with
        ⟨htrue, u, hu, hw⟩ | ⟨hfalse, ⟨new, hgrown, hfresh⟩, hwork⟩
      · exact Or.inl ⟨htrue, u, Or.inr hu, hw⟩
      · -- the edge is not followed, or its endpoint has been visited before
        have hold : ∀ u, examineEdge e g₀ = true ∧ endpoint e = u → u ∈ s.visited := by
          rintro u ⟨hex₀, rfl⟩ hwhite
          exact hcond ⟨(hex hI e).trans hex₀, hwhite⟩
        refine Or.inr ⟨hfalse, ⟨new, ⟨hgrown.length, hgrown.inv, ?_, hgrown.queue, ?_, ?_, ?_⟩,
          hfresh⟩, hwork⟩
        · rw [hgrown.visited]
          ext u
          constructor
          · exact Or.imp_right Or.inr
          · rintro (hu | hu | hu)
            · exact Or.inl hu
            · exact Or.inl (hold u hu)
            · exact Or.inr hu
        · exact fun u hu ↦ (hgrown.of_new u hu).imp_left Or.inr
        · exact fun u hu hnot ↦ hgrown.pushed u (hu.resolve_left fun h ↦ hnot (hold u h)) hnot
        · exact fun u hu hnot ↦ hgrown.unwanted u (hu.resolve_left fun h ↦ hnot (hold u h)) hnot

/-- **One round** for the vertex `u` taken from the queue: the search comes to
everything next to it. -/
theorem examine_spec (hst : vis.Steady D I g₀) (hI : I s.visited (vis.examineVertex u s.graph))
    (hu : u ∈ s.visited) (hDu : D u) (hcu : s.colors.Covers u)
    (hD : ∀ v, vis.Next g₀ u v → D v) (hcov : ∀ v, vis.Next g₀ u v → s.colors.Covers v) :
    (vis.examine s u).1 = true ∧ (∃ v, vis.Next g₀ u v ∧ vis.Wants g₀ v) ∨
      (vis.examine s u).1 = false ∧
        (∃ new, Grown vis I g₀ {v | vis.Next g₀ u v} new s (vis.examine s u).2 ∧ Fresh new s) ∧
        (vis.examine s u).2.work ≤ s.work := by
  unfold examine
  simp only
  rw [hst.inEdges hI u hDu]
  rcases scan_spec (s := { s with graph := vis.examineVertex u s.graph }) hst Edge.source
      (vis.inEdges g₀ u) (fun hg e ↦ hst.backwards hg e) hI
      (fun v hv ↦ hD v (Or.inl hv)) (fun v hv ↦ hcov v (Or.inl hv)) with
    ⟨htrue, v, hv, hw⟩ | ⟨hfalse, ⟨new, hback, hfresh⟩, hwork⟩
  · rw [if_pos htrue]
    exact Or.inl ⟨htrue, v, Or.inl hv, hw⟩
  · rw [if_neg (by rw [hfalse]; decide)]
    generalize vis.scan vis.examineBackwardsEdge Edge.source
      { s with graph := vis.examineVertex u s.graph } (vis.inEdges g₀ u) = r at hback hwork ⊢
    have hback := hback.of_eq (s := s) rfl rfl
    have hfresh : Fresh new s := ⟨hfresh.nodup, hfresh.notMem⟩
    rw [hst.outEdges hback.inv u hDu]
    rcases scan_spec hst Edge.target (vis.outEdges g₀ u) (fun hg e ↦ hst.forwards hg e) hback.inv
        (fun v hv ↦ hD v (Or.inr hv)) (fun v hv ↦ hback.covers (hcov v (Or.inr hv))) with
      ⟨htrue, v, hv, hw⟩ | ⟨hfalse', ⟨new', hfwd, hfresh'⟩, hwork'⟩
    · rw [if_pos htrue]
      exact Or.inl ⟨htrue, v, Or.inr hv, hw⟩
    · rw [if_neg (by rw [hfalse']; decide)]
      generalize vis.scan vis.examineForwardsEdge Edge.target r.2 (vis.outEdges g₀ u) = r'
        at hfwd hwork' ⊢
      have hgrown := hback.trans hfwd
      have hcu' : r'.2.colors.Covers u := hgrown.covers hcu
      -- the vertex itself has been visited, so blackening it does not show
      have hvis : visited ⟨vis.finishVertex u r'.2.graph, r'.2.colors.putFast u .black,
          r'.2.queue⟩ = r'.2.visited := by
        rw [visited_putFast (by decide) hcu']
        refine Set.insert_eq_of_mem ?_
        rw [hgrown.visited]
        exact Or.inl hu
      refine Or.inr ⟨rfl, ⟨_, ⟨?_, ?_, hvis.trans hgrown.visited, hgrown.queue, hgrown.of_new,
        hgrown.pushed, hgrown.unwanted⟩, hfresh.append hback hfresh'⟩, ?_⟩
      · rw [← hgrown.length]
        simp [ColorMap.putFast]
      · rw [hvis]
        exact hst.finishVertex hgrown.inv u
      · have hle := Finset.card_le_card (ColorMap.whites_putFast_subset hcu' (c := .black))
        have hall : r'.2.work ≤ s.work := hwork'.trans hwork
        unfold work at hall ⊢
        simp only
        omega

end Growing

/-! ## The loop -/

section Loop

variable {vis : BfsVisitor σ L} {I : Set ℕ → List ℕ → σ → Prop} {g₀ : σ} {sources log : List ℕ}
  {s s' : BfsState σ} {u : ℕ}

/-- The invariant of the loop, after the vertices of `log` have been examined.  A vertex that
is expanded is in the log or in the queue, a source as often as it is given. -/
structure Inv (vis : BfsVisitor σ L) (I : Set ℕ → List ℕ → σ → Prop) (g₀ : σ)
    (sources log : List ℕ) (s : BfsState σ) : Prop where
  inv : I s.visited log s.graph
  covers : ∀ v, vis.Sees g₀ sources v → s.colors.Covers v
  sees : ∀ v ∈ s.visited, vis.Sees g₀ sources v
  source : ∀ v ∈ sources, v ∈ s.visited
  queue : ∀ v ∈ log ++ s.queue, v ∈ s.visited ∧ vis.Expands g₀ v
  closed : ∀ u v, u ∈ s.visited → vis.Expands g₀ u → vis.Next g₀ u v → v ∈ s.visited ∨ u ∈ s.queue
  count : ∀ v ∈ s.visited, vis.Expands g₀ v →
    (log ++ s.queue).count v = max 1 (sources.count v)
  unwanted : ∀ v ∈ s.visited, ¬ vis.Wants g₀ v

theorem Inv.examine {queue new : List ℕ} (h : Inv vis I g₀ sources log s)
    (hq : s.queue = u :: queue)
    (hg : Grown vis (I · (log ++ [u])) g₀ {v | vis.Next g₀ u v} new { s with queue := queue } s')
    (hfresh : Fresh new s) : Inv vis I g₀ sources (log ++ [u]) s' := by
  obtain ⟨huvis, hexp⟩ := h.queue u (List.mem_append_right _ (hq ▸ List.mem_cons_self))
  have hvis : s'.visited = s.visited ∪ {v | vis.Next g₀ u v} := hg.visited
  have hnext : ∀ v, vis.Next g₀ u v → vis.Sees g₀ sources v :=
    fun v hv ↦ .step (h.sees u huvis) hexp hv
  have hall : log ++ [u] ++ s'.queue = log ++ s.queue ++ new := by
    rw [hg.queue, hq]
    simp
  refine ⟨hg.inv, fun v hv ↦ hg.covers (h.covers v hv), fun v hv ↦ ?_, fun v hv ↦ ?_,
    fun v hv ↦ ?_, fun x v hx hxe hxv ↦ ?_, fun v hv he ↦ ?_, fun v hv ↦ ?_⟩
  · rw [hvis] at hv
    exact hv.elim (h.sees v) (hnext v)
  · rw [hvis]
    exact Or.inl (h.source v hv)
  · rw [hall] at hv
    rw [hvis]
    rcases List.mem_append.mp hv with hv | hv
    · exact (h.queue v hv).imp_left Or.inl
    · exact (hg.of_new v hv).imp_left Or.inr
  · rw [hvis]
    by_cases hx' : x ∈ s.visited
    · rcases h.closed x v hx' hxe hxv with hv | hmem
      · exact Or.inl (Or.inl hv)
      · rw [hq] at hmem
        rcases List.mem_cons.mp hmem with rfl | hmem
        · exact Or.inl (Or.inr hxv)
        · rw [hg.queue]
          exact Or.inr (List.mem_append_left _ hmem)
    · rw [hvis] at hx
      rw [hg.queue]
      exact Or.inr (List.mem_append_right _ (hg.pushed x (hx.resolve_left hx') hx' hxe))
  · rw [hall, List.count_append]
    by_cases hv' : v ∈ s.visited
    · rw [h.count v hv' he, List.count_eq_zero.mpr fun hmem ↦ hfresh.notMem v hmem hv']
      rfl
    · -- a vertex that was white before, so it is no source and it is new
      rw [hvis] at hv
      have hold : (log ++ s.queue).count v = 0 :=
        List.count_eq_zero.mpr fun hmem ↦ hv' (h.queue v hmem).1
      have hsource : sources.count v = 0 :=
        List.count_eq_zero.mpr fun hmem ↦ hv' (h.source v hmem)
      rw [hold, hsource, List.count_eq_one_of_mem hfresh.nodup
        (hg.pushed v (hv.resolve_left hv') hv' he)]
      rfl
  · rw [hvis] at hv
    by_cases hv' : v ∈ s.visited
    · exact h.unwanted v hv'
    · exact hg.unwanted v (hv.resolve_left hv') hv'

/-- What the search returns: a wanted vertex was seen; or nothing of what the search sees is
wanted, the vertices that are not white are those that it sees, and the ones that it expands
have been examined, each once but the sources as often as they are given. -/
def Outcome (vis : BfsVisitor σ L) (I : Set ℕ → List ℕ → σ → Prop) (g₀ : σ) (sources : List ℕ)
    (r : Bool × BfsState σ) : Prop :=
  r.1 = true ∧ (∃ v, vis.Sees g₀ sources v ∧ vis.Wants g₀ v) ∨
    r.1 = false ∧ (∀ v, vis.Sees g₀ sources v → ¬ vis.Wants g₀ v) ∧
      r.2.visited = {v | vis.Sees g₀ sources v} ∧
      ∃ log g, r.2.graph = vis.finished g ∧ I {v | vis.Sees g₀ sources v} log g ∧
        (∀ v ∈ log, vis.Sees g₀ sources v ∧ vis.Expands g₀ v) ∧
        ∀ v, vis.Sees g₀ sources v → vis.Expands g₀ v → log.count v = max 1 (sources.count v)

theorem Inv.outcome (h : Inv vis I g₀ sources log s) (hq : s.queue = []) :
    Outcome vis I g₀ sources (false, { s with graph := vis.finished s.graph }) := by
  have hsees : s.visited = {v | vis.Sees g₀ sources v} := by
    ext v
    refine ⟨h.sees v, fun hv ↦ hv.mem_of_closed h.source fun x y hx hxe hxy ↦ ?_⟩
    refine (h.closed x y hx hxe hxy).resolve_right fun hmem ↦ ?_
    rw [hq] at hmem
    cases hmem
  have hmem : ∀ v, vis.Sees g₀ sources v → v ∈ s.visited := fun v hv ↦ by
    rw [hsees]
    exact hv
  have hlog : log ++ s.queue = log := by
    rw [hq, List.append_nil]
  have hqueue := h.queue
  have hcount := h.count
  rw [hlog] at hqueue hcount
  refine Or.inr ⟨rfl, fun v hv ↦ h.unwanted v (hmem v hv), hsees, log, s.graph, rfl, ?_,
    fun v hv ↦ (hqueue v hv).imp_left (h.sees v), fun v hv ↦ hcount v (hmem v hv)⟩
  rw [← hsees]
  exact h.inv

/-- **The loop ends** with the right result. -/
theorem loop_spec (hst : vis.StableOn sources I g₀) {rounds : ℕ}
    (h : Inv vis I g₀ sources log s) (hwork : s.work < rounds) :
    ∃ r, vis.loop rounds s = some r ∧ Outcome vis I g₀ sources r := by
  induction rounds generalizing s log with
  | zero => omega
  | succ rounds ih =>
    cases hq : s.queue with
    | nil => exact ⟨_, by simp only [loop, hq], h.outcome hq⟩
    | cons u queue =>
      obtain ⟨huvis, hexp⟩ := h.queue u (List.mem_append_right _ (hq ▸ List.mem_cons_self))
      have hsees := h.sees u huvis
      have hnext : ∀ v, vis.Next g₀ u v → vis.Sees g₀ sources v :=
        fun v hv ↦ .step hsees hexp hv
      rcases examine_spec (s := { s with queue := queue }) (hst.steady (log ++ [u]))
          (hst.examineVertex h.inv u hsees hexp) huvis hsees (h.covers u hsees) hnext
          (fun v hv ↦ h.covers v (hnext v hv)) with
        ⟨htrue, v, hv, hw⟩ | ⟨hfalse, ⟨new, hgrown, hfresh⟩, hle⟩
      · exact ⟨_, by simp only [loop, hq, htrue]; rfl, Or.inl ⟨htrue, v, hnext v hv, hw⟩⟩
      · have hlt : (vis.examine { s with queue := queue } u).2.work < rounds := by
          unfold work at hwork hle ⊢
          rw [hq, List.length_cons] at hwork
          simp only at hle
          omega
        obtain ⟨r, hr, hres⟩ :=
          ih (h.examine hq hgrown ⟨hfresh.nodup, hfresh.notMem⟩) hlt
        exact ⟨r, by simp only [loop, hq, hfalse]; exact hr, hres⟩

/-- **The search sees what it should.**  It ends, it returns `true` exactly when it sees a
wanted vertex, and otherwise it examines what it expands. -/
theorem bfs_outcome (hst : vis.StableOn sources I g₀) (hI : I ∅ [] g₀) (hsources : sources ≠ [])
    (colors : ColorMap) (hcov : ∀ v, vis.Sees g₀ sources v → colors.Covers v) :
    ∃ r, vis.breadthFirstSearchTwoway g₀ sources colors = some r ∧
      Outcome vis I g₀ sources r := by
  unfold breadthFirstSearchTwoway
  rw [if_neg hsources]
  have hvis₀ : visited ⟨g₀, colors.init, []⟩ = ∅ := by
    ext v
    simp [visited]
  have hlen : colors.init.colors.length = colors.colors.length := by simp [ColorMap.init]
  simp only
  rcases start_spec (s := ⟨g₀, colors.init, []⟩) (hst.steady []) sources (hvis₀.symm ▸ hI)
      (fun v hv ↦ .source hv) (fun v hv ↦ ColorMap.covers_init.mpr (hcov v (.source hv))) with
    ⟨htrue, v, hv, hw⟩ | ⟨hfalse, ⟨new, hgrown, hcount⟩, hwork⟩
  · rw [if_pos htrue]
    exact ⟨_, rfl, Or.inl ⟨htrue, v, .source hv, hw⟩⟩
  · rw [if_neg (by rw [hfalse]; decide)]
    generalize vis.start ⟨g₀, colors.init, []⟩ sources = r at hgrown hwork ⊢
    have hvis : r.2.visited = {v | v ∈ sources} := by
      rw [hgrown.visited, hvis₀, Set.empty_union]
    have hqueue : r.2.queue = new := hgrown.queue
    have hinv : Inv vis I g₀ sources [] r.2 := by
      refine ⟨hgrown.inv, fun v hv ↦ ?_, fun v hv ↦ ?_, fun v hv ↦ ?_, fun v hv ↦ ?_,
        fun u v hu he _ ↦ ?_, fun v hv he ↦ ?_, fun v hv ↦ ?_⟩
      · exact hgrown.covers (ColorMap.covers_init.mpr (hcov v hv))
      · rw [hvis] at hv
        exact .source hv
      · rw [hvis]
        exact hv
      · rw [List.nil_append, hqueue] at hv
        rw [hvis]
        exact hgrown.of_new v hv
      · rw [hvis] at hu
        rw [hqueue]
        exact Or.inr (hgrown.pushed u hu (hvis₀ ▸ Set.notMem_empty u) he)
      · rw [hvis] at hv
        rw [List.nil_append, hqueue, hcount v he]
        exact (max_eq_right (List.count_pos_iff.mpr hv)).symm
      · rw [hvis] at hv
        exact hgrown.unwanted v hv (hvis₀ ▸ Set.notMem_empty v)
    refine loop_spec hst hinv ?_
    have hcard : colors.init.whites.card ≤ 4 * colors.colors.length := by
      refine (Finset.card_filter_le _ _).trans ?_
      rw [Finset.card_range, hlen]
    unfold work at hwork ⊢
    simp only [List.length_nil, Nat.add_zero] at hwork
    omega

end Loop

section Stable

variable {vis : BfsVisitor σ L} {I : Set ℕ → σ → Prop} {g₀ : σ} {sources : List ℕ}

/-- What the search returns: a wanted vertex was seen, or everything was seen and
nothing of it is wanted. -/
def Result (vis : BfsVisitor σ L) (I : Set ℕ → σ → Prop) (g₀ : σ) (sources : List ℕ)
    (r : Bool × BfsState σ) : Prop :=
  r.1 = true ∧ (∃ v, vis.Sees g₀ sources v ∧ vis.Wants g₀ v) ∨
    r.1 = false ∧ I {v | vis.Sees g₀ sources v} r.2.graph ∧
      ∀ v, vis.Sees g₀ sources v → ¬ vis.Wants g₀ v

theorem not_sees_nil (v : ℕ) : ¬ vis.Sees g₀ [] v := fun hv ↦
  (hv.mem_of_closed (C := ∅) (fun _ h ↦ absurd h List.not_mem_nil) fun _ _ h ↦ h.elim).elim

/-- The search for every list of sources, with a visitor that is stable everywhere. -/
theorem bfs_spec (hst : vis.Stable I g₀) (hI : I ∅ g₀) (colors : ColorMap)
    (hcov : ∀ v, vis.Sees g₀ sources v → colors.Covers v) :
    ∃ r, vis.breadthFirstSearchTwoway g₀ sources colors = some r ∧ Result vis I g₀ sources r := by
  by_cases hsources : sources = []
  · subst hsources
    have hempty : {v | vis.Sees g₀ [] v} = ∅ := by
      ext v
      exact ⟨fun h ↦ (not_sees_nil v h).elim, fun h ↦ h.elim⟩
    refine ⟨_, if_pos rfl, Or.inr ⟨rfl, ?_, fun v hv ↦ absurd hv (not_sees_nil v)⟩⟩
    rw [hempty]
    exact hI
  · obtain ⟨r, hr, hout⟩ := bfs_outcome (hst.stableOn sources) hI hsources colors hcov
    refine ⟨r, hr, ?_⟩
    rcases hout with htrue | ⟨hfalse, hunwanted, -, log, g, hg, hI', -, -⟩
    · exact Or.inl htrue
    · refine Or.inr ⟨hfalse, ?_, hunwanted⟩
      rw [hg]
      exact hst.finished hI'

end Stable

end BfsVisitor

end Cali.Graph
