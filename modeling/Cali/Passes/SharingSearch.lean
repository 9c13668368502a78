import Mathlib.Algebra.BigOperators.Group.Finset.Basic
import Cali.Graph.Tarjan
import Cali.Lib.KeyedSearch
import Cali.Passes.Reachability

/-!
# Looking for shared memory behind a value

Whether a call has to be specialised depends on what can be reached from its result and
its arguments along `Deref` and `Part` edges.  The local function `isShared` searches for
a marked vertex.  It counts the `Deref` edges on the way, starts with a negative counter
because the outermost pointers do not count, and gives up beyond five.  It visits each
vertex once, with the counter it is met with first.
-/

namespace Cali.Passes

open Cali.Graph Cali.Lib

variable {Val Fn : Type}

namespace PDG

/-! ## Searches along the structure of values -/

/-- How many edges are stored at the vertices that were not seen. -/
def unseenEdges (g : PDG Val Fn) (seen : ℕ → Bool) : ℕ :=
  ∑ v ∈ Finset.range g.graph.capacity with seen v = false, (g.graph.outEdges v).length

theorem unseenEdges_update {g : PDG Val Fn} (hin : g.graph.Inside) (seen : ℕ → Bool) {v : ℕ}
    (hv : seen v = false) :
    (g.graph.outEdges v).length + g.unseenEdges (Function.update seen v true) =
      g.unseenEdges seen := by
  have hset : (Finset.range g.graph.capacity).filter
      (fun u ↦ Function.update seen v true u = false) =
      ((Finset.range g.graph.capacity).filter fun u ↦ seen u = false).erase v := by
    ext u
    rw [Finset.mem_erase, Finset.mem_filter, Finset.mem_filter]
    by_cases huv : u = v
    · simp [huv]
    · simp [huv]
  rw [unseenEdges, unseenEdges, hset]
  by_cases hlt : v < g.graph.capacity
  · exact Finset.add_sum_erase _ (fun u ↦ (g.graph.outEdges u).length)
      (Finset.mem_filter.mpr ⟨Finset.mem_range.mpr hlt, hv⟩)
  · -- a vertex beyond the end has no edges
    have hnil : g.graph.outEdges v = [] :=
      List.eq_nil_iff_forall_not_mem.mpr fun e he ↦ hlt (hin v e.target ⟨e, he, rfl⟩).1
    rw [hnil, Finset.erase_eq_of_notMem fun hmem ↦
      hlt (Finset.mem_range.mp (Finset.mem_filter.mp hmem).1)]
    exact Nat.zero_add _

/-! ## `isShared` -/

/-- The call `isShared` makes for an edge. -/
def sharedCall (limit : ℤ) (e : Edge PDGEdge) : Option (ℕ × ℤ) :=
  match e.property.type with
  | .deref => some (e.target, limit + 1)
  | .part => some (e.target, limit)
  | _ => none

/-- The calls `isShared` makes for the edges of `v`. -/
def sharedCalls (g : PDG Val Fn) (c : ℕ × ℤ) : List (ℕ × ℤ) :=
  (g.graph.outEdges c.1).filterMap (sharedCall c.2)

/-- `isShared`, with the calls that are still to be made: a call that returns `true` makes
all the others return.  `none` would mean that the rounds were not enough. -/
def isSharedLoop (g : PDG Val Fn) : ℕ → List (ℕ × ℤ) → (ℕ → Bool) → Option Bool
  | 0, _, _ => none
  | _ + 1, [], _ => some false
  | rounds + 1, (v, limit) :: calls, visited =>
    if limit ≥ 0 ∧ g.Marked v then some true
    else if limit > 5 ∨ visited v = true then isSharedLoop g rounds calls visited
    else
      isSharedLoop g rounds (g.sharedCalls (v, limit) ++ calls) (Function.update visited v true)

/-- `isShared(v, limit)`, with nothing visited. -/
def isShared (g : PDG Val Fn) (v : ℕ) (limit : ℤ) : Option Bool :=
  g.isSharedLoop (g.unseenEdges (fun _ ↦ false) + 2) [(v, limit)] fun _ ↦ false

/-- The loop of `vertexRequiresSpecialization` over the arguments. -/
def argumentIsShared (g : PDG Val Fn) : List (Edge PDGEdge) → Option Bool
  | [] => some false
  | e :: es =>
    if e.property.type = .param then
      (g.isShared e.source (-2)).bind fun shared ↦
        if shared then some true else argumentIsShared g es
    else argumentIsShared g es

/-- `vertexRequiresSpecialization` -/
def vertexRequiresSpecialization (g : PDG Val Fn) (vertex : ℕ) : Option Bool :=
  (g.isShared vertex (-1)).bind fun shared ↦
    if shared then some true else g.argumentIsShared (g.graph.inEdges vertex)

/-! ## The paths it looks for -/

/-- One edge of a path: a vertex is left while its counter is at most five, and `Deref`
edges count. -/
inductive SharingStep (g : PDG Val Fn) : ℕ × ℤ → ℕ × ℤ → Prop
  | deref {u : ℕ} {limit : ℤ} {e : Edge PDGEdge} (hlimit : limit ≤ 5)
      (he : e ∈ g.graph.outEdges u) (ht : e.property.type = .deref) :
      SharingStep g (u, limit) (e.target, limit + 1)
  | part {u : ℕ} {limit : ℤ} {e : Edge PDGEdge} (hlimit : limit ≤ 5)
      (he : e ∈ g.graph.outEdges u) (ht : e.property.type = .part) :
      SharingStep g (u, limit) (e.target, limit)

/-- The vertex `w` can be met with the counter `n`. -/
def Meets (g : PDG Val Fn) (v : ℕ) (limit : ℤ) (w : ℕ) (n : ℤ) : Prop :=
  Relation.ReflTransGen g.SharingStep (v, limit) (w, n)

/-- There is a path to a marked vertex that ends with a counter of at least zero. -/
def LeadsToShared (g : PDG Val Fn) (v : ℕ) (limit : ℤ) : Prop :=
  ∃ w n, g.Meets v limit w n ∧ 0 ≤ n ∧ g.Marked w

/-- A depth-first search that meets the vertices in this order, the last one first, with these
counters, meets no marked vertex with a counter of at least zero. -/
def Hides (g : PDG Val Fn) (v : ℕ) (limit : ℤ) (order : List (ℕ × ℤ)) : Prop :=
  DepthFirst Prod.fst g.SharingStep (fun c ↦ c.2 ≤ 5) (v, limit) order ∧
    ∀ c, c = (v, limit) ∨ (∃ b ∈ order, g.SharingStep b c) →
      Called Prod.fst (fun c ↦ c.2 ≤ 5) (fun c ↦ ¬ (0 ≤ c.2 ∧ g.Marked c.1)) order c

/-- The graphs differ in the order of the outgoing edges only. -/
structure Reordered (g' g : PDG Val Fn) : Prop where
  capacity : g'.graph.capacity = g.graph.capacity
  node : g'.node = g.node
  outEdges : ∀ u, (g'.graph.outEdges u).Perm (g.graph.outEdges u)

variable {g g' : PDG Val Fn} {v w : ℕ} {limit n : ℤ}

theorem sharingStep_iff {c d : ℕ × ℤ} :
    g.SharingStep c d ↔ CallStep g.sharedCalls (fun c ↦ c.2 ≤ 5) c d := by
  unfold CallStep sharedCalls
  rw [List.mem_filterMap]
  constructor
  · rintro (⟨hlimit, he, ht⟩ | ⟨hlimit, he, ht⟩)
    · exact ⟨hlimit, _, he, by rw [sharedCall, ht]⟩
    · exact ⟨hlimit, _, he, by rw [sharedCall, ht]⟩
  · obtain ⟨u, limit⟩ := c
    rintro ⟨hlimit, e, he, hd⟩
    unfold sharedCall at hd
    split at hd
    · next ht =>
        cases hd
        exact .deref hlimit he ht
    · next ht =>
        cases hd
        exact .part hlimit he ht
    · cases hd

theorem sharingStep_eq : g.SharingStep = CallStep g.sharedCalls fun c ↦ c.2 ≤ 5 := by
  funext c d
  exact propext sharingStep_iff

/-- A search has expanded `expanded` and still has to make `calls`; it has found nothing. -/
abbrev SharingSearch (g : PDG Val Fn) (start : ℕ × ℤ) (calls expanded : List (ℕ × ℤ)) : Prop :=
  Searched Prod.fst g.sharedCalls (fun c ↦ c.2 ≤ 5) (fun c ↦ ¬ (0 ≤ c.2 ∧ g.Marked c.1)) start
    calls expanded

/-- A result, with the search that has led to it. -/
def SharingResult (g : PDG Val Fn) (start : ℕ × ℤ) : Option Bool → Prop
  | some true => ∃ c calls expanded, g.SharingSearch start (c :: calls) expanded ∧ 0 ≤ c.2 ∧
      g.Marked c.1
  | some false => ∃ expanded, g.SharingSearch start [] expanded
  | none => False

/-- **The loop ends**: it has found a marked vertex, or it has made all calls. -/
theorem isSharedLoop_spec (hin : g.graph.Inside) {start : ℕ × ℤ} {rounds : ℕ}
    {calls expanded : List (ℕ × ℤ)} {visited : ℕ → Bool}
    (hsearch : g.SharingSearch start calls expanded)
    (hvisited : ∀ v, visited v = true ↔ v ∈ expanded.map Prod.fst)
    (hrounds : calls.length + g.unseenEdges visited < rounds) :
    g.SharingResult start (g.isSharedLoop rounds calls visited) := by
  induction rounds generalizing calls expanded visited with
  | zero => exact absurd hrounds (Nat.not_lt_zero _)
  | succ rounds ih =>
    cases calls with
    | nil => exact ⟨expanded, hsearch⟩
    | cons c calls =>
      obtain ⟨v, limit⟩ := c
      rw [isSharedLoop]
      split
      · next hfound => exact ⟨(v, limit), calls, expanded, hsearch, hfound⟩
      · next hnot =>
          rw [List.length_cons] at hrounds
          split
          · next hskip =>
              refine ih (hsearch.skip ⟨hnot, fun hle ↦ ?_⟩) hvisited (by omega)
              rcases hskip with hlimit | hv
              · exact absurd hle (not_le.mpr hlimit)
              · exact (hvisited v).mp hv
          · next hexpand =>
              obtain ⟨hlimit, hv⟩ := not_or.mp hexpand
              have hsum := unseenEdges_update hin visited (Bool.not_eq_true _ ▸ hv)
              have hlen : (g.sharedCalls (v, limit)).length ≤ (g.graph.outEdges v).length :=
                List.length_filterMap_le ..
              have hnew : v ∉ expanded.map Prod.fst := fun hmem ↦ hv ((hvisited v).mpr hmem)
              refine ih (hsearch.expand hnot (not_lt.mp hlimit) hnew) (fun u ↦ ?_) ?_
              · rw [List.map_cons, List.mem_cons]
                by_cases huv : u = v
                · simp [huv]
                · rw [Function.update_of_ne huv, hvisited]
                  exact (or_iff_right huv).symm
              · rw [List.length_append]
                omega

theorem isShared_spec (hin : g.graph.Inside) (v : ℕ) (limit : ℤ) :
    g.SharingResult (v, limit) (g.isShared v limit) := by
  refine isSharedLoop_spec hin .init (fun u ↦ ?_) ?_
  · simp
  · rw [List.length_singleton]
    omega

/-- `isShared` returns.  It returns `true` only if there is a path, and `false` only if an
order hides all marked vertices. -/
theorem isShared_cases (hin : g.graph.Inside) (v : ℕ) (limit : ℤ) :
    g.isShared v limit = some true ∧ g.LeadsToShared v limit ∨
      g.isShared v limit = some false ∧ ∃ order, g.Hides v limit order := by
  match g.isShared v limit, isShared_spec hin v limit with
  | some true, ⟨(w, n), calls, expanded, hsearch, hn, hw⟩ =>
    refine Or.inl ⟨rfl, w, n, ?_, hn, hw⟩
    rw [Meets, sharingStep_eq]
    rcases hsearch.reached with heq | ⟨b, hb, hstep⟩
    · rw [heq]
    · exact (hsearch.depthFirst.reached b hb).2.tail hstep
  | some false, ⟨order, hsearch⟩ =>
    refine Or.inr ⟨rfl, order, ?_⟩
    rw [Hides, sharingStep_eq]
    refine ⟨hsearch.depthFirst, ?_⟩
    rintro c (rfl | ⟨b, hb, hstep⟩)
    · exact hsearch.frames.all_made.1
    · exact hsearch.frames.all_made.2 b hb c hstep.2

theorem leadsToShared_of_isShared (hin : g.graph.Inside) (h : g.isShared v limit = some true) :
    g.LeadsToShared v limit := by
  rcases isShared_cases hin v limit with ⟨-, hpath⟩ | ⟨hfalse, -⟩
  · exact hpath
  · rw [h] at hfalse
    cases hfalse

theorem isShared_returns (hin : g.graph.Inside) (v : ℕ) (limit : ℤ) :
    ∃ shared, g.isShared v limit = some shared := by
  rcases isShared_cases hin v limit with ⟨htrue, -⟩ | ⟨hfalse, -⟩
  · exact ⟨true, htrue⟩
  · exact ⟨false, hfalse⟩

theorem argumentIsShared_spec (hin : g.graph.Inside) (es : List (Edge PDGEdge)) :
    ∃ shared, g.argumentIsShared es = some shared ∧
      (shared = true ↔
        ∃ e ∈ es, e.property.type = .param ∧ g.isShared e.source (-2) = some true) := by
  induction es with
  | nil => exact ⟨false, rfl, by simp⟩
  | cons e es ih =>
    obtain ⟨shared, hshared, hiff⟩ := ih
    rw [argumentIsShared]
    split
    · next ht =>
        obtain ⟨first, hfirst⟩ := isShared_returns hin e.source (-2)
        cases first with
        | true => exact ⟨true, by rw [hfirst]; rfl, by simp [ht, hfirst]⟩
        | false => exact ⟨shared, by rw [hfirst]; exact hshared, by simp [hfirst, hiff]⟩
    · next ht => exact ⟨shared, hshared, by simp [ht, hiff]⟩

/-- **A call that is specialised has a reason to be**: shared memory behind its result or behind
one of its arguments. -/
theorem vertexRequiresSpecialization_spec (hin : g.graph.Inside) (vertex : ℕ) :
    ∃ required, g.vertexRequiresSpecialization vertex = some required ∧
      (required = true → g.LeadsToShared vertex (-1) ∨
        ∃ e ∈ g.graph.inEdges vertex,
          e.property.type = .param ∧ g.LeadsToShared e.source (-2)) := by
  obtain ⟨shared, hshared⟩ := isShared_returns hin vertex (-1)
  obtain ⟨required, hrequired, hiff⟩ := argumentIsShared_spec hin (g.graph.inEdges vertex)
  unfold vertexRequiresSpecialization
  rw [hshared]
  cases shared with
  | true => exact ⟨true, rfl, fun _ ↦ Or.inl (leadsToShared_of_isShared hin hshared)⟩
  | false =>
    refine ⟨required, hrequired, fun h ↦ ?_⟩
    obtain ⟨e, he, ht, hfound⟩ := hiff.mp h
    exact Or.inr ⟨e, he, ht, leadsToShared_of_isShared hin hfound⟩

namespace Reordered

theorem sharingStep (h : g'.Reordered g) : g'.SharingStep = g.SharingStep := by
  rw [sharingStep_eq, sharingStep_eq]
  funext c d
  exact propext (and_congr_right fun _ ↦ ((h.outEdges c.1).filterMap _).mem_iff)

theorem marked (h : g'.Reordered g) : g'.Marked = g.Marked := by
  funext u
  rw [Marked, Marked, h.node]

theorem leadsToShared (h : g'.Reordered g) :
    g'.LeadsToShared v limit ↔ g.LeadsToShared v limit := by
  unfold LeadsToShared Meets
  rw [h.sharingStep, h.marked]

theorem hides {order : List (ℕ × ℤ)} (h : g'.Reordered g) :
    g'.Hides v limit order ↔ g.Hides v limit order := by
  unfold Hides
  rw [h.sharingStep, h.marked]

theorem inside (h : g'.Reordered g) (hin : g.graph.Inside) : g'.graph.Inside := by
  rintro u w ⟨e, he, hw⟩
  rw [h.capacity]
  exact hin u w ⟨e, (h.outEdges u).mem_iff.mp he, hw⟩

end Reordered

/-- A search follows an order by which all calls are sorted, and finds nothing if it hides all
marked vertices. -/
theorem Hides.isShared {order : List (ℕ × ℤ)} (hin : g.graph.Inside) (h : g.Hides v limit order)
    (hsorted : ∀ c ∈ order,
      (g.sharedCalls c).Pairwise fun d d' ↦ order.reverse.idxOf d ≤ order.reverse.idxOf d') :
    g.isShared v limit = some false := by
  obtain ⟨horder, hcalled⟩ := h
  rw [sharingStep_eq] at horder hcalled
  match g.isShared v limit, isShared_spec hin v limit with
  | some true, ⟨c, calls, expanded, hsearch, hfound⟩ =>
    have hsuffix := hsearch.suffix_order horder hcalled hsorted
    refine absurd hfound (hcalled c ?_).1
    exact hsearch.reached.imp_right fun ⟨b, hb, hstep⟩ ↦ ⟨b, hsuffix.subset hb, hstep⟩
  | some false, _ => rfl

/-- The edges can be sorted by any order with one counter for each vertex. -/
theorem Hides.exists_sorted {order : List (ℕ × ℤ)} (h : g.Hides v limit order) :
    ∃ g' : PDG Val Fn, g'.Reordered g ∧ ∀ c ∈ order,
      (g'.sharedCalls c).Pairwise fun d d' ↦ order.reverse.idxOf d ≤ order.reverse.idxOf d' := by
  have hes : ∀ u, ∃ es : List (Edge PDGEdge), es.Perm (g.graph.outEdges u) ∧
      ∀ n, (u, n) ∈ order → (es.filterMap (sharedCall n)).Pairwise
        fun d d' ↦ order.reverse.idxOf d ≤ order.reverse.idxOf d' := by
    intro u
    by_cases hu : ∃ n, (u, n) ∈ order
    · obtain ⟨n, hn⟩ := hu
      obtain ⟨es, hperm, hsorted⟩ := exists_perm_pairwise_filterMap (sharedCall n)
        (fun d ↦ order.reverse.idxOf d) (g.graph.outEdges u)
      refine ⟨es, hperm, fun n' hn' ↦ ?_⟩
      obtain ⟨-, rfl⟩ := Prod.mk.inj (List.inj_on_of_nodup_map h.1.nodup hn hn' rfl)
      exact hsorted
    · exact ⟨_, .refl _, fun n hn ↦ absurd ⟨n, hn⟩ hu⟩
  choose es hperm hsorted using hes
  exact ⟨{ g with graph := { g.graph with
    vertices := fun u ↦ { g.graph.vertices u with outEdges := es u } } },
    ⟨rfl, rfl, hperm⟩, fun c hc ↦ hsorted c.1 c.2 hc⟩

/-- However the vertices of a path are met, the next one is called before the search is cut off,
and a marked vertex at the end with a counter of at least zero: then no order hides it. -/
theorem not_hides {x : ℕ} {order : List (ℕ × ℤ)} (hlimit : limit ≤ 5)
    (hpath : Relation.ReflTransGen (fun u w ↦ ∀ n ≤ 5, g.Meets v limit u n →
      ∃ m ≤ 5, g.SharingStep (u, n) (w, m)) v w)
    (hend : ∀ n ≤ 5, g.Meets v limit w n → ∃ m, 0 ≤ m ∧ g.SharingStep (w, n) (x, m))
    (hx : g.Marked x) : ¬ g.Hides v limit order := by
  rintro ⟨horder, hcalled⟩
  obtain ⟨n, hn⟩ : ∃ n, (w, n) ∈ order := by
    clear hend
    induction hpath with
    | refl =>
      obtain ⟨⟨u, n⟩, hn, rfl : u = v⟩ := List.mem_map.mp ((hcalled _ (Or.inl rfl)).2 hlimit)
      exact ⟨n, hn⟩
    | @tail u w _ hstep ih =>
      obtain ⟨n, hn⟩ := ih
      obtain ⟨hle, hmeets⟩ := horder.reached _ hn
      obtain ⟨m, hm, hcall⟩ := hstep n hle hmeets
      obtain ⟨⟨y, k⟩, hk, rfl : y = w⟩ :=
        List.mem_map.mp ((hcalled _ (Or.inr ⟨_, hn, hcall⟩)).2 hm)
      exact ⟨k, hk⟩
  obtain ⟨hle, hmeets⟩ := horder.reached _ hn
  obtain ⟨m, hm, hcall⟩ := hend n hle hmeets
  exact (hcalled _ (Or.inr ⟨_, hn, hcall⟩)).1 ⟨hm, hx⟩

/-- The pointer is 0, the element 1, and its members are 2 and 3. -/
def linkedList : PDG Empty Empty :=
  (ofEdges 4 [⟨0, 1, ⟨.deref, 0⟩⟩, ⟨1, 2, ⟨.part, 0⟩⟩, ⟨1, 3, ⟨.part, 1⟩⟩,
    ⟨2, 1, ⟨.deref, 0⟩⟩]).setNode 3 { ipcsink := true }

theorem linkedList_edge {u : ℕ} {e : Edge PDGEdge} (he : e ∈ linkedList.graph.outEdges u) :
    u = 0 ∧ e.target = 1 ∧ e.property = ⟨.deref, 0⟩ ∨
      u = 1 ∧ e.target = 2 ∧ e.property = ⟨.part, 0⟩ ∨
      u = 1 ∧ e.target = 3 ∧ e.property = ⟨.part, 1⟩ ∨
      u = 2 ∧ e.target = 1 ∧ e.property = ⟨.deref, 0⟩ := by
  rw [linkedList, outEdges_setNode] at he
  have hedge := hasEdge_ofEdges.mp (mirrored_ofEdges.mem_outEdges_iff.mp he).2
  simpa only [List.mem_cons, Edge.mk.injEq, List.not_mem_nil, or_false] using hedge

theorem linkedList_step {c d : ℕ × ℤ} (hc : c.2 ≤ 5) (hd : d ∈ linkedList.sharedCalls c) :
    linkedList.SharingStep c d :=
  sharingStep_iff.mpr ⟨hc, hd⟩

theorem inside_linkedList : linkedList.graph.Inside := by
  rintro u w ⟨e, he, rfl⟩
  have hedge := linkedList_edge he
  change u < 4 ∧ e.target < 4
  omega

/-- The element is met with counters of at least zero only, and so is its second member. -/
theorem not_hides_linkedList (order : List (ℕ × ℤ)) : ¬ linkedList.Hides 0 (-1) order := by
  have hmeets : ∀ c, Relation.ReflTransGen linkedList.SharingStep (0, -1) c →
      c.1 = 0 ∧ c.2 = -1 ∨ c.1 ≠ 0 ∧ 0 ≤ c.2 := by
    intro c hc
    induction hc with
    | refl => exact Or.inl ⟨rfl, rfl⟩
    | tail _ hstep ih =>
      rcases hstep with ⟨-, he, ht⟩ | ⟨-, he, ht⟩
      all_goals
        have hedge := linkedList_edge he
        simp only at ih ⊢
        grind
  refine not_hides (w := 1) (x := 3) (by decide) (.single fun n _ hn ↦ ?_) (fun n hle hn ↦ ?_)
    (Or.inl rfl)
  · obtain ⟨-, rfl : n = -1⟩ := (hmeets _ hn).resolve_right fun h ↦ h.1 rfl
    exact ⟨0, by decide, linkedList_step (by decide) (by decide)⟩
  · obtain ⟨-, hzero⟩ := (hmeets _ hn).resolve_left fun h ↦ one_ne_zero h.1
    exact ⟨n, hzero, .part (e := ⟨1, 3, ⟨.part, 1⟩⟩) hle (by decide) rfl⟩

end PDG

end Cali.Passes
