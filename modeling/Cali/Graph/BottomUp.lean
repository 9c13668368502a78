import Mathlib.Data.List.Count
import Mathlib.Data.List.Perm.Basic
import Cali.Graph.Tarjan
import Cali.Lib.Search

/-!
# Bottom-up traversal

`bottom_up_traversal` of `graph/algorithms.h`: a vertex is put into the queue as soon as
all its outgoing edges are resolved, that is, lead to vertices that have been visited.
The number of resolved edges is counted from the incoming edges of the visited vertices,
and compared with the length of the list of outgoing edges, so the traversal rests on the
two lists being mirrored and without repetition.
-/

namespace Cali.Graph

open Cali.Lib Relation

variable {N L τ : Type}

/-- The variables of the traversal, with the vertices the visitor has been called for. -/
structure BottomUpState where
  visited : List ℕ
  resolved : ℕ → ℕ
  queue : List ℕ

namespace BaseGraph

variable (g : BaseGraph N L)

/-- One round of the inner loop: an edge into the visited vertex is resolved. -/
def resolve (s : (ℕ → ℕ) × List ℕ) (e : Edge L) : (ℕ → ℕ) × List ℕ :=
  let u := e.source
  let r := s.1 u + 1
  (Function.update s.1 u r, if r = (g.outEdges u).length then s.2 ++ [u] else s.2)

/-- One round of the loop over the queue. -/
def bottomUpStep (s : BottomUpState) : Option BottomUpState :=
  match s.queue with
  | [] => none
  | v :: queue =>
    let (resolved, queue) := (g.inEdges v).foldl g.resolve (s.resolved, queue)
    some ⟨s.visited ++ [v], resolved, queue⟩

/-- The vertices in the order in which the visitor is called for them; `none` would mean
that the traversal does not end. -/
def bottomUpOrder : Option (List ℕ) :=
  let queue := (List.range g.capacity).filter fun v ↦ (g.outEdges v).length = 0
  (iterate g.bottomUpStep (g.capacity + 1) ⟨[], fun _ ↦ 0, queue⟩).map (·.visited)

/-- `bottom_up_traversal` with a visitor that works on the state `τ`. -/
def bottomUpTraversal (visitor : ℕ → τ → τ) (t : τ) : Option τ :=
  g.bottomUpOrder.map fun order ↦ order.foldl (fun t v ↦ visitor v t) t

variable {g}

/-! ## The inner loop -/

/-- **The inner loop** adds to the counters, and puts those vertices into the queue whose
counter reaches the number of their edges, each one once. -/
theorem foldl_resolve (es : List (Edge L)) (r : ℕ → ℕ) (queue : List ℕ) :
    ∃ pushed, es.foldl g.resolve (r, queue) =
        (fun u ↦ r u + es.countP (·.source = u), queue ++ pushed) ∧ pushed.Nodup ∧
      ∀ u, u ∈ pushed ↔ r u < (g.outEdges u).length ∧
        (g.outEdges u).length ≤ r u + es.countP (·.source = u) := by
  induction es generalizing r queue with
  | nil => exact ⟨[], by simp, List.nodup_nil, fun u ↦ by simp⟩
  | cons e es ih =>
    rw [List.foldl_cons]
    set r' := Function.update r e.source (r e.source + 1) with hr'
    have hcount : ∀ u, r' u + es.countP (·.source = u) =
        r u + (e :: es).countP (·.source = u) := fun u ↦ by
      rw [List.countP_cons, hr', Function.update_apply]
      by_cases hu : e.source = u
      · subst hu
        simp
        omega
      · simp [hu, Ne.symm hu]
    have hself : r' e.source = r e.source + 1 := Function.update_self ..
    have hother : ∀ u, u ≠ e.source → r' u = r u := fun u hu ↦ Function.update_of_ne hu ..
    by_cases hfull : r e.source + 1 = (g.outEdges e.source).length
    · -- the source is pushed, and its counter is too large to push it again
      obtain ⟨pushed, hfold, hnodup, hmem⟩ := ih r' (queue ++ [e.source])
      refine ⟨e.source :: pushed, ?_, List.nodup_cons.mpr ⟨fun h ↦ ?_, hnodup⟩, fun u ↦ ?_⟩
      · simp only [resolve, hfull, ↓reduceIte]
        rw [← hfull, ← hr', hfold, List.append_assoc, List.singleton_append]
        simp only [hcount]
      · have := ((hmem e.source).mp h).1
        omega
      · rw [List.mem_cons, hmem, hcount]
        by_cases hu : u = e.source
        · subst hu
          simp only [true_or, true_iff]
          have := hcount e.source
          omega
        · rw [or_iff_right hu, hother u hu]
    · obtain ⟨pushed, hfold, hnodup, hmem⟩ := ih r' queue
      refine ⟨pushed, ?_, hnodup, fun u ↦ ?_⟩
      · simp only [resolve, hfull, ↓reduceIte]
        rw [← hr', hfold]
        simp only [hcount]
      · rw [hmem, hcount]
        by_cases hu : u = e.source
        · subst hu
          have := hcount e.source
          omega
        · rw [hother u hu]

/-- One round visits the first vertex of the queue and pushes the vertices that have become
resolved. -/
theorem exists_pushed {visited queue : List ℕ} {resolved : ℕ → ℕ} {s' : BottomUpState}
    (hstep : g.bottomUpStep ⟨visited, resolved, queue⟩ = some s') :
    ∃ v rest pushed, queue = v :: rest ∧
      s' = ⟨visited ++ [v], fun u ↦ resolved u + (g.inEdges v).countP (·.source = u),
        rest ++ pushed⟩ ∧ pushed.Nodup ∧
      ∀ u, u ∈ pushed ↔ resolved u < (g.outEdges u).length ∧
        (g.outEdges u).length ≤ resolved u + (g.inEdges v).countP (·.source = u) := by
  cases queue with
  | nil => cases hstep
  | cons v rest =>
    obtain ⟨pushed, hfold, hnodup, hmem⟩ := foldl_resolve (g := g) (g.inEdges v) resolved rest
    simp only [bottomUpStep, hfold, Option.some.injEq] at hstep
    exact ⟨v, rest, pushed, rfl, hstep.symm, hnodup, hmem⟩

theorem Mirrored.countP_inEdges (hm : g.Mirrored) (u v : ℕ) :
    (g.inEdges v).countP (·.source = u) = (g.outEdges u).countP (·.target = v) := by
  rw [List.countP_eq_length_filter, List.countP_eq_length_filter]
  refine List.Perm.length_eq ((List.perm_ext_iff_of_nodup ((hm.inEdges_nodup v).filter _)
    ((hm.outEdges_nodup u).filter _)).mpr fun e ↦ ?_)
  simp only [List.mem_filter, decide_eq_true_eq]
  constructor
  · rintro ⟨he, rfl⟩
    obtain rfl := hm.target_eq he
    exact ⟨(hm.mem_inEdges_iff e).mp he, rfl⟩
  · rintro ⟨he, rfl⟩
    obtain rfl := hm.source_eq he
    exact ⟨(hm.mem_inEdges_iff e).mpr he, rfl⟩

/-! ## The invariant -/

/-- All successors of the vertex have been visited. -/
def Resolved (g : BaseGraph N L) (visited : List ℕ) (u : ℕ) : Prop :=
  u < g.capacity ∧ ∀ e ∈ g.outEdges u, e.target ∈ visited

/-- The successors of each vertex of the list stand before it. -/
def Ordered (g : BaseGraph N L) (order : List ℕ) : Prop :=
  ∀ before v after, order = before ++ v :: after → ∀ e ∈ g.outEdges v, e.target ∈ before

/-- The invariant of the loop over the queue. -/
structure BottomUpInv (g : BaseGraph N L) (s : BottomUpState) : Prop where
  nodup : (s.visited ++ s.queue).Nodup
  count : ∀ u, s.resolved u = (g.outEdges u).countP (·.target ∈ s.visited)
  mem_iff : ∀ u, u ∈ s.visited ++ s.queue ↔ g.Resolved s.visited u
  ordered : g.Ordered s.visited

theorem Ordered.concat {order : List ℕ} {v : ℕ} (h : g.Ordered order)
    (hv : ∀ e ∈ g.outEdges v, e.target ∈ order) : g.Ordered (order ++ [v]) := by
  intro before u after heq
  rcases List.eq_nil_or_concat after with rfl | ⟨after, w, rfl⟩
  · obtain ⟨rfl, huv⟩ := List.append_inj' heq rfl
    cases huv
    exact hv
  · rw [List.concat_eq_append, ← List.cons_append, ← List.append_assoc] at heq
    obtain ⟨rfl, -⟩ := List.append_inj' heq rfl
    exact h before u after rfl

theorem countP_mem_concat {es : List (Edge L)} {visited : List ℕ} {v : ℕ} (hv : v ∉ visited) :
    es.countP (·.target ∈ visited ++ [v]) =
      es.countP (·.target ∈ visited) + es.countP (·.target = v) := by
  induction es with
  | nil => rfl
  | cons e es ih =>
    simp only [List.countP_cons, ih]
    by_cases he : e.target = v
    · simp [he, hv]
      omega
    · simp [he]
      omega

theorem countP_target_eq_length {es : List (Edge L)} {visited : List ℕ} :
    es.length ≤ es.countP (·.target ∈ visited) ↔ ∀ e ∈ es, e.target ∈ visited := by
  rw [← List.countP_eq_length.trans (forall₂_congr fun e _ ↦ decide_eq_true_iff)]
  exact ⟨fun h ↦ Nat.le_antisymm List.countP_le_length h, fun h ↦ h.ge⟩

/-- **One round keeps the invariant.** -/
theorem BottomUpInv.step (hm : g.Mirrored) (hg : g.Inside) {s s' : BottomUpState}
    (h : BottomUpInv g s) (hstep : g.bottomUpStep s = some s') :
    BottomUpInv g s' ∧ s'.visited.length = s.visited.length + 1 := by
  obtain ⟨visited, resolved, queue⟩ := s
  obtain ⟨v, queue, pushed, rfl, rfl, hnodup, hmem⟩ := exists_pushed hstep
  have hold : visited ++ v :: queue = (visited ++ [v]) ++ queue := by simp
  have hmemOld : ∀ u, u ∈ (visited ++ [v]) ++ queue ↔ g.Resolved visited u := by
    rw [← hold]
    exact h.mem_iff
  have hv : v ∉ visited := fun hmemv ↦
    (List.nodup_append.mp h.nodup).2.2 v hmemv v List.mem_cons_self rfl
  have hres : ∀ e ∈ g.outEdges v, e.target ∈ visited :=
    ((h.mem_iff v).mp (List.mem_append_right _ List.mem_cons_self)).2
  have hcount : ∀ u, resolved u + (g.inEdges v).countP (·.source = u) =
      (g.outEdges u).countP (·.target ∈ visited ++ [v]) := fun u ↦ by
    rw [hm.countP_inEdges, countP_mem_concat hv, ← h.count u]
  -- pushed are those vertices for which `v` was the last missing successor
  have hpushed : ∀ u, u ∈ pushed ↔
      g.Resolved (visited ++ [v]) u ∧ ¬ g.Resolved visited u := by
    intro u
    have hu : resolved u = (g.outEdges u).countP (·.target ∈ visited) := h.count u
    rw [hmem, hcount, countP_target_eq_length, ← Nat.not_le, hu, countP_target_eq_length]
    constructor
    · rintro ⟨hnot, hall⟩
      have hlt : u < g.capacity := by
        simp only [not_forall] at hnot
        obtain ⟨e, he, -⟩ := hnot
        exact (hg u e.target ⟨e, he, rfl⟩).1
      exact ⟨⟨hlt, hall⟩, fun hr ↦ hnot hr.2⟩
    · rintro ⟨⟨hlt, hall⟩, hnot⟩
      exact ⟨fun hr ↦ hnot ⟨hlt, hr⟩, hall⟩
  refine ⟨⟨?_, hcount, fun u ↦ ?_, h.ordered.concat hres⟩, by simp⟩
  · change (visited ++ [v] ++ (queue ++ pushed)).Nodup
    rw [← List.append_assoc]
    refine List.nodup_append.mpr ⟨hold ▸ h.nodup, hnodup, fun x hx y hy hxy ↦ ?_⟩
    subst hxy
    exact ((hpushed x).mp hy).2 ((hmemOld x).mp hx)
  · change u ∈ visited ++ [v] ++ (queue ++ pushed) ↔ g.Resolved (visited ++ [v]) u
    rw [← List.append_assoc, List.mem_append, hmemOld, hpushed]
    have hmono : g.Resolved visited u → g.Resolved (visited ++ [v]) u := fun hr ↦
      ⟨hr.1, fun e he ↦ List.mem_append_left _ (hr.2 e he)⟩
    tauto

theorem bottomUpInv_start (g : BaseGraph N L) : BottomUpInv g ⟨[], fun _ ↦ 0,
    (List.range g.capacity).filter fun v ↦ (g.outEdges v).length = 0⟩ where
  nodup := List.nodup_range.filter _
  count u := by simp
  mem_iff u := by
    simp [Resolved, List.eq_nil_iff_forall_not_mem]
  ordered before v after h := by simp at h

theorem BottomUpInv.length_le {s : BottomUpState} (h : BottomUpInv g s) :
    s.visited.length ≤ g.capacity := by
  have hle := (List.nodup_append.mp h.nodup).1.subperm fun u hu ↦
    List.mem_range.mpr ((h.mem_iff u).mp (List.mem_append_left _ hu)).1
  simpa using hle.length_le

/-- **The traversal**: it ends, no vertex is visited twice, a vertex is visited exactly
when all its successors are, and they are visited before it. -/
theorem bottomUpOrder_spec (hm : g.Mirrored) (hg : g.Inside) :
    ∃ order, g.bottomUpOrder = some order ∧ order.Nodup ∧
      (∀ u, u ∈ order ↔ g.Resolved order u) ∧ g.Ordered order := by
  have hround : ∀ s s', BottomUpInv g s → g.bottomUpStep s = some s' →
      BottomUpInv g s' ∧ g.capacity - s'.visited.length < g.capacity - s.visited.length := by
    intro s s' h hstep
    obtain ⟨h', hlength⟩ := h.step hm hg hstep
    have := h'.length_le
    exact ⟨h', by omega⟩
  obtain ⟨s, hs, h, hend⟩ := iterate_spec _ hround (bottomUpInv_start g)
    (Nat.lt_succ_of_le (Nat.sub_le ..))
  have hqueue : s.queue = [] := by
    unfold bottomUpStep at hend
    split at hend
    · assumption
    · cases hend
  have hnodup := h.nodup
  have hmem := h.mem_iff
  rw [hqueue, List.append_nil] at hnodup
  simp only [hqueue, List.append_nil] at hmem
  refine ⟨s.visited, ?_, hnodup, hmem, h.ordered⟩
  unfold bottomUpOrder
  simp only [hs, Option.map_some]

/-! ## The traversal ends on every graph -/

/-- The incoming edges that are stored join slots of the graph. -/
def InEdgesInside (g : BaseGraph N L) : Prop :=
  ∀ w, ∀ e ∈ g.inEdges w, e.source < g.capacity ∧ w < g.capacity

theorem InEdgesInside.inside (h : g.InEdgesInside) (hm : g.Mirrored) : g.Inside := by
  rintro u w ⟨e, he, rfl⟩
  obtain rfl := hm.source_eq he
  exact h e.target e ((hm.mem_inEdges_iff e).mpr he)

/-- A vertex is put into the queue once: its counter has passed the number of its edges. -/
structure QueuedOnce (g : BaseGraph N L) (s : BottomUpState) : Prop where
  nodup : (s.visited ++ s.queue).Nodup
  lt : ∀ u ∈ s.visited ++ s.queue, u < g.capacity
  full : ∀ u ∈ s.visited ++ s.queue, (g.outEdges u).length ≤ s.resolved u

theorem queuedOnce_start (g : BaseGraph N L) : QueuedOnce g ⟨[], fun _ ↦ 0,
    (List.range g.capacity).filter fun v ↦ (g.outEdges v).length = 0⟩ where
  nodup := List.nodup_range.filter _
  lt _ hu := List.mem_range.mp (List.mem_filter.mp hu).1
  full _ hu := (of_decide_eq_true (List.mem_filter.mp hu).2).le

theorem QueuedOnce.step (hin : g.InEdgesInside) {s s' : BottomUpState} (h : QueuedOnce g s)
    (hstep : g.bottomUpStep s = some s') :
    QueuedOnce g s' ∧ s'.visited.length = s.visited.length + 1 := by
  obtain ⟨visited, resolved, queue⟩ := s
  obtain ⟨v, queue, pushed, rfl, rfl, hnodup, hmem⟩ := exists_pushed hstep
  have hold : visited ++ [v] ++ (queue ++ pushed) = (visited ++ v :: queue) ++ pushed := by simp
  refine ⟨⟨?_, ?_, ?_⟩, by simp⟩
  · change (visited ++ [v] ++ (queue ++ pushed)).Nodup
    rw [hold]
    refine List.nodup_append.mpr ⟨h.nodup, hnodup, fun x hx y hy hxy ↦ ?_⟩
    subst hxy
    exact absurd ((hmem x).mp hy).1 (Nat.not_lt.mpr (h.full x hx))
  · change ∀ u ∈ visited ++ [v] ++ (queue ++ pushed), u < g.capacity
    rw [hold]
    intro u hu
    rcases List.mem_append.mp hu with hu | hu
    · exact h.lt u hu
    · -- an edge from `u` has been counted
      obtain ⟨hlt, hle⟩ := (hmem u).mp hu
      have hpos : 0 < (g.inEdges v).countP (·.source = u) := by omega
      obtain ⟨e, he, hsource⟩ := List.countP_pos_iff.mp hpos
      exact of_decide_eq_true hsource ▸ (hin v e he).1
  · change ∀ u ∈ visited ++ [v] ++ (queue ++ pushed), (g.outEdges u).length ≤
      resolved u + (g.inEdges v).countP (·.source = u)
    rw [hold]
    intro u hu
    rcases List.mem_append.mp hu with hu | hu
    · exact (h.full u hu).trans (Nat.le_add_right ..)
    · exact ((hmem u).mp hu).2

theorem bottomUpOrder_ends (hin : g.InEdgesInside) : ∃ order, g.bottomUpOrder = some order := by
  have hround : ∀ s s', QueuedOnce g s → g.bottomUpStep s = some s' →
      QueuedOnce g s' ∧ g.capacity - s'.visited.length < g.capacity - s.visited.length := by
    intro s s' h hstep
    obtain ⟨h', hlength⟩ := h.step hin hstep
    have hle := (List.nodup_append.mp h'.nodup).1.subperm fun u hu ↦
      List.mem_range.mpr (h'.lt u (List.mem_append_left _ hu))
    have hle := hle.length_le
    rw [List.length_range] at hle
    exact ⟨h', by omega⟩
  obtain ⟨s, hs, -, -⟩ := iterate_spec _ hround (queuedOnce_start g)
    (Nat.lt_succ_of_le (Nat.sub_le ..))
  exact ⟨s.visited, by simp only [bottomUpOrder, hs, Option.map_some]⟩

/-! ## Which vertices are visited -/

theorem Ordered.idxOf_lt {order : List ℕ} (h : g.Ordered order) {u w : ℕ} (hu : u ∈ order)
    (huw : g.Adj u w) : w ∈ order ∧ order.idxOf w < order.idxOf u := by
  obtain ⟨e, he, rfl⟩ := huw
  obtain ⟨before, after, rfl, hbefore⟩ := List.eq_append_cons_of_mem hu
  have hw : e.target ∈ before := h before u after rfl e he
  refine ⟨List.mem_append_left _ hw, ?_⟩
  rw [List.idxOf_append_of_mem hw, List.idxOf_append_of_notMem hbefore, List.idxOf_cons_self]
  exact (List.idxOf_lt_length_of_mem hw).trans_le (Nat.le_add_right ..)

/-- **Bottom-up traversal.**  It ends on every graph.  In a graph whose edges are stored in
both directions and once only, the visitor is called once for each vertex from which no cycle
can be reached and for no other vertex, and for the successors of a vertex before it is
called for the vertex. -/
theorem bottomUpTraversal_visits (hin : g.InEdgesInside) :
    ∃ order : List ℕ,
      (∀ (τ : Type) (visitor : ℕ → τ → τ) (t : τ),
        g.bottomUpTraversal visitor t = some (order.foldl (fun t v ↦ visitor v t) t)) ∧
      (g.Mirrored →
        order.Nodup ∧
        (∀ u, u ∈ order ↔
          u < g.capacity ∧ ∀ w, ReflTransGen g.Adj u w → ¬ TransGen g.Adj w w) ∧
        ∀ u w, g.Adj u w → u ∈ order → w ∈ order ∧ order.idxOf w < order.idxOf u) := by
  obtain ⟨order, horder⟩ := bottomUpOrder_ends hin
  refine ⟨order, fun τ visitor t ↦ ?_, fun hm ↦ ?_⟩
  · simp only [bottomUpTraversal, horder, Option.map_some]
  have hg : g.Inside := hin.inside hm
  obtain ⟨order', horder', hnodup, hmem, hordered⟩ := bottomUpOrder_spec hm hg
  obtain rfl : order = order' := Option.some.inj (horder.symm.trans horder')
  have hbefore : ∀ u w, u ∈ order → g.Adj u w → w ∈ order ∧ order.idxOf w < order.idxOf u :=
    fun u w hu huw ↦ hordered.idxOf_lt hu huw
  refine ⟨hnodup, fun u ↦ ⟨fun hu ↦ ?_, ?_⟩, fun u w huw hu ↦ hbefore u w hu huw⟩
  · refine ⟨((hmem u).mp hu).1, fun w huw ↦ ?_⟩
    exact no_cycle_of_rank (C := {u | u ∈ order}) order.idxOf
      (fun v w hv hvw ↦ (hbefore v w hv hvw).1) (fun v w hv hvw ↦ (hbefore v w hv hvw).2) hu huw
  · rintro ⟨hlt, hcycle⟩
    have hinside : ∀ w, ReflTransGen g.Adj u w → w < g.capacity := by
      intro w huw
      induction huw with
      | refl => exact hlt
      | tail _ h _ => exact (hg _ _ h).2
    refine mem_of_no_cycle (C := {u | u ∈ order}) ((Set.finite_lt_nat g.capacity).subset hinside)
      hcycle fun v huv hall ↦ ?_
    exact (hmem v).mpr ⟨hinside v huv, fun e he ↦ hall e.target ⟨e, he, rfl⟩⟩

theorem inEdges_cycleAndTail {w : ℕ} {e : Edge Unit} (he : e ∈ cycleAndTail.inEdges w) :
    w < 4 := by
  by_contra hw
  obtain ⟨n, rfl⟩ := Nat.exists_eq_add_of_le' (Nat.not_lt.mp hw)
  cases he

theorem inEdgesInside_cycleAndTail : cycleAndTail.InEdgesInside := by
  have hall : ∀ w < 4, ∀ e ∈ cycleAndTail.inEdges w, e.source < 4 := by decide
  intro w e he
  have hw := inEdges_cycleAndTail he
  exact ⟨hall w hw e he, hw⟩

theorem mirrored_cycleAndTail : cycleAndTail.Mirrored := by
  have hout : ∀ u < 4, (cycleAndTail.outEdges u).Nodup ∧
      ∀ e ∈ cycleAndTail.outEdges u, e.source = u ∧ e ∈ cycleAndTail.inEdges e.target := by decide
  have hin : ∀ w < 4, (cycleAndTail.inEdges w).Nodup ∧
      ∀ e ∈ cycleAndTail.inEdges w, e.target = w ∧ e ∈ cycleAndTail.outEdges e.source := by decide
  have hlt : ∀ {u e}, e ∈ cycleAndTail.outEdges u → u < 4 := fun {u e} he ↦
    (inside_cycleAndTail u e.target ⟨e, he, rfl⟩).1
  refine ⟨fun {u e} he ↦ ((hout u (hlt he)).2 e he).1,
    fun {w e} he ↦ ((hin w (inEdges_cycleAndTail he)).2 e he).1,
    fun e ↦ ⟨fun he ↦ ((hin _ (inEdges_cycleAndTail he)).2 e he).2,
      fun he ↦ ((hout _ (hlt he)).2 e he).2⟩, fun u ↦ ?_, fun w ↦ ?_⟩
  · rcases Nat.lt_or_ge u 4 with hu | hu
    · exact (hout u hu).1
    · obtain ⟨n, rfl⟩ := Nat.exists_eq_add_of_le' hu
      exact List.nodup_nil
  · rcases Nat.lt_or_ge w 4 with hw | hw
    · exact (hin w hw).1
    · obtain ⟨n, rfl⟩ := Nat.exists_eq_add_of_le' hw
      exact List.nodup_nil

/-- The edges of the two vertices of the cycle are never resolved; of the others the last one is
visited first. -/
theorem bottomUpTraversal_cycleAndTail :
    cycleAndTail.InEdgesInside ∧ cycleAndTail.Mirrored ∧
      (∃ order : List ℕ,
        (∀ (τ : Type) (visitor : ℕ → τ → τ) (t : τ),
          cycleAndTail.bottomUpTraversal visitor t =
            some (order.foldl (fun t v ↦ visitor v t) t)) ∧
        (cycleAndTail.Mirrored →
          order.Nodup ∧
          (∀ u, u ∈ order ↔ u < cycleAndTail.capacity ∧
            ∀ w, ReflTransGen cycleAndTail.Adj u w → ¬ TransGen cycleAndTail.Adj w w) ∧
          ∀ u w, cycleAndTail.Adj u w → u ∈ order →
            w ∈ order ∧ order.idxOf w < order.idxOf u)) ∧
      cycleAndTail.bottomUpTraversal (fun v t ↦ t ++ [v]) [] = some [3, 2] :=
  ⟨inEdgesInside_cycleAndTail, mirrored_cycleAndTail,
    bottomUpTraversal_visits inEdgesInside_cycleAndTail, by decide⟩

end BaseGraph

end Cali.Graph
