import Mathlib.Data.List.Pairwise
import Cali.Graph.Dfs
import Cali.Lib.Lowlink

/-!
# Strongly connected components

`strong_components` of `graph/scc_algorithms.h`: a visitor for the depth-first search
that keeps the low link of each vertex in `root` and the vertices without a component
on a stack.  The state of the search is related to the abstract one of `Cali.Lib.LowInv`:
each step of the search is one of its events, or changes nothing there.
-/

namespace Cali.Graph

open Cali.Lib Relation

variable {N L : Type}

/-- The variables of `tarjan_scc_visitor`.  `none` is `std::numeric_limits<long>::max()`,
the component of a vertex on the stack. -/
structure TarjanState where
  total : ℕ
  comp : ℕ → Option ℕ
  root : ℕ → ℕ
  discoverTime : ℕ → ℕ
  dfsTime : ℕ
  s : List ℕ

namespace TarjanState

/-- `min_discover_time` -/
def minDiscoverTime (t : TarjanState) (u v : ℕ) : ℕ :=
  if t.discoverTime u < t.discoverTime v then u else v

/-- `discover_vertex` -/
def discoverVertex (v : ℕ) (t : TarjanState) : TarjanState where
  total := t.total
  comp := Function.update t.comp v none
  root := Function.update t.root v v
  discoverTime := Function.update t.discoverTime v t.dfsTime
  dfsTime := t.dfsTime + 1
  s := v :: t.s

/-- One round of the first loop of `finish_vertex`. -/
def updateRoot (v : ℕ) (t : TarjanState) (e : Edge L) : TarjanState :=
  if t.comp e.target = none then
    { t with root :=
        Function.update t.root v (t.minDiscoverTime (t.root v) (t.root e.target)) }
  else t

/-- The second loop of `finish_vertex`, for what is left of the stack. -/
def popComponent (v : ℕ) (t : TarjanState) : List ℕ → TarjanState
  | [] => { t with s := [], total := t.total + 1 }
  | w :: s =>
    let t := { t with
      comp := Function.update t.comp w (some t.total), root := Function.update t.root w v }
    if w = v then { t with s := s, total := t.total + 1 } else popComponent v t s

/-- `finish_vertex` -/
def finishVertex (outEdges : List (Edge L)) (v : ℕ) (t : TarjanState) : TarjanState :=
  let t := outEdges.foldl (updateRoot v) t
  if t.root v = v then popComponent v t t.s else t

/-! ## Finishing a vertex -/

/-- **The low link** after the first loop of `finish_vertex`. -/
theorem foldl_updateRoot (v : ℕ) (es : List (Edge L)) (t : TarjanState) :
    ∃ r, es.foldl (updateRoot v) t = { t with root := Function.update t.root v r } ∧
      (r = t.root v ∨ ∃ e ∈ es, t.comp e.target = none ∧ e.target ≠ v ∧ r = t.root e.target) ∧
      t.discoverTime r ≤ t.discoverTime (t.root v) ∧
      ∀ e ∈ es, t.comp e.target = none → e.target ≠ v →
        t.discoverTime r ≤ t.discoverTime (t.root e.target) := by
  induction es generalizing t with
  | nil =>
    refine ⟨t.root v, ?_, Or.inl rfl, Nat.le_refl _, nofun⟩
    rw [Function.update_eq_self]
    rfl
  | cons e es ih =>
    rw [List.foldl_cons]
    by_cases hcomp : t.comp e.target = none
    · -- the root so far is replaced by the older one of the two
      set m := t.minDiscoverTime (t.root v) (t.root e.target) with hm
      have hstep : updateRoot v t e = { t with root := Function.update t.root v m } := by
        rw [updateRoot, if_pos hcomp]
      have hmv : t.discoverTime m ≤ t.discoverTime (t.root v) := by
        rw [hm, minDiscoverTime]
        split
        · exact Nat.le_refl _
        · next h => exact Nat.le_of_not_lt h
      have hme : t.discoverTime m ≤ t.discoverTime (t.root e.target) := by
        rw [hm, minDiscoverTime]
        split
        · next h => exact Nat.le_of_lt h
        · exact Nat.le_refl _
      have hmcases : m = t.root v ∨ m = t.root e.target := by
        rw [hm, minDiscoverTime]
        split
        · exact Or.inl rfl
        · exact Or.inr rfl
      obtain ⟨r, hr, hcase, hle, hall⟩ := ih (updateRoot v t e)
      rw [hstep] at hr hcase hle hall
      simp only [Function.update_self] at hcase hle
      refine ⟨r, by rw [hstep, hr, Function.update_idem], ?_, hle.trans hmv, ?_⟩
      · rcases hcase with rfl | ⟨e', he', hc, hne, hr'⟩
        · by_cases hev : e.target = v
          · refine Or.inl (hmcases.elim id fun h ↦ ?_)
            rw [h, hev]
          · exact hmcases.imp id fun h ↦ ⟨e, List.mem_cons_self, hcomp, hev, h⟩
        · rw [Function.update_of_ne hne] at hr'
          exact Or.inr ⟨e', List.mem_cons_of_mem _ he', hc, hne, hr'⟩
      · intro e' he' hc hne
        rcases List.mem_cons.mp he' with rfl | he'
        · exact hle.trans hme
        · simpa only [Function.update_of_ne hne] using hall e' he' hc hne
    · have hstep : updateRoot v t e = t := by rw [updateRoot, if_neg hcomp]
      rw [hstep]
      obtain ⟨r, hr, hcase, hle, hall⟩ := ih t
      refine ⟨r, hr, ?_, hle, ?_⟩
      · exact hcase.imp id fun ⟨e', he', h⟩ ↦ ⟨e', List.mem_cons_of_mem _ he', h⟩
      · intro e' he' hc
        rcases List.mem_cons.mp he' with rfl | he'
        · exact absurd hc hcomp
        · exact hall e' he' hc

/-- **Popping a component**: the vertices down to `v` get the next number. -/
theorem popComponent_spec {v : ℕ} {seg : List ℕ} (hv : v ∉ seg) (rest : List ℕ) (t : TarjanState) :
    (popComponent v t (seg ++ v :: rest)).s = rest ∧
      (popComponent v t (seg ++ v :: rest)).total = t.total + 1 ∧
      (popComponent v t (seg ++ v :: rest)).discoverTime = t.discoverTime ∧
      (popComponent v t (seg ++ v :: rest)).dfsTime = t.dfsTime ∧
      (∀ x, (popComponent v t (seg ++ v :: rest)).comp x =
        if x ∈ seg ∨ x = v then some t.total else t.comp x) ∧
      ∀ x, x ∉ seg → x ≠ v → (popComponent v t (seg ++ v :: rest)).root x = t.root x := by
  induction seg generalizing t with
  | nil =>
    simp only [List.nil_append, popComponent, ↓reduceIte, List.not_mem_nil, false_or]
    refine ⟨trivial, trivial, trivial, trivial, fun x ↦ ?_, fun x _ hx ↦ ?_⟩
    · by_cases hx : x = v
      · simp [hx]
      · simp [hx]
    · exact Function.update_of_ne hx ..
  | cons w seg ih =>
    obtain ⟨hvw, hv⟩ := not_or.mp (mt List.mem_cons.mpr hv)
    rw [List.cons_append, popComponent, if_neg (Ne.symm hvw)]
    obtain ⟨hs, htotal, htime, hdfs, hcomp, hroot⟩ := ih hv { t with
      comp := Function.update t.comp w (some t.total), root := Function.update t.root w v }
    refine ⟨hs, htotal, htime, hdfs, fun x ↦ ?_, fun x hx hxv ↦ ?_⟩
    · rw [hcomp x]
      by_cases hseg : x ∈ seg ∨ x = v
      · rw [if_pos hseg, if_pos (hseg.imp_left (List.mem_cons_of_mem _))]
      · rw [if_neg hseg]
        by_cases hxw : x = w
        · simp [hxw]
        · rw [not_or] at hseg
          simp [hxw, hseg.1, hseg.2]
    · obtain ⟨hxw, hx⟩ := not_or.mp (mt List.mem_cons.mpr hx)
      rw [hroot x hx hxv]
      exact Function.update_of_ne hxw ..

end TarjanState

namespace BaseGraph

/-- There is an edge from `u` to `w`. -/
def Adj (g : BaseGraph N L) (u w : ℕ) : Prop := ∃ e ∈ g.outEdges u, e.target = w

/-- `tarjan_scc_visitor` -/
def tarjanVisitor (g : BaseGraph N L) : DfsVisitor TarjanState L where
  discoverVertex := TarjanState.discoverVertex
  finishVertex v := TarjanState.finishVertex (g.outEdges v) v

/-- The variables before the search; the maps are initialised to 0 and to the null
vertex. -/
def tarjanStart : TarjanState := ⟨0, fun _ ↦ some 0, fun _ ↦ 2 ^ 64 - 1, fun _ ↦ 0, 0, []⟩

/-- `strong_components`: the number of components and the component of each vertex. -/
def strongComponents (g : BaseGraph N L) : Option (ℕ × (ℕ → Option ℕ)) :=
  (g.depthFirstSearch g.tarjanVisitor tarjanStart none (.ofCapacity g.capacity)).map fun s ↦
    (s.visitor.total, s.visitor.comp)

/-- `strong_components` with a map of the caller, which may hold anything. -/
def strongComponentsInto (g : BaseGraph N L) (comp : ℕ → Option ℕ) :
    Option (ℕ × (ℕ → Option ℕ)) :=
  (g.depthFirstSearch g.tarjanVisitor { tarjanStart with comp := comp } none
    (.ofCapacity g.capacity)).map fun s ↦ (s.visitor.total, s.visitor.comp)

/-! ## The abstract state -/

variable {g : BaseGraph N L} {s s' : DfsState TarjanState L} {v w : ℕ}

end BaseGraph

namespace DfsState

/-- The vertex is not white any more. -/
def Seen {τ : Type} (s : DfsState τ L) (v : ℕ) : Prop := s.colors.get v ≠ .white

/-- The state of the search as a state of `Cali.Lib.LowInv`. -/
def toLow (s : DfsState TarjanState L) : LowState ℕ where
  time := s.visitor.discoverTime
  root := s.visitor.root
  gray := {v | v ∈ s.stack.map Prod.fst}
  stack := {v | v ∈ s.visitor.s}
  done := {v | s.Seen v ∧ v ∉ s.visitor.s}
  comp v := (s.visitor.comp v).getD 0
  total := s.visitor.total

end DfsState

namespace BaseGraph

open DfsState

/-- The edges stay inside the graph. -/
def Inside (g : BaseGraph N L) : Prop :=
  ∀ u w, g.Adj u w → u < g.capacity ∧ w < g.capacity

/-- The invariant of the search, apart from the edges that have been followed. -/
structure TarjanCore (g : BaseGraph N L) (s : DfsState TarjanState L) : Prop where
  covers : ∀ v, v < g.capacity → s.colors.Covers v
  low : LowInv g.Adj s.toLow
  seen_lt : ∀ v, s.Seen v → v < g.capacity
  stack_seen : ∀ v ∈ s.visitor.s, s.Seen v
  time_lt : ∀ v ∈ s.visitor.s, s.visitor.discoverTime v < s.visitor.dfsTime
  sorted : s.visitor.s.Pairwise fun x y ↦ s.visitor.discoverTime y < s.visitor.discoverTime x
  comp_none : ∀ v, s.Seen v → (s.visitor.comp v = none ↔ v ∈ s.visitor.s)
  frames : s.stack.Pairwise fun f f' ↦
    s.visitor.discoverTime f'.1 < s.visitor.discoverTime f.1
  chain : s.stack.IsChain fun f f' ↦ g.Adj f'.1 f.1
  edges : ∀ f ∈ s.stack, ∀ e ∈ f.2, e ∈ g.outEdges f.1

/-- The edges of the gray vertices that are not left lead to vertices that have been
seen. -/
def Followed (g : BaseGraph N L) (s : DfsState TarjanState L) : Prop :=
  ∀ f ∈ s.stack, ∀ w, g.Adj f.1 w → s.Seen w ∨ ∃ e ∈ f.2, e.target = w

/-- The invariant of the search. -/
structure TarjanInv (g : BaseGraph N L) (s : DfsState TarjanState L) : Prop
    extends TarjanCore g s where
  followed : g.Followed s

variable {g : BaseGraph N L} {s s' : DfsState TarjanState L} {u v w : ℕ}

theorem TarjanCore.frame_stack (h : TarjanCore g s) {f : ℕ × List (Edge L)} (hf : f ∈ s.stack) :
    f.1 ∈ s.visitor.s :=
  h.low.gray_stack f.1 (List.mem_map_of_mem hf)

theorem TarjanCore.dfsInside (h : TarjanCore g s) (hg : g.Inside) : DfsInside g s where
  covers := h.covers
  vertex f hf := h.seen_lt f.1 (h.stack_seen f.1 (h.frame_stack hf))
  edge f hf e he := (hg f.1 e.target ⟨e, h.edges f hf e he, rfl⟩).2

theorem TarjanCore.top (h : TarjanCore g s) {f : ℕ × List (Edge L)}
    {stack : List (ℕ × List (Edge L))} (hs : s.stack = f :: stack) : s.toLow.Top f.1 := by
  refine ⟨by simp [toLow, hs], fun q hq ↦ ?_⟩
  have hframes := h.frames
  rw [hs, List.pairwise_cons] at hframes
  simp only [toLow, hs, List.map_cons] at hq
  rcases List.mem_cons.mp hq with rfl | hq
  · exact Nat.le_refl _
  · obtain ⟨f', hf', rfl⟩ := List.mem_map.mp hq
    exact Nat.le_of_lt (hframes.1 f' hf')

theorem seen_dfsDiscover {τ : Type} {vis : DfsVisitor τ L} {s : DfsState τ L} {x : ℕ}
    (hv : s.colors.Covers v) : (g.dfsDiscover vis s v).Seen x ↔ s.Seen x ∨ x = v :=
  ColorMap.get_putFast_ne_white hv (by decide)

/-! ## Discovering a vertex -/

theorem TarjanCore.ne_of_seen (hwhite : ¬ s.Seen v) {x : ℕ} (hx : s.Seen x) : x ≠ v :=
  fun hxv ↦ hwhite (hxv ▸ hx)

theorem TarjanCore.time_discover (h : TarjanCore g s) (hwhite : ¬ s.Seen v) {x : ℕ}
    (hx : x ∈ s.visitor.s) :
    (g.dfsDiscover g.tarjanVisitor s v).visitor.discoverTime x = s.visitor.discoverTime x :=
  Function.update_of_ne (ne_of_seen hwhite (h.stack_seen x hx)) ..

theorem TarjanCore.time_discover_lt (h : TarjanCore g s) {x : ℕ} (hx : x ∈ s.visitor.s) :
    s.visitor.discoverTime x < (g.dfsDiscover g.tarjanVisitor s v).visitor.discoverTime v := by
  change _ < Function.update s.visitor.discoverTime v s.visitor.dfsTime v
  rw [Function.update_self]
  exact h.time_lt x hx

theorem TarjanCore.discovers (h : TarjanCore g s) (hv : v < g.capacity) (hwhite : ¬ s.Seen v) :
    Discovers s.toLow v (g.dfsDiscover g.tarjanVisitor s v).toLow := by
  refine ⟨fun x hx ↦ h.time_discover hwhite hx, fun x hx ↦ h.time_discover_lt hx, fun x hx ↦ ?_, ?_,
    fun x ↦ ?_, fun x ↦ ?_, ?_, fun x hx ↦ ?_, rfl⟩
  · exact Function.update_of_ne (ne_of_seen hwhite (h.stack_seen x hx)) ..
  · exact Function.update_self ..
  · exact List.mem_cons.trans or_comm
  · exact List.mem_cons.trans or_comm
  · ext x
    change (g.dfsDiscover g.tarjanVisitor s v).Seen x ∧ x ∉ v :: s.visitor.s ↔
      s.Seen x ∧ x ∉ s.visitor.s
    rw [seen_dfsDiscover (h.covers v hv), List.mem_cons, not_or]
    constructor
    · rintro ⟨hx | rfl, hxv, hmem⟩
      · exact ⟨hx, hmem⟩
      · exact absurd rfl hxv
    · rintro ⟨hx, hmem⟩
      exact ⟨Or.inl hx, ne_of_seen hwhite hx, hmem⟩
  · exact congrArg (Option.getD · 0) (Function.update_of_ne (ne_of_seen hwhite hx.1) ..)

theorem TarjanCore.discover (h : TarjanCore g s) (hv : v < g.capacity) (hwhite : ¬ s.Seen v)
    (hparent : ∀ f ∈ s.stack.head?, g.Adj f.1 v) :
    TarjanCore g (g.dfsDiscover g.tarjanVisitor s v) := by
  have hseen : ∀ x, (g.dfsDiscover g.tarjanVisitor s v).Seen x ↔ s.Seen x ∨ x = v :=
    fun x ↦ seen_dfsDiscover (h.covers v hv)
  have hns : v ∉ s.visitor.s := fun hmem ↦ hwhite (h.stack_seen v hmem)
  set time := (g.dfsDiscover g.tarjanVisitor s v).visitor.discoverTime with htimeDef
  have htime : ∀ x ∈ s.visitor.s, time x = s.visitor.discoverTime x :=
    fun x hx ↦ h.time_discover hwhite hx
  have hlt : ∀ x ∈ s.visitor.s, time x < time v := fun x hx ↦ by
    rw [htime x hx]
    exact h.time_discover_lt hx
  refine ⟨fun x hx ↦ ?_, ?_, fun x hx ↦ ?_, fun x hx ↦ ?_, fun x hx ↦ ?_, ?_, fun x hx ↦ ?_, ?_, ?_,
    fun f hf e he ↦ ?_⟩
  · exact ColorMap.covers_putFast.mpr (h.covers x hx)
  · refine h.low.discovers (h.discovers hv hwhite) hns (fun hd ↦ hwhite hd.1) fun p hp ↦ ?_
    cases hstack : s.stack with
    | nil => simp [toLow, hstack] at hp
    | cons f stack =>
      have htop := h.top hstack
      exact ⟨f.1, htop.gray, htop.max p hp, hparent f (by simp [hstack])⟩
  · rcases (hseen x).mp hx with hx | rfl
    · exact h.seen_lt x hx
    · exact hv
  · rw [hseen]
    rcases List.mem_cons.mp hx with rfl | hx
    · exact Or.inr rfl
    · exact Or.inl (h.stack_seen x hx)
  · change time x < s.visitor.dfsTime + 1
    rcases List.mem_cons.mp hx with rfl | hx
    · exact Nat.lt_succ_of_le (Nat.le_of_eq (Function.update_self ..))
    · rw [htime x hx]
      exact Nat.lt_succ_of_lt (h.time_lt x hx)
  · refine List.pairwise_cons.mpr ⟨hlt, h.sorted.imp_of_mem fun {x y} hx hy hxy ↦ ?_⟩
    change time y < time x
    rwa [htime x hx, htime y hy]
  · change Function.update s.visitor.comp v none x = none ↔ x ∈ v :: s.visitor.s
    rw [List.mem_cons]
    by_cases hxv : x = v
    · simp [hxv]
    · rw [Function.update_of_ne hxv, or_iff_right hxv]
      exact h.comp_none x (((hseen x).mp hx).resolve_right hxv)
  · refine List.pairwise_cons.mpr ⟨fun f hf ↦ hlt f.1 (h.frame_stack hf), ?_⟩
    refine h.frames.imp_of_mem fun {f f'} hf hf' hff' ↦ ?_
    change time f'.1 < time f.1
    rwa [htime _ (h.frame_stack hf), htime _ (h.frame_stack hf')]
  · change List.IsChain _ ((v, g.outEdges v) :: s.stack)
    exact List.IsChain.cons h.chain hparent
  · rcases List.mem_cons.mp hf with rfl | hf
    · exact he
    · exact h.edges f hf e he

/-! ## Finishing a vertex -/

section Finish

variable {t : TarjanState} {colors : ColorMap} {stack : List (ℕ × List (Edge L))}

/-- All successors of a vertex whose edges have been followed have been seen. -/
theorem TarjanInv.seen_of_adj (h : TarjanInv g ⟨t, colors, (u, []) :: stack⟩) (hw : g.Adj u w) :
    colors.get w ≠ .white := by
  rcases h.followed (u, []) List.mem_cons_self w hw with hseen | ⟨e, he, -⟩
  · exact hseen
  · cases he

/-- The result of the first loop of `finish_vertex` is the low link. -/
theorem TarjanInv.isLow (h : TarjanInv g ⟨t, colors, (u, []) :: stack⟩) :
    ∃ r, (g.outEdges u).foldl (TarjanState.updateRoot u) t =
        { t with root := Function.update t.root u r } ∧
      IsLow g.Adj (toLow ⟨t, colors, (u, []) :: stack⟩) u r := by
  obtain ⟨r, hfold, hcase, hle, hall⟩ := TarjanState.foldl_updateRoot u (g.outEdges u) t
  have hroot : t.root u = u := h.low.root_gray u List.mem_cons_self
  have hcomp : ∀ e ∈ g.outEdges u, (t.comp e.target = none ↔ e.target ∈ t.s) := fun e he ↦
    h.comp_none e.target (h.seen_of_adj ⟨e, he, rfl⟩)
  rw [hroot] at hcase hle
  refine ⟨r, hfold, ?_, hle, ?_⟩
  · rcases hcase with hr | ⟨e, he, hc, -, hr⟩
    · exact Or.inl hr
    · exact Or.inr ⟨e.target, (hcomp e he).mp hc, ⟨e, he, rfl⟩, hr⟩
  · rintro w hw ⟨e, he, rfl⟩
    by_cases hne : e.target = u
    · change t.discoverTime r ≤ t.discoverTime (t.root e.target)
      rwa [hne, hroot]
    · exact hall e he ((hcomp e he).mpr hw) hne

theorem TarjanCore.older (h : TarjanCore g ⟨t, colors, (u, []) :: stack⟩)
    {f : ℕ × List (Edge L)} (hf : f ∈ stack) : t.discoverTime f.1 < t.discoverTime u :=
  (List.pairwise_cons.mp h.frames).1 f hf

theorem TarjanCore.mem_gray_iff (h : TarjanCore g ⟨t, colors, (u, []) :: stack⟩) {x : ℕ} :
    x ∈ stack.map Prod.fst ↔ x ∈ ((u, []) :: stack).map Prod.fst ∧ x ≠ u := by
  rw [List.map_cons, List.mem_cons]
  constructor
  · intro hx
    refine ⟨Or.inr hx, ?_⟩
    rintro rfl
    obtain ⟨f, hf, hfx⟩ := List.mem_map.mp hx
    have := h.older hf
    rw [hfx] at this
    exact Nat.lt_irrefl _ this
  · rintro ⟨hx | hx, hne⟩
    · exact absurd hx hne
    · exact hx

/-- The gray vertex that is the youngest one after the topmost one is finished has an
edge to it. -/
theorem TarjanCore.parent (h : TarjanCore g ⟨t, colors, (u, []) :: stack⟩) {p : ℕ}
    (hp : p ∈ ((u, []) :: stack).map Prod.fst) (hpu : p ≠ u)
    (hmax : ∀ q ∈ ((u, []) :: stack).map Prod.fst, q ≠ u →
      t.discoverTime q ≤ t.discoverTime p) : g.Adj p u := by
  have hp' := h.mem_gray_iff.mpr ⟨hp, hpu⟩
  cases stack with
  | nil => cases hp'
  | cons f stack =>
    obtain ⟨hf, hfu⟩ := h.mem_gray_iff.mp (List.mem_map_of_mem List.mem_cons_self : f.1 ∈ _)
    have hpf : t.discoverTime p ≤ t.discoverTime f.1 := by
      rcases List.mem_cons.mp hp' with rfl | hp'
      · exact Nat.le_refl _
      · obtain ⟨f', hf', rfl⟩ := List.mem_map.mp hp'
        have hframes := (List.pairwise_cons.mp h.frames).2
        exact Nat.le_of_lt ((List.pairwise_cons.mp hframes).1 f' hf')
    have heq : p = f.1 := h.low.inj p (h.low.gray_stack p hp) f.1 (h.low.gray_stack _ hf)
      (Nat.le_antisymm hpf (hmax f.1 hf hfu))
    have hchain := h.chain
    simp only [List.isChain_cons_cons] at hchain
    exact heq ▸ hchain.1

theorem TarjanCore.seen_black_iff (h : TarjanCore g ⟨t, colors, (u, []) :: stack⟩) {x : ℕ} :
    (colors.putFast u .black).get x ≠ .white ↔ colors.get x ≠ .white := by
  have hu : colors.get u ≠ .white := h.stack_seen u (h.frame_stack List.mem_cons_self)
  rw [ColorMap.get_putFast_ne_white (h.covers u (h.seen_lt u hu)) (by decide)]
  exact or_iff_left_of_imp fun hx ↦ hx ▸ hu

theorem TarjanInv.stack_or_done (h : TarjanInv g ⟨t, colors, (u, []) :: stack⟩) (hw : g.Adj u w) :
    w ∈ (toLow ⟨t, colors, (u, []) :: stack⟩).stack ∨
      w ∈ (toLow ⟨t, colors, (u, []) :: stack⟩).done := by
  by_cases hws : w ∈ t.s
  · exact Or.inl hws
  · exact Or.inr ⟨h.seen_of_adj hw, hws⟩

theorem TarjanInv.finish_stays (h : TarjanInv g ⟨t, colors, (u, []) :: stack⟩) {r : ℕ}
    (hr : IsLow g.Adj (toLow ⟨t, colors, (u, []) :: stack⟩) u r) (hru : r ≠ u) :
    TarjanCore g
      ⟨{ t with root := Function.update t.root u r }, colors.putFast u .black, stack⟩ := by
  have hseen : ∀ x, (colors.putFast u .black).get x ≠ .white ↔ colors.get x ≠ .white :=
    fun x ↦ h.seen_black_iff
  have hstays : Stays (toLow ⟨t, colors, (u, []) :: stack⟩) u r
      (toLow ⟨{ t with root := Function.update t.root u r }, colors.putFast u .black, stack⟩) := by
    refine ⟨rfl, fun x _ hx ↦ Function.update_of_ne hx .., Function.update_self ..,
      fun x ↦ h.mem_gray_iff, rfl, ?_, rfl, rfl⟩
    ext x
    exact and_congr_left fun _ ↦ hseen x
  refine ⟨fun x hx ↦ ColorMap.covers_putFast.mpr (h.covers x hx), ?_,
    fun x hx ↦ h.seen_lt x ((hseen x).mp hx), fun x hx ↦ (hseen x).mpr (h.stack_seen x hx),
    h.time_lt, h.sorted, fun x hx ↦ h.comp_none x ((hseen x).mp hx),
    (List.pairwise_cons.mp h.frames).2, h.chain.tail,
    fun f hf ↦ h.edges f (List.mem_cons_of_mem _ hf)⟩
  exact h.low.stays hstays (h.top rfl) (fun w hw ↦ h.stack_or_done hw) hr hru
    fun p hp hpu hmax ↦ h.parent hp hpu hmax

/-- The second loop of `finish_vertex` takes `u` and what is younger off the stack. -/
structure Popped (t : TarjanState) (u : ℕ) (t' : TarjanState) : Prop where
  time : t'.discoverTime = t.discoverTime
  dfsTime : t'.dfsTime = t.dfsTime
  total : t'.total = t.total + 1
  mem : ∀ x, x ∈ t'.s ↔ x ∈ t.s ∧ t.discoverTime x < t.discoverTime u
  sorted : t'.s.Pairwise fun x y ↦ t.discoverTime y < t.discoverTime x
  root : ∀ x ∈ t'.s, t'.root x = t.root x
  comp : ∀ x ∈ t.s, t.discoverTime u ≤ t.discoverTime x → t'.comp x = some t.total
  comp_of_not : ∀ x, ¬ (x ∈ t.s ∧ t.discoverTime u ≤ t.discoverTime x) → t'.comp x = t.comp x

theorem TarjanCore.popped (h : TarjanCore g ⟨t, colors, (u, []) :: stack⟩) {t₁ : TarjanState}
    (ht₁ : t₁ = { t with root := Function.update t.root u u }) :
    Popped t u (TarjanState.popComponent u t₁ t₁.s) := by
  obtain ⟨seg, rest, hsplit⟩ := List.append_of_mem (h.frame_stack List.mem_cons_self : u ∈ t.s)
  -- the stack is sorted, so the segment above `u` is younger and the rest is older
  have hsorted : (seg ++ u :: rest).Pairwise fun x y ↦ t.discoverTime y < t.discoverTime x :=
    hsplit ▸ h.sorted
  obtain ⟨-, hrest, hcross⟩ := List.pairwise_append.mp hsorted
  have hyoung : ∀ x ∈ seg, t.discoverTime u < t.discoverTime x :=
    fun x hx ↦ hcross x hx u List.mem_cons_self
  have hold : ∀ x ∈ rest, t.discoverTime x < t.discoverTime u := (List.pairwise_cons.mp hrest).1
  have hu : u ∉ seg := fun hmem ↦ Nat.lt_irrefl _ (hyoung u hmem)
  have hs : t₁.s = seg ++ u :: rest := by rw [ht₁, ← hsplit]
  have hmem : ∀ x, x ∈ t.s ↔ (x ∈ seg ∨ x = u) ∨ x ∈ rest := fun x ↦ by
    rw [hsplit, List.mem_append, List.mem_cons, or_assoc]
  have hmem_rest : ∀ x, x ∈ rest ↔ x ∈ t.s ∧ t.discoverTime x < t.discoverTime u := fun x ↦ by
    rw [hmem]
    constructor
    · exact fun hx ↦ ⟨Or.inr hx, hold x hx⟩
    · rintro ⟨(hx | rfl) | hx, hlt⟩
      · exact absurd (hyoung x hx) (Nat.not_lt_of_lt hlt)
      · exact absurd hlt (Nat.lt_irrefl _)
      · exact hx
  have hmem_seg : ∀ x, x ∈ seg ∨ x = u ↔ x ∈ t.s ∧ t.discoverTime u ≤ t.discoverTime x := fun x ↦ by
    rw [hmem]
    constructor
    · rintro (hx | rfl)
      · exact ⟨Or.inl (Or.inl hx), Nat.le_of_lt (hyoung x hx)⟩
      · exact ⟨Or.inl (Or.inr rfl), Nat.le_refl _⟩
    · rintro ⟨hx, hle⟩
      exact hx.resolve_right fun hx ↦ absurd (hold x hx) (Nat.not_lt_of_le hle)
  obtain ⟨hs', htotal, htime, hdfs, hcomp, hroot⟩ := TarjanState.popComponent_spec hu rest t₁
  rw [hs]
  refine ⟨htime.trans (by rw [ht₁]), hdfs.trans (by rw [ht₁]), htotal.trans (by rw [ht₁]),
    fun x ↦ ?_, ?_, fun x hx ↦ ?_, fun x hx hux ↦ ?_, fun x hx ↦ ?_⟩
  · rw [hs']
    exact hmem_rest x
  · rw [hs']
    exact (List.pairwise_cons.mp hrest).2
  · rw [hs'] at hx
    have hlt := hold x hx
    have hxu : x ≠ u := fun hxu ↦ Nat.lt_irrefl _ (hxu ▸ hlt)
    rw [hroot x (fun hxs ↦ Nat.lt_asymm hlt (hyoung x hxs)) hxu, ht₁]
    exact Function.update_of_ne hxu ..
  · rw [hcomp, if_pos ((hmem_seg x).mpr ⟨hx, hux⟩), ht₁]
  · rw [hcomp, if_neg (mt (hmem_seg x).mp hx), ht₁]

theorem Popped.leaves {t' : TarjanState} (hpop : Popped t u t')
    (h : TarjanCore g ⟨t, colors, (u, []) :: stack⟩) :
    Leaves (toLow ⟨t, colors, (u, []) :: stack⟩) u
      (toLow ⟨t', colors.putFast u .black, stack⟩) := by
  refine ⟨hpop.time, hpop.root, fun x ↦ h.mem_gray_iff, hpop.mem, fun x ↦ ?_, fun x hx ↦ ?_,
    fun x hx hux ↦ congrArg (Option.getD · 0) (hpop.comp x hx hux), hpop.total⟩
  · change (colors.putFast u .black).get x ≠ .white ∧ x ∉ t'.s ↔
      (colors.get x ≠ .white ∧ x ∉ t.s) ∨ x ∈ t.s ∧ t.discoverTime u ≤ t.discoverTime x
    rw [h.seen_black_iff, hpop.mem]
    by_cases hx : x ∈ t.s
    · have hxs : colors.get x ≠ .white := h.stack_seen x hx
      simp [hx, hxs]
    · simp [hx]
  · exact congrArg (Option.getD · 0) (hpop.comp_of_not x fun hxs ↦ hx.2 hxs.1)

theorem TarjanInv.finish_leaves (h : TarjanInv g ⟨t, colors, (u, []) :: stack⟩) {t₁ : TarjanState}
    (ht₁ : t₁ = { t with root := Function.update t.root u u })
    (hr : IsLow g.Adj (toLow ⟨t, colors, (u, []) :: stack⟩) u u) :
    TarjanCore g ⟨TarjanState.popComponent u t₁ t₁.s, colors.putFast u .black, stack⟩ := by
  have hpop := h.popped ht₁
  set t' := TarjanState.popComponent u t₁ t₁.s with ht'
  have hseen : ∀ x, (colors.putFast u .black).get x ≠ .white ↔ colors.get x ≠ .white :=
    fun x ↦ h.seen_black_iff
  refine ⟨fun x hx ↦ ColorMap.covers_putFast.mpr (h.covers x hx), ?_,
    fun x hx ↦ h.seen_lt x ((hseen x).mp hx), fun x hx ↦ ?_, fun x hx ↦ ?_, ?_, fun x hx ↦ ?_, ?_,
    h.chain.tail, fun f hf ↦ h.edges f (List.mem_cons_of_mem _ hf)⟩
  · exact h.low.leaves (hpop.leaves h.toTarjanCore) (h.top rfl) (fun w hw ↦ h.stack_or_done hw) hr
  · exact (hseen x).mpr (h.stack_seen x ((hpop.mem x).mp hx).1)
  · change t'.discoverTime x < t'.dfsTime
    rw [hpop.time, hpop.dfsTime]
    exact h.time_lt x ((hpop.mem x).mp hx).1
  · change t'.s.Pairwise fun x y ↦ t'.discoverTime y < t'.discoverTime x
    rw [hpop.time]
    exact hpop.sorted
  · change t'.comp x = none ↔ x ∈ t'.s
    rw [hpop.mem]
    by_cases hxs : x ∈ t.s ∧ t.discoverTime u ≤ t.discoverTime x
    · rw [hpop.comp x hxs.1 hxs.2]
      exact ⟨nofun, fun hxr ↦ absurd hxr.2 (Nat.not_lt_of_le hxs.2)⟩
    · rw [hpop.comp_of_not x hxs, h.comp_none x ((hseen x).mp hx)]
      refine ⟨fun hmem ↦ ⟨hmem, ?_⟩, And.left⟩
      exact Nat.lt_of_not_le fun hle ↦ hxs ⟨hmem, hle⟩
  · change stack.Pairwise fun f f' ↦ t'.discoverTime f'.1 < t'.discoverTime f.1
    rw [hpop.time]
    exact (List.pairwise_cons.mp h.frames).2

end Finish

/-! ## A step of the search -/

/-- Following the next edge of the topmost vertex takes it off the edges that are left. -/
theorem TarjanCore.follow {t : TarjanState} {colors : ColorMap} {e : Edge L} {es : List (Edge L)}
    {stack : List (ℕ × List (Edge L))} (h : TarjanCore g ⟨t, colors, (u, e :: es) :: stack⟩) :
    TarjanCore g ⟨t, colors, (u, es) :: stack⟩ where
  covers := h.covers
  low := h.low
  seen_lt := h.seen_lt
  stack_seen := h.stack_seen
  time_lt := h.time_lt
  sorted := h.sorted
  comp_none := h.comp_none
  frames := List.pairwise_cons.mpr (List.pairwise_cons.mp h.frames)
  chain := by
    have hchain := h.chain
    cases stack with
    | nil => exact List.isChain_singleton _
    | cons f stack =>
      simp only [List.isChain_cons_cons] at hchain ⊢
      exact hchain
  edges f hf e' he' := by
    rcases List.mem_cons.mp hf with rfl | hf
    · exact h.edges (u, e :: es) List.mem_cons_self e' (List.mem_cons_of_mem _ he')
    · exact h.edges f (List.mem_cons_of_mem _ hf) e' he'

/-- The edges that are not left lead to seen vertices, when the target of the edge that
is followed has been seen. -/
theorem Followed.follow {t t' : TarjanState} {colors colors' : ColorMap} {e : Edge L}
    {es : List (Edge L)} {stack : List (ℕ × List (Edge L))}
    (h : g.Followed ⟨t, colors, (u, e :: es) :: stack⟩)
    (hseen : ∀ x, colors.get x ≠ .white → colors'.get x ≠ .white)
    (he : colors'.get e.target ≠ .white) : g.Followed ⟨t', colors', (u, es) :: stack⟩ := by
  intro f hf w hw
  rcases List.mem_cons.mp hf with rfl | hf
  · rcases h (u, e :: es) List.mem_cons_self w hw with hsw | ⟨e', he', rfl⟩
    · exact Or.inl (hseen w hsw)
    · rcases List.mem_cons.mp he' with rfl | he'
      · exact Or.inl he
      · exact Or.inr ⟨e', he', rfl⟩
  · exact (h f (List.mem_cons_of_mem _ hf) w hw).imp_left (hseen w)

theorem TarjanInv.finish {t : TarjanState} {colors : ColorMap}
    {stack : List (ℕ × List (Edge L))} (h : TarjanInv g ⟨t, colors, (u, []) :: stack⟩) :
    TarjanInv g ⟨TarjanState.finishVertex (g.outEdges u) u t, colors.putFast u .black, stack⟩ := by
  obtain ⟨r, hfold, hr⟩ := h.isLow
  have hfollowed : ∀ t', g.Followed ⟨t', colors.putFast u .black, stack⟩ := fun t' f hf w hw ↦
    (h.followed f (List.mem_cons_of_mem _ hf) w hw).imp_left h.seen_black_iff.mpr
  refine ⟨?_, hfollowed _⟩
  unfold TarjanState.finishVertex
  rw [hfold]
  simp only [Function.update_self]
  by_cases hru : r = u
  · subst hru
    rw [if_pos rfl]
    exact h.finish_leaves rfl hr
  · rw [if_neg hru]
    exact h.finish_stays hr hru

/-- **Each step of the search keeps the invariant.** -/
theorem TarjanInv.step (hg : g.Inside) (h : TarjanInv g s)
    (hstep : g.dfsStep g.tarjanVisitor s = some s') : TarjanInv g s' := by
  cases DfsMove.of_dfsStep hstep with
  | @tree t colors u e es stack hwhite =>
    have hadj : g.Adj u e.target :=
      ⟨e, h.edges (u, e :: es) List.mem_cons_self e List.mem_cons_self, rfl⟩
    have hlt := (hg u e.target hadj).2
    have hseen : ∀ x, (colors.putFast e.target .gray).get x ≠ .white ↔
        colors.get x ≠ .white ∨ x = e.target := fun x ↦
      ColorMap.get_putFast_ne_white (h.covers _ hlt) (by decide)
    refine ⟨h.toTarjanCore.follow.discover hlt (not_not.mpr hwhite) ?_, fun f hf ↦ ?_⟩
    · rintro f hf
      cases hf
      exact hadj
    · rcases List.mem_cons.mp hf with rfl | hf
      · -- all edges of the new vertex are left
        exact fun w hw ↦ Or.inr hw
      · have hfollow : g.Followed ⟨t, colors.putFast e.target .gray, (u, es) :: stack⟩ :=
          h.followed.follow (fun x hx ↦ (hseen x).mpr (Or.inl hx))
            ((hseen _).mpr (Or.inr rfl))
        exact hfollow f hf
  | back hgray =>
    exact ⟨h.toTarjanCore.follow, h.followed.follow (fun _ ↦ id) (by simp [hgray])⟩
  | forwardOrCross hwhite =>
    exact ⟨h.toTarjanCore.follow, h.followed.follow (fun _ ↦ id) hwhite⟩
  | finish => exact h.finish

/-! ## The components -/

theorem seen_of_dfsStep {τ : Type} {vis : DfsVisitor τ L} {s s' : DfsState τ L}
    (h : DfsInside g s) (hstep : g.dfsStep vis s = some s') {x : ℕ} (hx : s.Seen x) :
    s'.Seen x := by
  cases DfsMove.of_dfsStep hstep with
  | @tree t colors u e es stack hwhite =>
    have hlt := h.edge (u, e :: es) List.mem_cons_self e List.mem_cons_self
    exact (ColorMap.get_putFast_ne_white (h.covers _ hlt) (by decide)).mpr (Or.inl hx)
  | back | forwardOrCross => exact hx
  | @finish t colors u stack =>
    have hu := h.vertex (u, []) List.mem_cons_self
    exact (ColorMap.get_putFast_ne_white (h.covers u hu) (by decide)).mpr (Or.inl hx)

theorem TarjanInv.visitIfWhite (hg : g.Inside) (h : TarjanInv g s) (hs : s.stack = [])
    (hu : u < g.capacity) : ∃ s', g.dfsVisitIfWhite g.tarjanVisitor s u = some s' ∧
      TarjanInv g s' ∧ s'.stack = [] ∧ ∀ x, s.Seen x ∨ x = u → s'.Seen x := by
  unfold dfsVisitIfWhite
  by_cases hwhite : s.colors.get u = .white
  · have hempty : { s with stack := [] } = s := by rw [← hs]
    have hseen : ∀ x, (g.dfsDiscover g.tarjanVisitor s u).Seen x ↔ s.Seen x ∨ x = u :=
      fun x ↦ seen_dfsDiscover (h.covers u hu)
    have hdisc : TarjanInv g (g.dfsDiscover g.tarjanVisitor s u) := by
      refine ⟨h.toTarjanCore.discover hu (not_not.mpr hwhite) (by simp [hs]), fun f hf ↦ ?_⟩
      rcases List.mem_cons.mp hf with rfl | hf
      · exact fun w hw ↦ Or.inr hw
      · rw [hs] at hf
        cases hf
    obtain ⟨s', hs', ⟨hI, hmono⟩, hend⟩ := depthFirstVisit_spec
      (I := fun s' ↦ TarjanInv g s' ∧ ∀ x, s.Seen x ∨ x = u → s'.Seen x) (s := s)
      (fun _ hI ↦ hI.1.toTarjanCore.dfsInside hg)
      (fun _ _ hI hst ↦ ⟨hI.1.step hg hst, fun x hx ↦
        seen_of_dfsStep (hI.1.toTarjanCore.dfsInside hg) hst (hI.2 x hx)⟩)
      hu (h.covers u hu) hwhite
      (by rw [hempty]; exact ⟨hdisc, fun x hx ↦ (hseen x).mpr hx⟩)
    rw [if_pos hwhite]
    exact ⟨s', hs', hI, hend, hmono⟩
  · rw [if_neg hwhite]
    refine ⟨s, rfl, h, hs, fun x hx ↦ ?_⟩
    rcases hx with hx | rfl
    · exact hx
    · exact hwhite

theorem TarjanInv.visitAll (hg : g.Inside) {vertices : List ℕ}
    (hlt : ∀ u ∈ vertices, u < g.capacity) (h : TarjanInv g s) (hs : s.stack = []) :
    ∃ s', vertices.foldlM (g.dfsVisitIfWhite g.tarjanVisitor) s = some s' ∧
      TarjanInv g s' ∧ s'.stack = [] ∧ ∀ x, s.Seen x ∨ x ∈ vertices → s'.Seen x := by
  induction vertices generalizing s with
  | nil => exact ⟨s, rfl, h, hs, fun x hx ↦ hx.resolve_right List.not_mem_nil⟩
  | cons u vertices ih =>
    obtain ⟨s₁, hs₁, h₁, hs₁', hmono⟩ := h.visitIfWhite hg hs (hlt u List.mem_cons_self)
    obtain ⟨s', hs', h', hend, hmono'⟩ :=
      ih (fun v hv ↦ hlt v (List.mem_cons_of_mem _ hv)) h₁ hs₁'
    refine ⟨s', ?_, h', hend, fun x hx ↦ hmono' x ?_⟩
    · rw [List.foldlM_cons, hs₁]
      exact hs'
    · rcases hx with hx | hx
      · exact Or.inl (hmono x (Or.inl hx))
      · rcases List.mem_cons.mp hx with rfl | hx
        · exact Or.inl (hmono x (Or.inr rfl))
        · exact Or.inr hx

theorem tarjanInv_start (colors : ColorMap) (hcov : ∀ v, v < g.capacity → colors.Covers v)
    (comp : ℕ → Option ℕ) :
    TarjanInv g ⟨{ tarjanStart with comp := comp }, colors.init, []⟩ := by
  set s : DfsState TarjanState L := ⟨{ tarjanStart with comp := comp }, colors.init, []⟩
  have hnone : ∀ x, ¬ s.Seen x := fun x hx ↦ hx ColorMap.get_init
  have hdone : ∀ x, x ∉ s.toLow.done := fun x hx ↦ hnone x hx.1
  refine ⟨⟨fun v hv ↦ ColorMap.covers_init.mpr (hcov v hv), ?_, fun v hv ↦ absurd hv (hnone v),
    nofun, nofun, List.Pairwise.nil, fun v hv ↦ absurd hv (hnone v), List.Pairwise.nil,
    List.isChain_nil, nofun⟩, nofun⟩
  refine ⟨nofun, nofun, nofun, nofun, nofun, nofun, nofun, nofun, nofun,
    fun u w hu ↦ absurd hu (hdone u), fun u hu ↦ absurd hu (hdone u),
    fun u hu ↦ absurd hu (hdone u), fun c hc ↦ absurd hc (Nat.not_lt_zero c)⟩

/-- `comp` numbers the strongly connected components of the graph from 0 to `total`,
such that edges lead to smaller or equal numbers. -/
structure Components (g : BaseGraph N L) (total : ℕ) (comp : ℕ → ℕ) : Prop where
  lt : ∀ u < g.capacity, comp u < total
  used : ∀ c < total, ∃ u < g.capacity, comp u = c
  eq_iff : ∀ u < g.capacity, ∀ w < g.capacity,
    comp u = comp w ↔ ReflTransGen g.Adj u w ∧ ReflTransGen g.Adj w u
  le : ∀ u w, g.Adj u w → comp w ≤ comp u

theorem Components.congr {total : ℕ} {comp comp' : ℕ → ℕ} (h : Components g total comp)
    (hg : g.Inside) (heq : ∀ u < g.capacity, comp' u = comp u) : Components g total comp' where
  lt u hu := heq u hu ▸ h.lt u hu
  used c hc := by
    obtain ⟨u, hu, huc⟩ := h.used c hc
    exact ⟨u, hu, (heq u hu).trans huc⟩
  eq_iff u hu w hw := by
    rw [heq u hu, heq w hw]
    exact h.eq_iff u hu w hw
  le u w huw := by
    rw [heq u (hg u w huw).1, heq w (hg u w huw).2]
    exact h.le u w huw

/-- **Strongly connected components**: the algorithm ends, and every vertex has the
number of its component. -/
theorem strongComponentsInto_spec (hg : g.Inside) (comp₀ : ℕ → Option ℕ) :
    ∃ total comp, g.strongComponentsInto comp₀ = some (total, comp) ∧
      Components g total (fun u ↦ (comp u).getD 0) ∧
      ∀ u < g.capacity, comp u = some ((comp u).getD 0) := by
  obtain ⟨s, hs, h, hend, hseen⟩ := (tarjanInv_start (g := g) (.ofCapacity g.capacity)
    (fun _ ↦ ColorMap.covers_ofCapacity) comp₀).visitAll hg (fun u ↦ List.mem_range.mp) rfl
  have hstack : ∀ x, x ∉ s.visitor.s := h.low.stack_empty fun x hx ↦ by
    simp [toLow, hend] at hx
  have hdone : ∀ x < g.capacity, x ∈ s.toLow.done := fun x hx ↦
    ⟨hseen x (Or.inr (List.mem_range.mpr hx)), hstack x⟩
  refine ⟨s.visitor.total, s.visitor.comp, ?_, ⟨fun u hu ↦ ?_, fun c hc ↦ ?_, fun u hu w hw ↦ ?_,
    fun u w huw ↦ ?_⟩, fun u hu ↦ ?_⟩
  · have hinit : (List.range g.capacity).foldl
        (fun t u ↦ g.tarjanVisitor.initializeVertex u t) { tarjanStart with comp := comp₀ } =
          { tarjanStart with comp := comp₀ } := List.foldl_fixed _
    unfold strongComponentsInto depthFirstSearch
    simp only [hinit, Option.bind_eq_bind, Option.bind_some]
    rw [hs]
    rfl
  · exact h.low.bound u (hdone u hu)
  · obtain ⟨u, hu, huc⟩ := h.low.used c hc
    exact ⟨u, h.seen_lt u hu.1, huc⟩
  · exact h.low.comp_eq_iff (hdone u hu) (hdone w hw)
  · exact (h.low.closed u w (hdone u (hg u w huw).1) huw).2
  · have hne : s.visitor.comp u ≠ none := mt (h.comp_none u (hdone u hu).1).mp (hstack u)
    obtain ⟨c, hc⟩ := Option.ne_none_iff_exists'.mp hne
    rw [hc]
    rfl

theorem strongComponents_spec (hg : g.Inside) :
    ∃ total comp, g.strongComponents = some (total, comp) ∧
      Components g total (fun u ↦ (comp u).getD 0) ∧
      ∀ u < g.capacity, comp u = some ((comp u).getD 0) :=
  strongComponentsInto_spec hg _

/-- **Tarjan's algorithm.**  `strong_components` ends for every map of the caller.  The
vertices get the numbers below the result, and all of them are used; two vertices have the
same number if and only if they reach each other; and an edge between two components leads
to the smaller number. -/
theorem strongComponentsInto_correct (hg : g.Inside) (comp₀ : ℕ → Option ℕ) :
    ∃ total comp, g.strongComponentsInto comp₀ = some (total, comp) ∧
      (∀ c, (∃ u < g.capacity, comp u = some c) ↔ c < total) ∧
      (∀ u < g.capacity, ∃ c, comp u = some c) ∧
      (∀ u < g.capacity, ∀ w < g.capacity,
        comp u = comp w ↔ ReflTransGen g.Adj u w ∧ ReflTransGen g.Adj w u) ∧
      ∀ u w, g.Adj u w → comp u ≠ comp w →
        ∃ c d, comp u = some c ∧ comp w = some d ∧ d < c := by
  obtain ⟨total, comp, hcomp, h, hsome⟩ := strongComponentsInto_spec hg comp₀
  refine ⟨total, comp, hcomp, fun c ↦ ⟨?_, fun hc ↦ ?_⟩, fun u hu ↦ ⟨_, hsome u hu⟩, ?_, ?_⟩
  · rintro ⟨u, hu, huc⟩
    simpa [huc] using h.lt u hu
  · obtain ⟨u, hu, rfl⟩ := h.used c hc
    exact ⟨u, hu, hsome u hu⟩
  · intro u hu w hw
    rw [hsome u hu, hsome w hw, Option.some_inj]
    exact h.eq_iff u hu w hw
  · intro u w huw hne
    have hu := hsome u (hg u w huw).1
    have hw := hsome w (hg u w huw).2
    refine ⟨_, _, hu, hw, lt_of_le_of_ne (h.le u w huw) fun heq ↦ hne ?_⟩
    rw [hu, hw, heq]

/-- Two vertices that reach each other, and a path from them to two others. -/
def cycleAndTail : BaseGraph Unit Unit where
  vertices
    | 0 => ⟨[⟨0, 1, ()⟩], [⟨1, 0, ()⟩], (), false⟩
    | 1 => ⟨[⟨1, 0, ()⟩, ⟨1, 2, ()⟩], [⟨0, 1, ()⟩], (), false⟩
    | 2 => ⟨[⟨2, 3, ()⟩], [⟨1, 2, ()⟩], (), false⟩
    | 3 => ⟨[], [⟨2, 3, ()⟩], (), false⟩
    | _ => ⟨[], [], (), false⟩
  capacity := 4
  freeVertices := []
  size := 4
  edgeSize := 4

theorem inside_cycleAndTail : cycleAndTail.Inside := by
  have hall : ∀ u < 4, ∀ e ∈ cycleAndTail.outEdges u, e.target < 4 := by decide
  rintro u w ⟨e, he, rfl⟩
  have hu : u < 4 := by
    by_contra hu
    obtain ⟨n, rfl⟩ := Nat.exists_eq_add_of_le' (Nat.not_lt.mp hu)
    cases he
  exact ⟨hu, hall u hu e he⟩

theorem strongComponentsInto_cycleAndTail :
    cycleAndTail.Inside ∧
      (∃ total comp, cycleAndTail.strongComponentsInto (fun _ ↦ none) = some (total, comp) ∧
        (∀ c, (∃ u < 4, comp u = some c) ↔ c < total) ∧
        (∀ u < 4, ∃ c, comp u = some c) ∧
        (∀ u < 4, ∀ w < 4, comp u = comp w ↔
          ReflTransGen cycleAndTail.Adj u w ∧ ReflTransGen cycleAndTail.Adj w u) ∧
        ∀ u w, cycleAndTail.Adj u w → comp u ≠ comp w →
          ∃ c d, comp u = some c ∧ comp w = some d ∧ d < c) ∧
      (cycleAndTail.strongComponentsInto fun _ ↦ none).map
        (fun r ↦ (r.1, (List.range 4).map r.2)) = some (3, [some 2, some 2, some 1, some 0]) :=
  ⟨inside_cycleAndTail, strongComponentsInto_correct inside_cycleAndTail _, by decide +kernel⟩

end BaseGraph

end Cali.Graph
