import Mathlib.Data.Set.Basic
import Mathlib.Logic.Relation

/-!
# Strongly connected components by low links

The state of a depth-first search that computes strongly connected components: the
*gray* vertices are those whose search is going on, the *stack* holds the vertices that
have been seen and not been assigned to a component, and `root` is the low link of a
vertex.  There are three events.  A vertex is discovered; the search of a gray vertex
is finished and its low link is another vertex; or its low link is the vertex itself,
and everything on the stack that is not older than it becomes a component.

The events are relations between two states, so that an implementation can be related
to them whatever its data structures are.  `LowInv` is the invariant; when nothing is
gray any more it says that the components are the strongly connected ones, numbered
such that edges lead to smaller or equal numbers.
-/

namespace Cali.Lib

open Relation

universe u

variable {V : Type u}

/-- The state of the search. -/
structure LowState (V : Type u) where
  time : V → ℕ
  root : V → V
  gray : Set V
  stack : Set V
  done : Set V
  comp : V → ℕ
  total : ℕ

namespace LowState

/-- `p` is the last gray vertex that is not younger than `x`. -/
structure Latest (s : LowState V) (p x : V) : Prop where
  gray : p ∈ s.gray
  le : s.time p ≤ s.time x
  max : ∀ q ∈ s.gray, s.time q ≤ s.time x → s.time q ≤ s.time p

/-- `v` is the youngest gray vertex. -/
structure Top (s : LowState V) (v : V) : Prop where
  gray : v ∈ s.gray
  max : ∀ q ∈ s.gray, s.time q ≤ s.time v

end LowState

/-- The invariant of the search. -/
structure LowInv (edge : V → V → Prop) (s : LowState V) : Prop where
  gray_stack : ∀ p ∈ s.gray, p ∈ s.stack
  not_done : ∀ x ∈ s.stack, x ∉ s.done
  inj : ∀ x ∈ s.stack, ∀ y ∈ s.stack, s.time x = s.time y → x = y
  reach : ∀ p ∈ s.gray, ∀ x ∈ s.stack, s.time p ≤ s.time x → ReflTransGen edge p x
  back : ∀ x ∈ s.stack, ∃ p ∈ s.gray, s.time p ≤ s.time x ∧ ReflTransGen edge x p
  seen : ∀ x w, x ∈ s.stack → x ∉ s.gray → edge x w → w ∈ s.stack ∨ w ∈ s.done
  root_gray : ∀ p ∈ s.gray, s.root p = p
  root_mem : ∀ x ∈ s.stack,
    s.root x ∈ s.stack ∧ s.time (s.root x) ≤ s.time x ∧ ReflTransGen edge x (s.root x)
  /-- An edge from a finished vertex `x` to the stack shows in the low link of a
  finished successor of the gray vertex that `x` was found from. -/
  low : ∀ x w p, x ∈ s.stack → x ∉ s.gray → edge x w → w ∈ s.stack → s.Latest p x →
    ∃ c ∈ s.stack, edge p c ∧ s.time c ≤ s.time x ∧ s.time (s.root c) ≤ s.time w
  closed : ∀ u w, u ∈ s.done → edge u w → w ∈ s.done ∧ s.comp w ≤ s.comp u
  scc : ∀ u ∈ s.done, ∀ v ∈ s.done, s.comp u = s.comp v → ReflTransGen edge u v
  bound : ∀ u ∈ s.done, s.comp u < s.total
  used : ∀ c < s.total, ∃ u ∈ s.done, s.comp u = c

variable {edge : V → V → Prop} {s s' : LowState V} {v r : V}

/-! ## Discovering a vertex -/

/-- `v` is discovered. -/
structure Discovers (s : LowState V) (v : V) (s' : LowState V) : Prop where
  time : ∀ x ∈ s.stack, s'.time x = s.time x
  time_lt : ∀ x ∈ s.stack, s.time x < s'.time v
  root : ∀ x ∈ s.stack, s'.root x = s.root x
  root_self : s'.root v = v
  gray : ∀ x, x ∈ s'.gray ↔ x ∈ s.gray ∨ x = v
  stack : ∀ x, x ∈ s'.stack ↔ x ∈ s.stack ∨ x = v
  done : s'.done = s.done
  comp : ∀ x ∈ s.done, s'.comp x = s.comp x
  total : s'.total = s.total

/-- For a vertex that was on the stack the last gray vertex is the same as before. -/
theorem LowInv.latest_of_discovers (h : LowInv edge s) (hd : Discovers s v s') {p x : V}
    (hx : x ∈ s.stack) (hlatest : s'.Latest p x) : s.Latest p x := by
  have hgray : ∀ q ∈ s.gray, s'.time q = s.time q := fun q hq ↦ hd.time q (h.gray_stack q hq)
  have hp : p ∈ s.gray := by
    refine ((hd.gray p).mp hlatest.gray).resolve_right fun hpv ↦ ?_
    have hle := hlatest.le
    have := hd.time_lt x hx
    rw [hpv, hd.time x hx] at hle
    omega
  refine ⟨hp, ?_, fun q hq hqx ↦ ?_⟩
  · rw [← hgray p hp, ← hd.time x hx]
    exact hlatest.le
  · rw [← hgray q hq, ← hgray p hp]
    refine hlatest.max q ((hd.gray q).mpr (Or.inl hq)) ?_
    rwa [hgray q hq, hd.time x hx]

theorem LowInv.low_of_discovers (h : LowInv edge s) (hd : Discovers s v s') (hstack : v ∉ s.stack)
    (hdone : v ∉ s.done) {x w p : V} (hx : x ∈ s'.stack) (hg : x ∉ s'.gray) (he : edge x w)
    (hw : w ∈ s'.stack) (hlatest : s'.Latest p x) :
    ∃ c ∈ s'.stack, edge p c ∧ s'.time c ≤ s'.time x ∧ s'.time (s'.root c) ≤ s'.time w := by
  have hxs : x ∈ s.stack := ((hd.stack x).mp hx).resolve_right fun hxv ↦
    hg ((hd.gray x).mpr (Or.inr hxv))
  have hgx : x ∉ s.gray := fun hgx ↦ hg ((hd.gray x).mpr (Or.inl hgx))
  -- a finished vertex has no edge to a vertex that has not been seen
  have hws : w ∈ s.stack := by
    refine ((hd.stack w).mp hw).resolve_right fun hwv ↦ ?_
    rcases h.seen x w hxs hgx he with hw' | hw'
    · exact hstack (hwv ▸ hw')
    · exact hdone (hwv ▸ hw')
  obtain ⟨c, hc, hpc, hcx, hcw⟩ :=
    h.low x w p hxs hgx he hws (h.latest_of_discovers hd hxs hlatest)
  refine ⟨c, (hd.stack c).mpr (Or.inl hc), hpc, ?_, ?_⟩
  · rwa [hd.time c hc, hd.time x hxs]
  · rwa [hd.root c hc, hd.time _ (h.root_mem c hc).1, hd.time w hws]

/-- A new vertex that the youngest gray vertex, if there is one, has an edge to. -/
theorem LowInv.discovers (h : LowInv edge s) (hd : Discovers s v s') (hstack : v ∉ s.stack)
    (hdone : v ∉ s.done) (hparent : ∀ p ∈ s.gray, ∃ u ∈ s.gray, s.time p ≤ s.time u ∧ edge u v) :
    LowInv edge s' := by
  have hgs : ∀ p ∈ s.gray, s'.time p = s.time p := fun p hp ↦ hd.time p (h.gray_stack p hp)
  constructor
  case gray_stack =>
    intro p hp
    exact (hd.stack p).mpr (((hd.gray p).mp hp).imp_left (h.gray_stack p))
  case not_done =>
    intro x hx
    rw [hd.done]
    rcases (hd.stack x).mp hx with hx | rfl
    · exact h.not_done x hx
    · exact hdone
  case inj =>
    intro x hx y hy hxy
    rcases (hd.stack x).mp hx with hx | rfl <;> rcases (hd.stack y).mp hy with hy | rfl
    · rw [hd.time x hx, hd.time y hy] at hxy
      exact h.inj x hx y hy hxy
    · have := hd.time_lt x hx
      rw [hd.time x hx] at hxy
      omega
    · have := hd.time_lt y hy
      rw [hd.time y hy] at hxy
      omega
    · rfl
  case reach =>
    intro p hp x hx hpx
    rcases (hd.gray p).mp hp with hp | rfl
    · rcases (hd.stack x).mp hx with hx | rfl
      · rw [hgs p hp, hd.time x hx] at hpx
        exact h.reach p hp x hx hpx
      · obtain ⟨u, hu, hpu, he⟩ := hparent p hp
        exact (h.reach p hp u (h.gray_stack u hu) hpu).tail he
    · rcases (hd.stack x).mp hx with hx | rfl
      · have := hd.time_lt x hx
        rw [hd.time x hx] at hpx
        omega
      · exact .refl
  case back =>
    intro x hx
    rcases (hd.stack x).mp hx with hx | rfl
    · obtain ⟨p, hp, hle, hreach⟩ := h.back x hx
      refine ⟨p, (hd.gray p).mpr (Or.inl hp), ?_, hreach⟩
      rw [hgs p hp, hd.time x hx]
      exact hle
    · exact ⟨x, (hd.gray x).mpr (Or.inr rfl), Nat.le_refl _, .refl⟩
  case seen =>
    intro x w hx hg he
    rw [hd.done, hd.stack]
    rcases (hd.stack x).mp hx with hx | rfl
    · exact (h.seen x w hx (fun hg' ↦ hg ((hd.gray x).mpr (Or.inl hg'))) he).imp_left Or.inl
    · exact absurd ((hd.gray x).mpr (Or.inr rfl)) hg
  case root_gray =>
    intro p hp
    rcases (hd.gray p).mp hp with hp | rfl
    · rw [hd.root p (h.gray_stack p hp)]
      exact h.root_gray p hp
    · exact hd.root_self
  case root_mem =>
    intro x hx
    rcases (hd.stack x).mp hx with hx | rfl
    · obtain ⟨hmem, hle, hreach⟩ := h.root_mem x hx
      rw [hd.root x hx, hd.time _ hmem, hd.time x hx]
      exact ⟨(hd.stack _).mpr (Or.inl hmem), hle, hreach⟩
    · rw [hd.root_self]
      exact ⟨hx, Nat.le_refl _, .refl⟩
  case low =>
    intro x w p hx hg he hw hlatest
    exact h.low_of_discovers hd hstack hdone hx hg he hw hlatest
  case closed =>
    intro u w hu he
    rw [hd.done] at hu ⊢
    obtain ⟨hw, hle⟩ := h.closed u w hu he
    exact ⟨hw, by rwa [hd.comp u hu, hd.comp w hw]⟩
  case scc =>
    intro u hu w hw
    rw [hd.done] at hu hw
    rw [hd.comp u hu, hd.comp w hw]
    exact h.scc u hu w hw
  case bound =>
    intro u hu
    rw [hd.done] at hu
    rw [hd.comp u hu, hd.total]
    exact h.bound u hu
  case used =>
    intro c hc
    rw [hd.total] at hc
    obtain ⟨u, hu, rfl⟩ := h.used c hc
    exact ⟨u, hd.done ▸ hu, hd.comp u hu⟩

/-! ## Finishing a vertex -/

/-- `r` is the new low link of `v`: the oldest one among `v` and the low links of its
successors on the stack. -/
structure IsLow (edge : V → V → Prop) (s : LowState V) (v r : V) : Prop where
  eq_or : r = v ∨ ∃ w ∈ s.stack, edge v w ∧ r = s.root w
  le_self : s.time r ≤ s.time v
  le : ∀ w ∈ s.stack, edge v w → s.time r ≤ s.time (s.root w)

/-- The search of `v` is finished, and `v` stays on the stack with the low link `r`. -/
structure Stays (s : LowState V) (v r : V) (s' : LowState V) : Prop where
  time : s'.time = s.time
  root : ∀ x ∈ s.stack, x ≠ v → s'.root x = s.root x
  root_self : s'.root v = r
  gray : ∀ x, x ∈ s'.gray ↔ x ∈ s.gray ∧ x ≠ v
  stack : s'.stack = s.stack
  done : s'.done = s.done
  comp : s'.comp = s.comp
  total : s'.total = s.total

theorem IsLow.mem (h : LowInv edge s) (hv : v ∈ s.gray) (hr : IsLow edge s v r) :
    r ∈ s.stack ∧ ReflTransGen edge v r := by
  rcases hr.eq_or with rfl | ⟨w, hw, he, rfl⟩
  · exact ⟨h.gray_stack _ hv, .refl⟩
  · exact ⟨(h.root_mem w hw).1, .head he (h.root_mem w hw).2.2⟩

/-- The edges of a vertex that was found from `v` show in the low link of `v`. -/
theorem IsLow.le_of_edge (hr : IsLow edge s v r) (h : LowInv edge s) (htop : s.Top v) {x w : V}
    (hx : x ∈ s.stack) (hvx : s.time v ≤ s.time x) (he : edge x w) (hw : w ∈ s.stack) :
    s.time r ≤ s.time w := by
  by_cases hxv : x = v
  · rw [hxv] at he
    exact (hr.le w hw he).trans (h.root_mem w hw).2.1
  · have hgx : x ∉ s.gray := fun hgx ↦ hxv
      (h.inj x hx v (h.gray_stack v htop.gray) (Nat.le_antisymm (htop.max x hgx) hvx))
    obtain ⟨c, hc, hvc, -, hcw⟩ := h.low x w v hx hgx he hw
      ⟨htop.gray, hvx, fun q hq _ ↦ htop.max q hq⟩
    exact (hr.le c hc hvc).trans hcw

/-- The low links still show the edges of finished vertices, those of `v` now included. -/
theorem LowInv.low_of_stays (h : LowInv edge s) (hf : Stays s v r s') (htop : s.Top v)
    (hr : IsLow edge s v r)
    (hparent : ∀ p ∈ s.gray, p ≠ v → (∀ q ∈ s.gray, q ≠ v → s.time q ≤ s.time p) → edge p v)
    {x w p : V} (hx : x ∈ s.stack) (hg : x ∉ s'.gray) (he : edge x w) (hw : w ∈ s.stack)
    (hlatest : s'.Latest p x) :
    ∃ c ∈ s.stack, edge p c ∧ s.time c ≤ s.time x ∧ s.time (s'.root c) ≤ s.time w := by
  obtain ⟨hp, hpx, hlast⟩ := hlatest
  rw [hf.time] at hpx hlast
  obtain ⟨hp, hpv⟩ := (hf.gray p).mp hp
  have hmax : ∀ q ∈ s.gray, q ≠ v → s.time q ≤ s.time x → s.time q ≤ s.time p :=
    fun q hq hqv ↦ hlast q ((hf.gray q).mpr ⟨hq, hqv⟩)
  by_cases hvx : s.time v ≤ s.time x
  · refine ⟨v, h.gray_stack v htop.gray,
      hparent p hp hpv fun q hq hqv ↦ hmax q hq hqv ((htop.max q hq).trans hvx), hvx, ?_⟩
    rw [hf.root_self]
    exact hr.le_of_edge h htop hx hvx he hw
  · have hxv : x ≠ v := fun hxv ↦ hvx (hxv ▸ Nat.le_refl _)
    have hgx : x ∉ s.gray := fun hgx ↦ hg ((hf.gray x).mpr ⟨hgx, hxv⟩)
    have hlatest' : s.Latest p x := by
      refine ⟨hp, hpx, fun q hq hqx ↦ ?_⟩
      by_cases hqv : q = v
      · exact absurd (hqv ▸ hqx) hvx
      · exact hmax q hq hqv hqx
    obtain ⟨c, hc, hpc, hcx, hcw⟩ := h.low x w p hx hgx he hw hlatest'
    refine ⟨c, hc, hpc, hcx, le_trans ?_ hcw⟩
    -- the low link of `c` is at least as old as before
    by_cases hcv : c = v
    · rw [hcv, hf.root_self, h.root_gray v htop.gray]
      exact hr.le_self
    · rw [hf.root c hc hcv]

/-- The low link is another vertex.  The edge that `v` was found by comes from the gray
vertex that is now the youngest one. -/
theorem LowInv.stays (h : LowInv edge s) (hf : Stays s v r s') (htop : s.Top v)
    (hseen : ∀ w, edge v w → w ∈ s.stack ∨ w ∈ s.done) (hr : IsLow edge s v r) (hrv : r ≠ v)
    (hparent : ∀ p ∈ s.gray, p ≠ v → (∀ q ∈ s.gray, q ≠ v → s.time q ≤ s.time p) → edge p v) :
    LowInv edge s' := by
  have hvs : v ∈ s.stack := h.gray_stack v htop.gray
  obtain ⟨hrs, hvr⟩ := hr.mem h htop.gray
  have hlt : s.time r < s.time v :=
    lt_of_le_of_ne hr.le_self fun heq ↦ hrv (h.inj r hrs v hvs heq)
  constructor
  case gray_stack =>
    intro p hp
    rw [hf.stack]
    exact h.gray_stack p ((hf.gray p).mp hp).1
  case not_done =>
    rw [hf.stack, hf.done]
    exact h.not_done
  case inj =>
    rw [hf.stack, hf.time]
    exact h.inj
  case reach =>
    intro p hp
    rw [hf.stack, hf.time]
    exact h.reach p ((hf.gray p).mp hp).1
  case back =>
    intro x hx
    rw [hf.stack] at hx
    rw [hf.time]
    obtain ⟨p, hp, hle, hreach⟩ := h.back x hx
    by_cases hpv : p = v
    · -- from `v` one gets to its low link and from there to an older gray vertex
      subst hpv
      obtain ⟨q, hq, hqle, hqreach⟩ := h.back r hrs
      refine ⟨q, (hf.gray q).mpr ⟨hq, ?_⟩, by omega, (hreach.trans hvr).trans hqreach⟩
      rintro rfl
      omega
    · exact ⟨p, (hf.gray p).mpr ⟨hp, hpv⟩, hle, hreach⟩
  case seen =>
    intro x w hx hg he
    rw [hf.stack] at hx ⊢
    rw [hf.done]
    by_cases hxv : x = v
    · exact hseen w (hxv ▸ he)
    · exact h.seen x w hx (fun hgx ↦ hg ((hf.gray x).mpr ⟨hgx, hxv⟩)) he
  case root_gray =>
    intro p hp
    obtain ⟨hp, hpv⟩ := (hf.gray p).mp hp
    rw [hf.root p (h.gray_stack p hp) hpv]
    exact h.root_gray p hp
  case root_mem =>
    intro x hx
    rw [hf.stack] at hx ⊢
    rw [hf.time]
    by_cases hxv : x = v
    · rw [hxv, hf.root_self]
      exact ⟨hrs, hr.le_self, hvr⟩
    · rw [hf.root x hx hxv]
      exact h.root_mem x hx
  case low =>
    intro x w p hx hg he hw hlatest
    rw [hf.stack] at hx hw ⊢
    rw [hf.time]
    exact h.low_of_stays hf htop hr hparent hx hg he hw hlatest
  case closed =>
    rw [hf.done, hf.comp]
    exact h.closed
  case scc =>
    rw [hf.done, hf.comp]
    exact h.scc
  case bound =>
    rw [hf.done, hf.comp, hf.total]
    exact h.bound
  case used =>
    rw [hf.done, hf.comp, hf.total]
    exact h.used

/-- The search of `v` is finished, and what is on the stack and not older than `v`
becomes a component. -/
structure Leaves (s : LowState V) (v : V) (s' : LowState V) : Prop where
  time : s'.time = s.time
  root : ∀ x ∈ s'.stack, s'.root x = s.root x
  gray : ∀ x, x ∈ s'.gray ↔ x ∈ s.gray ∧ x ≠ v
  stack : ∀ x, x ∈ s'.stack ↔ x ∈ s.stack ∧ s.time x < s.time v
  done : ∀ x, x ∈ s'.done ↔ x ∈ s.done ∨ x ∈ s.stack ∧ s.time v ≤ s.time x
  comp : ∀ x ∈ s.done, s'.comp x = s.comp x
  comp_new : ∀ x ∈ s.stack, s.time v ≤ s.time x → s'.comp x = s.total
  total : s'.total = s.total + 1

/-- From everything in the component one gets back to `v`. -/
theorem LowInv.reach_top (h : LowInv edge s) (htop : s.Top v) {x : V} (hx : x ∈ s.stack) :
    ReflTransGen edge x v := by
  obtain ⟨p, hp, -, hreach⟩ := h.back x hx
  exact hreach.trans (h.reach p hp v (h.gray_stack v htop.gray) (htop.max p hp))

/-- A vertex that is gray afterwards is older than `v`. -/
theorem LowInv.stack_of_leaves (h : LowInv edge s) (hf : Leaves s v s') (htop : s.Top v) {p : V}
    (hp : p ∈ s'.gray) : p ∈ s'.stack := by
  obtain ⟨hp, hpv⟩ := (hf.gray p).mp hp
  have hps : p ∈ s.stack := h.gray_stack p hp
  refine (hf.stack p).mpr ⟨hps, lt_of_le_of_ne (htop.max p hp) fun heq ↦ hpv ?_⟩
  exact h.inj p hps v (h.gray_stack v htop.gray) heq

theorem Leaves.not_gray (hf : Leaves s v s') {x : V} (hx : x ∈ s'.stack) (hg : x ∉ s'.gray) :
    x ∉ s.gray := by
  intro hg'
  refine hg ((hf.gray x).mpr ⟨hg', fun hxv ↦ ?_⟩)
  have hlt := ((hf.stack x).mp hx).2
  rw [hxv] at hlt
  omega

theorem LowInv.low_of_leaves (h : LowInv edge s) (hf : Leaves s v s') {x w p : V}
    (hx : x ∈ s'.stack) (hg : x ∉ s'.gray) (he : edge x w) (hw : w ∈ s'.stack)
    (hlatest : s'.Latest p x) :
    ∃ c ∈ s'.stack, edge p c ∧ s.time c ≤ s.time x ∧ s.time (s'.root c) ≤ s.time w := by
  have hgx := hf.not_gray hx hg
  obtain ⟨hx, hlt⟩ := (hf.stack x).mp hx
  obtain ⟨hw, -⟩ := (hf.stack w).mp hw
  have hlatest' : s.Latest p x := by
    obtain ⟨hp, hle, hmax⟩ := hlatest
    rw [hf.time] at hle hmax
    refine ⟨((hf.gray p).mp hp).1, hle, fun q hq hqx ↦ hmax q ((hf.gray q).mpr ⟨hq, ?_⟩) hqx⟩
    rintro rfl
    omega
  obtain ⟨c, hc, hpc, hcx, hcw⟩ := h.low x w p hx hgx he hw hlatest'
  have hcs : c ∈ s'.stack := (hf.stack c).mpr ⟨hc, by omega⟩
  exact ⟨c, hcs, hpc, hcx, by rwa [hf.root c hcs]⟩

theorem LowInv.closed_of_leaves (h : LowInv edge s) (hf : Leaves s v s') (htop : s.Top v)
    (hseen : ∀ w, edge v w → w ∈ s.stack ∨ w ∈ s.done) (hr : IsLow edge s v v) {x w : V}
    (hx : x ∈ s.stack) (hvx : s.time v ≤ s.time x) (he : edge x w) :
    w ∈ s'.done ∧ s'.comp w ≤ s.total := by
  have hw : w ∈ s.stack ∨ w ∈ s.done := by
    by_cases hxv : x = v
    · exact hseen w (hxv ▸ he)
    · refine h.seen x w hx (fun hgx ↦ hxv ?_) he
      exact h.inj x hx v (h.gray_stack v htop.gray) (Nat.le_antisymm (htop.max x hgx) hvx)
  rw [hf.done]
  rcases hw with hw | hw
  · have hvw := hr.le_of_edge h htop hx hvx he hw
    exact ⟨Or.inr ⟨hw, hvw⟩, Nat.le_of_eq (hf.comp_new w hw hvw)⟩
  · rw [hf.comp w hw]
    exact ⟨Or.inl hw, Nat.le_of_lt (h.bound w hw)⟩

theorem LowInv.leaves (h : LowInv edge s) (hf : Leaves s v s') (htop : s.Top v)
    (hseen : ∀ w, edge v w → w ∈ s.stack ∨ w ∈ s.done) (hr : IsLow edge s v v) :
    LowInv edge s' := by
  have hvs : v ∈ s.stack := h.gray_stack v htop.gray
  constructor
  case gray_stack =>
    intro p hp
    exact h.stack_of_leaves hf htop hp
  case not_done =>
    intro x hx hd
    obtain ⟨hx, hlt⟩ := (hf.stack x).mp hx
    rcases (hf.done x).mp hd with hd | hd
    · exact h.not_done x hx hd
    · omega
  case inj =>
    intro x hx y hy
    rw [hf.time]
    exact h.inj x ((hf.stack x).mp hx).1 y ((hf.stack y).mp hy).1
  case reach =>
    intro p hp x hx
    rw [hf.time]
    exact h.reach p ((hf.gray p).mp hp).1 x ((hf.stack x).mp hx).1
  case back =>
    intro x hx
    obtain ⟨hx, hlt⟩ := (hf.stack x).mp hx
    obtain ⟨p, hp, hle, hreach⟩ := h.back x hx
    rw [hf.time]
    refine ⟨p, (hf.gray p).mpr ⟨hp, ?_⟩, hle, hreach⟩
    rintro rfl
    omega
  case seen =>
    intro x w hx hg he
    have hg' := hf.not_gray hx hg
    obtain ⟨hx, hlt⟩ := (hf.stack x).mp hx
    rw [hf.stack, hf.done]
    rcases h.seen x w hx hg' he with hw | hw
    · rcases Nat.lt_or_ge (s.time w) (s.time v) with hwv | hwv
      · exact Or.inl ⟨hw, hwv⟩
      · exact Or.inr (Or.inr ⟨hw, hwv⟩)
    · exact Or.inr (Or.inl hw)
  case root_gray =>
    intro p hp
    rw [hf.root p (h.stack_of_leaves hf htop hp)]
    exact h.root_gray p ((hf.gray p).mp hp).1
  case root_mem =>
    intro x hx
    rw [hf.root x hx, hf.time, hf.stack]
    obtain ⟨hx, hlt⟩ := (hf.stack x).mp hx
    obtain ⟨hmem, hle, hreach⟩ := h.root_mem x hx
    exact ⟨⟨hmem, by omega⟩, hle, hreach⟩
  case low =>
    intro x w p hx hg he hw hlatest
    rw [hf.time]
    exact h.low_of_leaves hf hx hg he hw hlatest
  case closed =>
    intro u w hu he
    rcases (hf.done u).mp hu with hu | ⟨hu, hvu⟩
    · obtain ⟨hw, hle⟩ := h.closed u w hu he
      rw [hf.comp u hu, hf.comp w hw]
      exact ⟨(hf.done w).mpr (Or.inl hw), hle⟩
    · rw [hf.comp_new u hu hvu]
      exact h.closed_of_leaves hf htop hseen hr hu hvu he
  case scc =>
    intro u hu w hw
    rcases (hf.done u).mp hu with hu | ⟨hu, hvu⟩ <;> rcases (hf.done w).mp hw with hw | ⟨hw, hvw⟩
    · rw [hf.comp u hu, hf.comp w hw]
      exact h.scc u hu w hw
    · intro heq
      have := h.bound u hu
      rw [hf.comp u hu, hf.comp_new w hw hvw] at heq
      omega
    · intro heq
      have := h.bound w hw
      rw [hf.comp_new u hu hvu, hf.comp w hw] at heq
      omega
    · intro _
      exact (h.reach_top htop hu).trans (h.reach v htop.gray w hw hvw)
  case bound =>
    intro u hu
    rw [hf.total]
    rcases (hf.done u).mp hu with hu | ⟨hu, hvu⟩
    · rw [hf.comp u hu]
      exact Nat.lt_succ_of_lt (h.bound u hu)
    · rw [hf.comp_new u hu hvu]
      exact Nat.lt_succ_self _
  case used =>
    intro c hc
    rw [hf.total] at hc
    rcases Nat.lt_succ_iff_lt_or_eq.mp hc with hc | rfl
    · obtain ⟨u, hu, rfl⟩ := h.used c hc
      exact ⟨u, (hf.done u).mpr (Or.inl hu), hf.comp u hu⟩
    · exact ⟨v, (hf.done v).mpr (Or.inr ⟨hvs, Nat.le_refl _⟩),
        hf.comp_new v hvs (Nat.le_refl _)⟩

/-! ## The result -/

theorem LowInv.stack_empty (h : LowInv edge s) (hgray : ∀ x, x ∉ s.gray) : ∀ x, x ∉ s.stack := by
  intro x hx
  obtain ⟨p, hp, -⟩ := h.back x hx
  exact hgray p hp

theorem LowInv.comp_le (h : LowInv edge s) {u w : V} (hu : u ∈ s.done)
    (hreach : ReflTransGen edge u w) : w ∈ s.done ∧ s.comp w ≤ s.comp u := by
  induction hreach with
  | refl => exact ⟨hu, Nat.le_refl _⟩
  | tail _ he ih =>
    obtain ⟨hw, hle⟩ := h.closed _ _ ih.1 he
    exact ⟨hw, hle.trans ih.2⟩

/-- **The components are the strongly connected ones.** -/
theorem LowInv.comp_eq_iff (h : LowInv edge s) {u w : V} (hu : u ∈ s.done) (hw : w ∈ s.done) :
    s.comp u = s.comp w ↔ ReflTransGen edge u w ∧ ReflTransGen edge w u := by
  constructor
  · intro heq
    exact ⟨h.scc u hu w hw heq, h.scc w hw u hu heq.symm⟩
  · rintro ⟨huw, hwu⟩
    exact Nat.le_antisymm (h.comp_le hw hwu).2 (h.comp_le hu huw).2

end Cali.Lib
