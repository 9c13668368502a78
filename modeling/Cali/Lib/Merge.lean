import Mathlib.Data.List.Basic
import Mathlib.Logic.Function.Basic
import Mathlib.Logic.Relation

/-!
# Merging the vertices of a labelled graph

A worklist algorithm that unites vertices keeps a graph, a map from each vertex it
has removed to the vertex that replaced it, and the pairs it still has to unite.
Some labels are *structural*: a vertex should have at most one edge with such a
label, so when both vertices of a pair have one, the second edge is dropped and its
target is queued to be united with the target of the first.

`mergeEdge` is the graph after one union.  `IsQuotient` is the invariant that at the
end, when nothing is pending, says that the graph is the quotient of the one the
algorithm started from.
-/

namespace Cali.Lib

universe u v

variable {V : Type u} {L : Type v}

/-! ## Replacement maps -/

/-- Following the replacement map from `x` one comes through `y`. -/
def Leads (parent : V → Option V) : V → V → Prop :=
  Relation.ReflTransGen fun x y ↦ parent x = some y

/-- `r` is the vertex that `x` was finally replaced by. -/
def IsRep (parent : V → Option V) (x r : V) : Prop := Leads parent x r ∧ parent r = none

variable {parent : V → Option V} {x y z r r' a b : V}

theorem isRep_self (h : parent x = none) : IsRep parent x x := ⟨.refl, h⟩

/-- Whatever `x` leads to has the same replacement as `x`. -/
theorem IsRep.of_leads (hr : IsRep parent x r) (h : Leads parent x y) : IsRep parent y r := by
  induction h with
  | refl => exact hr
  | tail _ hstep ih =>
    obtain ⟨hlead, hroot⟩ := ih
    rcases Relation.ReflTransGen.cases_head hlead with rfl | ⟨c, hc, hlead⟩
    · rw [hroot] at hstep
      cases hstep
    · cases hc.symm.trans hstep
      exact ⟨hlead, hroot⟩

theorem IsRep.eq_of_root (hr : IsRep parent x r) (h : parent x = none) : r = x := by
  rcases Relation.ReflTransGen.cases_head hr.1 with rfl | ⟨c, hc, -⟩
  · rfl
  · rw [h] at hc
    cases hc

theorem IsRep.unique (hr : IsRep parent x r) (hr' : IsRep parent x r') : r = r' :=
  ((hr.of_leads hr'.1).eq_of_root hr'.2)

theorem IsRep.eq_or_eq {ρ : V → V} (hρ : ∀ x, IsRep parent x (ρ x)) (ha : parent a = none)
    (hb : parent b = none)
    (h : Leads parent x a ∧ Leads parent y b ∨ Leads parent x b ∧ Leads parent y a) :
    ρ x = a ∧ ρ y = b ∨ ρ x = b ∧ ρ y = a :=
  h.imp (fun h ↦ ⟨(hρ x).unique ⟨h.1, ha⟩, (hρ y).unique ⟨h.2, hb⟩⟩)
    fun h ↦ ⟨(hρ x).unique ⟨h.1, hb⟩, (hρ y).unique ⟨h.2, ha⟩⟩

/-- Replacing a vertex `b` that is still there by another such vertex `a`. -/
theorem IsRep.update [DecidableEq V] (hr : IsRep parent x r) (ha : parent a = none)
    (hb : parent b = none) (hne : a ≠ b) :
    IsRep (Function.update parent b (some a)) x (if r = b then a else r) := by
  have hlead : Leads (Function.update parent b (some a)) x r := by
    refine Relation.ReflTransGen.mono (fun y z hyz ↦ ?_) _ _ hr.1
    rwa [Function.update_of_ne]
    rintro rfl
    rw [hb] at hyz
    cases hyz
  split
  · next h =>
      subst h
      exact ⟨hlead.tail (Function.update_self ..), by rwa [Function.update_of_ne hne]⟩
  · next h => exact ⟨hlead, by rw [Function.update_of_ne h]; exact hr.2⟩

/-! ## One union -/

/-- The edges after `b` was merged into `a`: edges into `b` now go to `a`, edges out
of `b` now come from `a`, unless their label is structural and `a` has an edge with
that label already.  Loops at `b` are not moved. -/
def mergeEdge (structural : L → Prop) (edge : V → L → V → Prop) (a b : V) (u : V) (l : L) (w : V) :
    Prop :=
  u ≠ b ∧ w ≠ b ∧
    (edge u l w ∨ u = a ∧ edge b l w ∧ ¬ (structural l ∧ ∃ m, edge a l m) ∨ w = a ∧ edge u l b)

/-- The loops at `b` survive the merge of `b` into `a` in some form. -/
def LoopsKept (structural : L → Prop) (edge : V → L → V → Prop) (a b : V) : Prop :=
  ∀ l, edge b l b →
    (structural l ∧ ∃ m, edge a l m) ∨ edge a l a ∨ edge a l b ∨ edge b l a

/-- Vertices that are equal once all pending pairs are united. -/
def Joined (parent : V → Option V) (pending : List (V × V)) : V → V → Prop :=
  Relation.EqvGen fun x y ↦ (x, y) ∈ pending ∨ parent x = some y

/-- At most one edge with each structural label leaves each vertex. -/
def Functional (structural : L → Prop) (edge : V → L → V → Prop) : Prop :=
  ∀ u l w w', structural l → edge u l w → edge u l w' → w = w'

/-- `edge` is the quotient of `edge₀` under the replacement `ρ`, up to the pairs that
are still pending. -/
structure IsQuotient (structural : L → Prop) (edge₀ edge : V → L → V → Prop)
    (parent : V → Option V) (pending : List (V × V)) (ρ : V → V) : Prop where
  isRep : ∀ x, IsRep parent x (ρ x)
  live : ∀ u l w, edge u l w → parent u = none ∧ parent w = none
  present : ∀ x l y, edge₀ x l y →
    ∃ t, edge (ρ x) l t ∧ (t = ρ y ∨ structural l ∧ Joined parent pending t (ρ y))
  image : ∀ u l w, edge u l w → ∃ x y, edge₀ x l y ∧ ρ x = u ∧ ρ y = w
  functional : Functional structural edge₀ → Functional structural edge

variable {structural : L → Prop} {edge₀ edge : V → L → V → Prop} {pending pending' : List (V × V)}
  {ρ : V → V}

/-! ### Joined vertices -/

theorem Joined.of_leads (h : Leads parent x y) : Joined parent pending x y := by
  induction h with
  | refl => exact .refl _
  | tail _ hstep ih => exact ih.trans _ _ _ (.rel _ _ (Or.inr hstep))

theorem Joined.mono {parent' : V → Option V} (h : Joined parent pending x y)
    (hp : ∀ p ∈ pending, Joined parent' pending' p.1 p.2)
    (hr : ∀ x y, parent x = some y → parent' x = some y) : Joined parent' pending' x y := by
  induction h with
  | rel x y hxy =>
    rcases hxy with hxy | hxy
    · exact hp (x, y) hxy
    · exact .rel _ _ (Or.inr (hr x y hxy))
  | refl x => exact .refl x
  | symm x y _ ih => exact ih.symm
  | trans x y z _ _ ih₁ ih₂ => exact ih₁.trans _ _ _ ih₂

/-- When nothing is pending, joined vertices have been replaced by the same one. -/
theorem Joined.eq_of_nil (hρ : ∀ x, IsRep parent x (ρ x)) (h : Joined parent [] x y) :
    ρ x = ρ y := by
  induction h with
  | rel x y hxy =>
    rcases hxy with hxy | hxy
    · cases hxy
    · exact ((hρ x).of_leads (.single hxy)).unique (hρ y)
  | refl x => rfl
  | symm x y _ ih => exact ih.symm
  | trans x y z _ _ ih₁ ih₂ => exact ih₁.trans ih₂

theorem Joined.skip (hρ : ∀ x, IsRep parent x (ρ x)) (hxy : ρ x = ρ y)
    (h : Joined parent ((x, y) :: pending) z r) : Joined parent pending z r := by
  refine h.mono ?_ fun _ _ ↦ id
  rintro ⟨p, q⟩ hpq
  rcases List.mem_cons.mp hpq with heq | hpq
  · cases heq
    have hp : Joined parent pending x (ρ x) := .of_leads (hρ x).1
    have hq : Joined parent pending y (ρ y) := .of_leads (hρ y).1
    exact hp.trans _ _ _ (hxy ▸ hq.symm)
  · exact .rel _ _ (Or.inl hpq)

/-- The pair that is taken from the pending ones is joined through the new replacement. -/
theorem Joined.merge [DecidableEq V] (hρ : ∀ x, IsRep parent x (ρ x)) (hab : a ≠ b)
    (ha : parent a = none) (hb : parent b = none)
    (hxy : ρ x = a ∧ ρ y = b ∨ ρ x = b ∧ ρ y = a) (hsub : ∀ p ∈ pending, p ∈ pending')
    (h : Joined parent ((x, y) :: pending) z r) :
    Joined (Function.update parent b (some a)) pending' z r := by
  have hrep : ∀ z, Joined (Function.update parent b (some a)) pending' z
      (if ρ z = b then a else ρ z) := fun z ↦ .of_leads ((hρ z).update ha hb hab).1
  have hjxy : Joined (Function.update parent b (some a)) pending' x y := by
    have hx := hrep x
    have hy := hrep y
    rcases hxy with ⟨hxa, hyb⟩ | ⟨hxb, hya⟩
    · rw [if_neg (hxa ▸ hab), hxa] at hx
      rw [if_pos hyb] at hy
      exact hx.trans _ _ _ hy.symm
    · rw [if_pos hxb] at hx
      rw [if_neg (hya ▸ hab), hya] at hy
      exact hx.trans _ _ _ hy.symm
  refine h.mono ?_ fun u v huv ↦ ?_
  · intro p hp
    rcases List.mem_cons.mp hp with rfl | hp
    · exact hjxy
    · exact .rel _ _ (Or.inl (hsub _ hp))
  · rwa [Function.update_of_ne]
    rintro rfl
    rw [hb] at huv
    cases huv

theorem joined_update [DecidableEq V] :
    Joined (Function.update parent b (some a)) pending b a :=
  .rel _ _ (Or.inr (Function.update_self ..))

/-! ### The invariant -/

theorem isQuotient_refl : IsQuotient structural edge edge (fun _ ↦ none) pending id where
  isRep _ := isRep_self rfl
  live _ _ _ _ := ⟨rfl, rfl⟩
  present _ _ y h := ⟨y, h, Or.inl rfl⟩
  image u _ w h := ⟨u, w, h, rfl, rfl⟩
  functional := id

theorem IsQuotient.skip (h : IsQuotient structural edge₀ edge parent ((x, y) :: pending) ρ)
    (hxy : ρ x = ρ y) : IsQuotient structural edge₀ edge parent pending ρ where
  isRep := h.isRep
  live := h.live
  image := h.image
  functional := h.functional
  present u l w hedge := by
    obtain ⟨t, ht, hj⟩ := h.present u l w hedge
    exact ⟨t, ht, hj.imp_right fun ⟨hl, hj⟩ ↦ ⟨hl, hj.skip h.isRep hxy⟩⟩

/-- An edge out of `b` that is not dropped. -/
theorem exists_mergeEdge_of_source (hloops : LoopsKept structural edge a b) (hab : a ≠ b)
    {l : L} {t : V} (h : edge b l t) (hno : ¬ (structural l ∧ ∃ m, edge a l m)) :
    ∃ m, mergeEdge structural edge a b a l m ∧ (m = t ∨ m = a ∧ t = b) := by
  by_cases htb : t = b
  · subst htb
    refine ⟨a, ⟨hab, hab, ?_⟩, Or.inr ⟨rfl, rfl⟩⟩
    rcases hloops l h with hm | haa | hat | hta
    · exact absurd hm hno
    · exact Or.inl haa
    · exact Or.inr (Or.inr ⟨rfl, hat⟩)
    · exact Or.inr (Or.inl ⟨rfl, hta, hno⟩)
  · exact ⟨t, ⟨hab, htb, Or.inr (Or.inl ⟨rfl, h, hno⟩)⟩, Or.inl rfl⟩

theorem Functional.mergeEdge (h : Functional structural edge) :
    Functional structural (mergeEdge structural edge a b) := by
  rintro u l w w' hl ⟨hu, hw, hcase⟩ ⟨-, hw', hcase'⟩
  rcases hcase with he | ⟨rfl, he, hno⟩ | ⟨rfl, he⟩
  · rcases hcase' with he' | ⟨rfl, -, hno⟩ | ⟨rfl, he'⟩
    · exact h u l w w' hl he he'
    · exact absurd ⟨hl, w, he⟩ hno
    · exact absurd (h u l w b hl he he') hw
  · rcases hcase' with he' | ⟨-, he', -⟩ | ⟨rfl, he'⟩
    · exact absurd ⟨hl, w', he'⟩ hno
    · exact h b l w w' hl he he'
    · exact absurd ⟨hl, b, he'⟩ hno
  · rcases hcase' with he' | ⟨rfl, -, hno⟩ | ⟨rfl, -⟩
    · exact absurd (h u l w' b hl he' he) hw'
    · exact absurd ⟨hl, b, he⟩ hno
    · rfl

theorem exists_mergeEdge_of_target (hab : a ≠ b) {u t : V} {l : L} (hu : u ≠ b) (h : edge u l t) :
    ∃ m, mergeEdge structural edge a b u l m ∧ (m = t ∨ m = a ∧ t = b) := by
  by_cases htb : t = b
  · subst htb
    exact ⟨a, ⟨hu, hab, Or.inr (Or.inr ⟨rfl, h⟩)⟩, Or.inr ⟨rfl, rfl⟩⟩
  · exact ⟨t, ⟨hu, htb, Or.inl h⟩, Or.inl rfl⟩

theorem IsQuotient.present_of_nil (h : IsQuotient structural edge₀ edge parent [] ρ) {l : L}
    (h₀ : edge₀ x l y) : edge (ρ x) l (ρ y) := by
  obtain ⟨t, ht, rfl | ⟨-, hj⟩⟩ := h.present x l y h₀
  · exact ht
  · have hy : ρ t = ρ (ρ y) := hj.eq_of_nil h.isRep
    have ht' : ρ t = t := (h.isRep t).eq_of_root (h.live _ _ _ ht).2
    have hy' : ρ (ρ y) = ρ y := (h.isRep (ρ y)).eq_of_root (h.isRep y).2
    rwa [← hy', ← hy, ht']

variable [DecidableEq V]

/-- **One union.**  The pair `(x, y)` is replaced by `a` and `b`, one each; `b` is
merged into `a`, and the targets of the structural edges that are dropped become
pending. -/
theorem IsQuotient.merge (h : IsQuotient structural edge₀ edge parent ((x, y) :: pending) ρ)
    (hab : a ≠ b) (ha : parent a = none) (hb : parent b = none)
    (hxy : ρ x = a ∧ ρ y = b ∨ ρ x = b ∧ ρ y = a) (hloops : LoopsKept structural edge a b)
    (hsub : ∀ p ∈ pending, p ∈ pending')
    (hnew : ∀ l t, structural l → (∃ m, edge a l m) → edge b l t →
      ∃ m, edge a l m ∧ Joined (Function.update parent b (some a)) pending' m t) :
    IsQuotient structural edge₀ (mergeEdge structural edge a b)
      (Function.update parent b (some a)) pending' fun z ↦ if ρ z = b then a else ρ z := by
  set parent' := Function.update parent b (some a) with hparent'
  have hrep : ∀ z, IsRep parent' z (if ρ z = b then a else ρ z) :=
    fun z ↦ (h.isRep z).update ha hb hab
  have hjab : Joined parent' pending' a b := joined_update.symm
  have hjρ : ∀ z, Joined parent' pending' (ρ z) (if ρ z = b then a else ρ z) := fun z ↦ by
    split
    · next hz => exact hz ▸ hjab.symm
    · exact .refl _
  have hmono : ∀ {u v}, Joined parent ((x, y) :: pending) u v → Joined parent' pending' u v :=
    Joined.merge h.isRep hab ha hb hxy hsub
  refine ⟨hrep, ?_, ?_, ?_, fun hf ↦ (h.functional hf).mergeEdge⟩
  · rintro u l w ⟨hu, hw, hcase⟩
    rw [hparent', Function.update_of_ne hu, Function.update_of_ne hw]
    rcases hcase with he | ⟨rfl, he, -⟩ | ⟨rfl, he⟩
    · exact h.live u l w he
    · exact ⟨ha, (h.live _ _ _ he).2⟩
    · exact ⟨(h.live _ _ _ he).1, ha⟩
  · intro u l w h₀
    obtain ⟨t, ht, hj⟩ := h.present u l w h₀
    -- an edge to `m` stands for the edge to `t`, up to the new pairs
    have close : ∀ m, m ≠ b →
        (m = t ∨ m = a ∧ t = b ∨ structural l ∧ Joined parent' pending' m t) →
        m = (if ρ w = b then a else ρ w) ∨
          structural l ∧ Joined parent' pending' m (if ρ w = b then a else ρ w) := by
      intro m hmb hm
      rcases hj with rfl | ⟨hl, hj⟩
      · rcases hm with rfl | ⟨rfl, hwb⟩ | ⟨hl, hm⟩
        · exact Or.inl (if_neg hmb).symm
        · exact Or.inl (if_pos hwb).symm
        · exact Or.inr ⟨hl, hm.trans _ _ _ (hjρ w)⟩
      · refine Or.inr ⟨hl, Relation.EqvGen.trans _ t _ ?_ ((hmono hj).trans _ _ _ (hjρ w))⟩
        rcases hm with rfl | ⟨rfl, rfl⟩ | ⟨-, hm⟩
        · exact .refl _
        · exact hjab
        · exact hm
    by_cases hu : ρ u = b
    · rw [if_pos hu]
      rw [hu] at ht
      by_cases hmatch : structural l ∧ ∃ m, edge a l m
      · obtain ⟨m', hm', hj'⟩ := hnew l t hmatch.1 hmatch.2 ht
        obtain ⟨m, hm, hcase⟩ :=
          @exists_mergeEdge_of_target _ _ a b structural edge hab a m' l hab hm'
        refine ⟨m, hm, close m hm.2.1 (Or.inr (Or.inr ⟨hmatch.1, ?_⟩))⟩
        rcases hcase with rfl | ⟨rfl, rfl⟩
        · exact hj'
        · exact hjab.trans _ _ _ hj'
      · obtain ⟨m, hm, hcase⟩ := exists_mergeEdge_of_source hloops hab ht hmatch
        exact ⟨m, hm, close m hm.2.1 (hcase.imp_right Or.inl)⟩
    · rw [if_neg hu]
      obtain ⟨m, hm, hcase⟩ := exists_mergeEdge_of_target hab hu ht
      exact ⟨m, hm, close m hm.2.1 (hcase.imp_right Or.inl)⟩
  · rintro u l w ⟨hu, hw, hcase⟩
    rcases hcase with he | ⟨rfl, he, -⟩ | ⟨rfl, he⟩
    · obtain ⟨x', y', h₀, rfl, rfl⟩ := h.image u l w he
      exact ⟨x', y', h₀, if_neg hu, if_neg hw⟩
    · obtain ⟨x', y', h₀, hx', rfl⟩ := h.image _ l w he
      exact ⟨x', y', h₀, if_pos hx', if_neg hw⟩
    · obtain ⟨x', y', h₀, rfl, hy'⟩ := h.image u l _ he
      exact ⟨x', y', h₀, if_neg hu, if_pos hy'⟩

end Cali.Lib
