import Mathlib.Data.Fintype.Card
import Mathlib.Data.Set.Finite.Basic
import Mathlib.Logic.Relation
import Mathlib.Order.Bounds.Defs

/-!
# What a graph search finds

A search starts from sources and follows `next` from the vertices it expands; it also
sees vertices that it does not expand.  A traversal that visits a vertex after its successors
finds the vertices from which no cycle can be reached.
-/

namespace Cali.Lib

open Relation

universe u

variable {V : Type u} {source expand : V → Prop} {next : V → V → Prop}

/-- The vertices a search sees: the sources, and what is next to a vertex that it sees
and expands. -/
inductive Discovered (source expand : V → Prop) (next : V → V → Prop) : V → Prop
  | source {v : V} (h : source v) : Discovered source expand next v
  | step {u v : V} (hu : Discovered source expand next u) (he : expand u) (h : next u v) :
      Discovered source expand next v

/-- A set that holds the sources and is closed holds everything the search sees. -/
theorem Discovered.mem_of_closed {C : Set V} {v : V} (h : Discovered source expand next v)
    (hsource : ∀ v, source v → v ∈ C) (hclosed : ∀ u v, u ∈ C → expand u → next u v → v ∈ C) :
    v ∈ C := by
  induction h with
  | source h => exact hsource _ h
  | step _ he h ih => exact hclosed _ _ ih he h

theorem Discovered.isLeast :
    IsLeast {C : Set V | (∀ v, source v → v ∈ C) ∧ ∀ u v, u ∈ C → expand u → next u v → v ∈ C}
      {v | Discovered source expand next v} :=
  ⟨⟨fun _ ↦ .source, fun _ _ ↦ Discovered.step⟩, fun _ hC _ hv ↦ hv.mem_of_closed hC.1 hC.2⟩

/-- Two searches see the same if they make the same choices at what the first one
sees. -/
theorem Discovered.congr {source' expand' : V → Prop} {next' : V → V → Prop}
    (hsource : ∀ v, source v ↔ source' v)
    (hexpand : ∀ v, Discovered source expand next v → (expand v ↔ expand' v))
    (hnext : ∀ u v, next u v ↔ next' u v) {v : V} :
    Discovered source expand next v ↔ Discovered source' expand' next' v := by
  constructor
  · intro h
    induction h with
    | source h => exact .source ((hsource _).mp h)
    | step hu he h ih => exact .step ih ((hexpand _ hu).mp he) ((hnext _ _).mp h)
  · intro h
    induction h with
    | source h => exact .source ((hsource _).mpr h)
    | step _ he h ih => exact .step ih ((hexpand _ ih).mpr he) ((hnext _ _).mpr h)

/-- A search sees what there is a path to on which every vertex before the last is
expanded. -/
theorem discovered_iff {v : V} :
    Discovered source expand next v ↔
      ∃ s, source s ∧ ReflTransGen (fun u w ↦ expand u ∧ next u w) s v := by
  constructor
  · intro h
    induction h with
    | source h => exact ⟨_, h, .refl⟩
    | step _ he h ih =>
      obtain ⟨s, hs, hpath⟩ := ih
      exact ⟨s, hs, hpath.tail ⟨he, h⟩⟩
  · rintro ⟨s, hs, hpath⟩
    induction hpath with
    | refl => exact .source hs
    | tail _ h ih => exact .step ih h.1 h.2

/-- Along a path between two vertices of `P`, a condition on the vertices before the last is
one on the vertices after the first. -/
theorem reflTransGen_and_iff {P : V → Prop} {a b : V} (ha : P a) (hb : P b) :
    ReflTransGen (fun u w ↦ P u ∧ next u w) a b ↔ ReflTransGen (fun u w ↦ next u w ∧ P w) a b := by
  constructor
  · intro h
    induction h with
    | refl => exact .refl
    | tail _ h ih => exact (ih h.1).tail ⟨h.2, hb⟩
  · intro h
    have hall : ReflTransGen (fun u w ↦ P u ∧ next u w) a b ∧ P b := by
      clear hb
      induction h with
      | refl => exact ⟨.refl, ha⟩
      | tail _ h ih => exact ⟨ih.1.tail ⟨ih.2, h.1⟩, h.2⟩
    exact hall.1

/-! ## Vertices that reach no cycle -/

variable {edge : V → V → Prop}

/-- Where every vertex has one predecessor, a cycle that can be reached goes through the vertex
that it is reached from. -/
theorem transGen_root_of_leftUnique {root v : V} (hunique : Relator.LeftUnique edge)
    (hreach : ReflTransGen edge root v) (hcycle : TransGen edge v v) :
    TransGen edge root root := by
  induction hreach with
  | refl => exact hcycle
  | tail _ hstep ih =>
    obtain ⟨u, hback, hlast⟩ := TransGen.tail'_iff.mp hcycle
    obtain rfl := hunique hlast hstep
    exact ih (TransGen.head' hlast hback)

theorem acc_of_no_cycle {u : V} (hfin : {w | ReflTransGen edge u w}.Finite)
    (h : ∀ w, ReflTransGen edge u w → ¬ TransGen edge w w) : Acc (fun w v ↦ edge v w) u := by
  have hfinite : Finite {w // ReflTransGen edge u w} := hfin
  let below : {w // ReflTransGen edge u w} → {w // ReflTransGen edge u w} → Prop :=
    fun w v ↦ TransGen edge v.1 w.1
  have htrans : IsTrans _ below := ⟨fun _ _ _ h₁ h₂ ↦ h₂.trans h₁⟩
  have hirrefl : Std.Irrefl below := ⟨fun w hw ↦ h w.1 w.2 hw⟩
  have hwf : WellFounded below := Finite.wellFounded_of_trans_of_irrefl below
  have hacc : ∀ w : {w // ReflTransGen edge u w}, Acc (fun w v ↦ edge v w) w.1 := by
    intro w
    induction w using hwf.induction with
    | _ w ih => exact .intro _ fun x hx ↦ ih ⟨x, w.2.tail hx⟩ (.single hx)
  exact hacc ⟨u, .refl⟩

/-- A set that is closed under having all successors in it holds what reaches no cycle. -/
theorem mem_of_no_cycle {C : Set V} {u : V} (hfin : {w | ReflTransGen edge u w}.Finite)
    (h : ∀ w, ReflTransGen edge u w → ¬ TransGen edge w w)
    (hclosed : ∀ v, ReflTransGen edge u v → (∀ w, edge v w → w ∈ C) → v ∈ C) : u ∈ C := by
  have hall : ∀ v, Acc (fun w v ↦ edge v w) v → ReflTransGen edge u v → v ∈ C := by
    intro v hv
    induction hv with
    | intro v _ ih => exact fun huv ↦ hclosed v huv fun w hw ↦ ih w hw (huv.tail hw)
  exact hall u (acc_of_no_cycle hfin h) .refl

/-- A ranking that decreases along the edges of a closed set excludes cycles. -/
theorem no_cycle_of_rank {C : Set V} (rank : V → ℕ) (hclosed : ∀ v w, v ∈ C → edge v w → w ∈ C)
    (hrank : ∀ v w, v ∈ C → edge v w → rank w < rank v) {u w : V} (hu : u ∈ C)
    (huw : ReflTransGen edge u w) : ¬ TransGen edge w w := by
  have hw : w ∈ C := by
    induction huw with
    | refl => exact hu
    | tail _ h ih => exact hclosed _ _ ih h
  have hlt : ∀ x, TransGen edge w x → x ∈ C ∧ rank x < rank w := by
    intro x hx
    induction hx with
    | single h => exact ⟨hclosed _ _ hw h, hrank _ _ hw h⟩
    | tail _ h ih => exact ⟨hclosed _ _ ih.1 h, (hrank _ _ ih.1 h).trans ih.2⟩
  exact fun hcycle ↦ Nat.lt_irrefl _ (hlt w hcycle).2

end Cali.Lib
