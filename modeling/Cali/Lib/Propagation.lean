import Mathlib.Data.Set.Basic

/-!
# Marks that follow a flow

If something flows to a node whose value is marked, its own value gets marked, possibly together
with what is below it.  The rule is applied once for each pair of nodes, one pair after the other.
A mark that is set late can be missed: it is set below the value of a node that is marked late,
and the pairs of the nodes that flow to it are over.  No order of the pairs misses a mark exactly
if the marks that are there from the beginning leave nothing to be marked in a second turn.
-/

namespace Cali.Lib

universe u

variable {V : Type u} {value : V → Option V} {spread : V → Set V} {M M₀ S : Set V}
  {pair : V × V} {pairs : List (V × V)} {v x y : V}

/-- The rule for one pair: the values in `spread x` are marked with the value `x`. -/
def markPair (value : V → Option V) (spread : V → Set V) (M : Set V) (pair : V × V) : Set V :=
  M ∪ {v | ∃ x y, value pair.1 = some x ∧ value pair.2 = some y ∧ y ∈ M ∧ v ∈ spread x}

theorem markPair_eq_self (h : ∀ x y, value pair.1 = some x → value pair.2 = some y → y ∈ M →
    spread x = ∅) : markPair value spread M pair = M := by
  refine Set.union_eq_left.mpr ?_
  rintro v ⟨x, y, hx, hy, hyM, hv⟩
  rw [h x y hx hy hyM] at hv
  exact hv.elim

theorem markPair_eq_union (hx : value pair.1 = some x) (hy : value pair.2 = some y) (hyM : y ∈ M) :
    markPair value spread M pair = M ∪ spread x := by
  unfold markPair
  congr 1
  ext v
  constructor
  · rintro ⟨x', y', hx', -, -, hv⟩
    obtain rfl : x = x' := Option.some.inj (hx.symm.trans hx')
    exact hv
  · exact fun hv ↦ ⟨x, y, hx, hy, hyM, hv⟩

theorem subset_rounds (pairs : List (V × V)) : M ⊆ pairs.foldl (markPair value spread) M := by
  induction pairs generalizing M with
  | nil => exact subset_rfl
  | cons pair pairs ih => exact Set.subset_union_left.trans ih

/-- The rule is applied for each pair, so marks that are there from the beginning are not
missed. -/
theorem spread_subset_rounds (hpair : pair ∈ pairs) (hx : value pair.1 = some x)
    (hy : value pair.2 = some y) (hmark : y ∈ M) :
    spread x ⊆ pairs.foldl (markPair value spread) M := by
  induction pairs generalizing M with
  | nil => exact absurd hpair List.not_mem_nil
  | cons first pairs ih =>
    rcases List.mem_cons.mp hpair with rfl | hpair
    · have hround : spread x ⊆ markPair value spread M pair :=
        fun v hv ↦ Or.inr ⟨x, y, hx, hy, hmark, hv⟩
      exact hround.trans (subset_rounds pairs)
    · exact ih hpair (Or.inl hmark)

theorem rounds_subset (hM : M ⊆ S) (h : ∀ pair ∈ pairs, ∀ x y, value pair.1 = some x →
      value pair.2 = some y → y ∈ S → spread x ⊆ S) :
    pairs.foldl (markPair value spread) M ⊆ S := by
  induction pairs generalizing M with
  | nil => exact hM
  | cons pair pairs ih =>
    obtain ⟨hpair, hrest⟩ := List.forall_mem_cons.mp h
    refine ih (Set.union_subset hM fun v hv ↦ ?_) hrest
    obtain ⟨x, y, hx, hy, hmark, hv⟩ := hv
    exact hpair x y hx hy (hM hmark) hv

section Once

variable {flows : V → V → Prop}

/-- What is marked in one turn. -/
def markedOnce (value : V → Option V) (spread : V → Set V) (flows : V → V → Prop) (M₀ : Set V) :
    Set V :=
  M₀ ∪ {v | ∃ a b x y, flows a b ∧ value a = some x ∧ value b = some y ∧ y ∈ M₀ ∧ v ∈ spread x}

/-- The marks are closed under the rule. -/
def ClosedMarks (value : V → Option V) (flows : V → V → Prop) (M : Set V) : Prop :=
  ∀ a b x y, flows a b → value a = some x → value b = some y → y ∈ M → x ∈ M

theorem markedOnce_subset_rounds (hpairs : ∀ a b, flows a b → (a, b) ∈ pairs) :
    markedOnce value spread flows M₀ ⊆ pairs.foldl (markPair value spread) M₀ := by
  rintro v (hv | ⟨a, b, x, y, hflow, hx, hy, hmark, hv⟩)
  · exact subset_rounds pairs hv
  · exact spread_subset_rounds (hpairs a b hflow) hx hy hmark hv

/-- **If one turn is enough**, every order of the pairs marks the same. -/
theorem rounds_eq_markedOnce (hold : ∀ x ∈ M₀, spread x = ∅)
    (hsub : ∀ x, ∀ w ∈ spread x, spread w ⊆ spread x)
    (hclosed : ClosedMarks value flows (markedOnce value spread flows M₀))
    (hpairs : ∀ a b, (a, b) ∈ pairs ↔ flows a b) :
    pairs.foldl (markPair value spread) M₀ = markedOnce value spread flows M₀ := by
  refine Set.Subset.antisymm (rounds_subset Set.subset_union_left ?_)
    (markedOnce_subset_rounds fun a b hflow ↦ (hpairs a b).mpr hflow)
  intro pair hpair x y hx hy hmark
  rcases hclosed _ _ x y ((hpairs _ _).mp hpair) hx hy hmark with
    hx₀ | ⟨a, b, x', y', hflow, hx', hy', hmark', hspread⟩
  · rw [hold x hx₀]
    exact Set.empty_subset _
  · exact fun v hv ↦ Or.inr ⟨a, b, x', y', hflow, hx', hy', hmark', hsub x' x hspread hv⟩

/-- **One turn**: the pairs of the nodes that flow to a value that is marked from the beginning come
last. -/
theorem rounds_append_eq_markedOnce {pairs' : List (V × V)}
    (hpairs : ∀ a b, (a, b) ∈ pairs ++ pairs' ↔ flows a b)
    (hfirst : ∀ pair ∈ pairs, ∀ b y, flows pair.1 b → value b = some y → y ∉ M₀)
    (hlast : ∀ pair ∈ pairs', ∃ b y, flows pair.1 b ∧ value b = some y ∧ y ∈ M₀) :
    (pairs ++ pairs').foldl (markPair value spread) M₀ = markedOnce value spread flows M₀ := by
  refine Set.Subset.antisymm ?_ (markedOnce_subset_rounds fun a b hflow ↦ (hpairs a b).mpr hflow)
  rw [List.foldl_append]
  refine rounds_subset ((rounds_subset (subset_refl M₀) fun pair hpair x y _ hy hmark ↦ ?_).trans
    Set.subset_union_left) fun pair hpair x y hx _ _ v hv ↦ ?_
  · have hflow := (hpairs pair.1 pair.2).mp (List.mem_append_left pairs' hpair)
    exact absurd hmark (hfirst pair hpair _ y hflow hy)
  · obtain ⟨b, y', hflow, hy', hmark'⟩ := hlast pair hpair
    exact Or.inr ⟨pair.1, b, x, y', hflow, hx, hy', hmark', hv⟩

end Once

end Cali.Lib
