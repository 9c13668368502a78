import Mathlib.Data.Finset.Max
import Mathlib.Logic.Function.Basic

/-!
# Ordered maps and their positions

A finite map with ordered keys, and the positions of its entries: a position is the key of an
entry, or `⊤` for the position behind the last one.  Positions do not move when other entries
come and go.
-/

namespace Cali.Lib

universe u v

/-- A finite map; the value of a key that is not there has no meaning. -/
structure OrderedMap (K : Type u) (V : Type v) where
  keys : Finset K
  value : K → V

namespace OrderedMap

variable {K : Type u} {V : Type v} [LinearOrder K]

/-- The position of the first entry. -/
def first (m : OrderedMap K V) : WithTop K := m.keys.min

/-- The position of the first entry with a greater key. -/
def upperBound (m : OrderedMap K V) (k : K) : WithTop K := (m.keys.filter (k < ·)).min

/-- The position of the first entry whose key is not less. -/
def lowerBound (m : OrderedMap K V) (k : K) : WithTop K := (m.keys.filter (k ≤ ·)).min

/-- The position in front of a position. -/
def prev (m : OrderedMap K V) (p : WithTop K) : WithBot K :=
  (m.keys.filter fun k : K ↦ (k : WithTop K) < p).max

/-- Insert an entry, unless there is one with the key. -/
def insert (m : OrderedMap K V) (k : K) (v : V) : OrderedMap K V :=
  if k ∈ m.keys then m else ⟨Insert.insert k m.keys, Function.update m.value k v⟩

/-- Assign to the value of an entry. -/
def set (m : OrderedMap K V) (k : K) (v : V) : OrderedMap K V :=
  { m with value := Function.update m.value k v }

def erase (m : OrderedMap K V) (k : K) : OrderedMap K V := { m with keys := m.keys.erase k }

/-- Erase the entries from one position up to another one. -/
def eraseRange (m : OrderedMap K V) (p q : WithTop K) : OrderedMap K V :=
  { m with keys := m.keys.filter fun k ↦ ¬ (p ≤ (k : WithTop K) ∧ (k : WithTop K) < q) }

variable {m : OrderedMap K V} {k x : K}

theorem upperBound_eq_coe_iff :
    m.upperBound k = (x : WithTop K) ↔
      x ∈ m.keys ∧ k < x ∧ ∀ y ∈ m.keys, k < y → x ≤ y := by
  unfold upperBound
  constructor
  · intro h
    obtain ⟨hx, hlt⟩ := Finset.mem_filter.mp (Finset.mem_of_min h)
    exact ⟨hx, hlt, fun y hy hky ↦ Finset.min_le_of_eq (Finset.mem_filter.mpr ⟨hy, hky⟩) h⟩
  · rintro ⟨hx, hlt, hle⟩
    refine le_antisymm (Finset.min_le (Finset.mem_filter.mpr ⟨hx, hlt⟩)) ?_
    refine Finset.le_min fun y hy ↦ WithTop.coe_le_coe.mpr ?_
    obtain ⟨hy, hky⟩ := Finset.mem_filter.mp hy
    exact hle y hy hky

theorem upperBound_eq_top_iff : m.upperBound k = ⊤ ↔ ∀ y ∈ m.keys, y ≤ k := by
  unfold upperBound
  rw [Finset.min_eq_top, Finset.filter_eq_empty_iff]
  exact forall₂_congr fun y _ ↦ not_lt

theorem eq_of_upperBound_eq {k' : K} (hk : k ∈ m.keys) (hk' : k' ∈ m.keys)
    (h : m.upperBound k = (x : WithTop K)) (h' : m.upperBound k' = (x : WithTop K)) : k = k' := by
  obtain ⟨-, hlt, hle⟩ := upperBound_eq_coe_iff.mp h
  obtain ⟨-, hlt', hle'⟩ := upperBound_eq_coe_iff.mp h'
  rcases lt_trichotomy k k' with hless | heq | hless
  · exact absurd (hle k' hk' hless) (not_le.mpr hlt')
  · exact heq
  · exact absurd (hle' k hk hless) (not_le.mpr hlt)

theorem lowerBound_le_coe (hx : x ∈ m.keys) : m.lowerBound k ≤ (x : WithTop K) ↔ k ≤ x := by
  unfold lowerBound
  constructor
  · intro h
    obtain ⟨y, hy⟩ := WithTop.ne_top_iff_exists.mp (ne_top_of_le_ne_top WithTop.coe_ne_top h)
    have hmem := Finset.mem_of_min hy.symm
    rw [← hy] at h
    exact (Finset.mem_filter.mp hmem).2.trans (WithTop.coe_le_coe.mp h)
  · intro h
    exact Finset.min_le (Finset.mem_filter.mpr ⟨hx, h⟩)

theorem mem_keys_eraseRange {k' : K} :
    x ∈ (m.eraseRange (m.lowerBound k) (k' : WithTop K)).keys ↔
      x ∈ m.keys ∧ ¬ (k ≤ x ∧ x < k') := by
  unfold eraseRange
  rw [Finset.mem_filter]
  refine and_congr_right fun hx ↦ ?_
  rw [lowerBound_le_coe hx, WithTop.coe_lt_coe]

theorem mem_keys_insert {v : V} : x ∈ (m.insert k v).keys ↔ x = k ∨ x ∈ m.keys := by
  unfold insert
  split
  next hk => exact (or_iff_right_of_imp fun h ↦ h.symm ▸ hk).symm
  next => exact Finset.mem_insert

theorem value_insert_of_mem {v : V} (hx : x ∈ m.keys) : (m.insert k v).value x = m.value x := by
  unfold insert
  split
  next => rfl
  next hk =>
    have hne : x ≠ k := fun h ↦ hk (h ▸ hx)
    exact Function.update_of_ne hne v m.value

theorem value_insert_self {v : V} (hk : k ∉ m.keys) : (m.insert k v).value k = v := by
  unfold insert
  rw [if_neg hk]
  exact Function.update_self k v m.value

theorem value_set {v : V} : (m.set k v).value x = if x = k then v else m.value x :=
  Function.update_apply m.value k v x

theorem insert_of_mem {v : V} (hk : k ∈ m.keys) : m.insert k v = m := if_pos hk

/-! ## The entry at a key or before it -/

/-- The greatest key that is not above `k`. -/
def floor (m : OrderedMap K V) (k : K) : WithBot K := (m.keys.filter (· ≤ k)).max

theorem floor_eq_coe_iff :
    m.floor k = (x : WithBot K) ↔ x ∈ m.keys ∧ x ≤ k ∧ ∀ y ∈ m.keys, y ≤ k → y ≤ x := by
  unfold floor
  constructor
  · intro h
    obtain ⟨hx, hle⟩ := Finset.mem_filter.mp (Finset.mem_of_max h)
    exact ⟨hx, hle, fun y hy hyk ↦ Finset.le_max_of_eq (Finset.mem_filter.mpr ⟨hy, hyk⟩) h⟩
  · rintro ⟨hx, hle, hmax⟩
    refine le_antisymm ?_ (Finset.le_max (Finset.mem_filter.mpr ⟨hx, hle⟩))
    refine Finset.max_le fun y hy ↦ WithBot.coe_le_coe.mpr ?_
    obtain ⟨hy, hyk⟩ := Finset.mem_filter.mp hy
    exact hmax y hy hyk

theorem floor_eq_bot_iff : m.floor k = ⊥ ↔ ∀ y ∈ m.keys, k < y := by
  unfold floor
  rw [Finset.max_eq_bot, Finset.filter_eq_empty_iff]
  exact forall₂_congr fun y _ ↦ not_le

theorem prev_upperBound : m.prev (m.upperBound k) = m.floor k := by
  unfold prev floor
  congr 1
  refine Finset.filter_congr fun y hy ↦ ?_
  cases h : m.upperBound k with
  | top => exact iff_of_true (WithTop.coe_lt_top y) (upperBound_eq_top_iff.mp h y hy)
  | coe x =>
    obtain ⟨-, hlt, hle⟩ := upperBound_eq_coe_iff.mp h
    rw [WithTop.coe_lt_coe]
    constructor
    · intro hyx
      exact not_lt.mp fun hky ↦ not_le.mpr hyx (hle y hy hky)
    · intro hyk
      exact lt_of_le_of_lt hyk hlt

theorem upperBound_eq_first_iff : m.upperBound k = m.first ↔ m.floor k = ⊥ := by
  rw [floor_eq_bot_iff]
  constructor
  · intro h y hy
    rw [← not_le]
    intro hyk
    have hle : m.upperBound k ≤ (y : WithTop K) := h ▸ Finset.min_le hy
    obtain ⟨x, hx⟩ := WithTop.ne_top_iff_exists.mp (ne_top_of_le_ne_top WithTop.coe_ne_top hle)
    obtain ⟨-, hlt, -⟩ := upperBound_eq_coe_iff.mp hx.symm
    rw [← hx, WithTop.coe_le_coe] at hle
    exact not_lt.mpr (hle.trans hyk) hlt
  · intro h
    unfold upperBound first
    rw [Finset.filter_true_of_mem h]

end OrderedMap

end Cali.Lib
