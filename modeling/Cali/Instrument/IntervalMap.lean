import Mathlib.Data.Set.Insert
import Cali.Lib.OrderedMap

/-!
# `IntervalMap`

`libipc/instrument/IntervalTree.h` stores half-open intervals with values as the points at which
they begin and end: a point with a value begins an interval, which ends at the next point, and a
point without a value begins a gap.  The intervals that a map stores are its `pieces`.  Inserting
an interval that meets none of them adds it to the set, and removing one takes it out of the set,
whatever its neighbours are.
-/

namespace Cali.Instrument

open Cali.Lib

universe u v

/-- An interval `[lower, upper)` with a value. -/
@[ext]
structure Interval (K : Type u) (T : Type v) where
  lower : K
  upper : K
  value : T

/-- `IntervalMap`; the values of the points are of type `std::optional<T>`. -/
structure IntervalMap (K : Type u) (T : Type v) where
  map : OrderedMap K (Option T)

variable {K : Type u} {T : Type v} [LinearOrder K]

def Interval.Contains (a : Interval K T) (key : K) : Prop := a.lower ≤ key ∧ key < a.upper

/-- The two intervals have no point in common. -/
def Interval.Apart (a b : Interval K T) : Prop := a.upper ≤ b.lower ∨ b.upper ≤ a.lower

namespace IntervalMap

def empty : IntervalMap K T := ⟨⟨∅, fun _ ↦ none⟩⟩

/-- `operator[]` -/
def get (m : IntervalMap K T) (key : K) : Option T :=
  let ub := m.map.upperBound key
  if ub = m.map.first then none
  else match m.map.prev ub with
    | ⊥ => none
    | (k : K) => m.map.value k

/-- `interval_start`; `⊤` is `end()`. -/
def intervalStart (m : IntervalMap K T) (key : K) : WithTop K :=
  let ub := m.map.upperBound key
  if ub = m.map.first ∨ ub = ⊤ then ⊤
  else match m.map.prev ub with
    | ⊥ => ⊤
    | (k : K) => if (m.map.value k).isNone then ⊤ else k

/-- `insert_upper_bound`; the position that it returns is the one of `upper`. -/
def insertUpperBound (m : IntervalMap K T) (upper : K) : IntervalMap K T :=
  let last := m.map.upperBound upper
  if last = m.map.first then ⟨m.map.insert upper none⟩
  else match m.map.prev last with
    | ⊥ => m
    | (k : K) => ⟨m.map.insert upper (m.map.value k)⟩

/-- `insert` -/
def insert (m : IntervalMap K T) (lower upper : K) (value : T) : IntervalMap K T :=
  if lower < upper then
    let map := (m.insertUpperBound upper).map
    let map := map.eraseRange (map.lowerBound lower) upper
    ⟨map.insert lower (some value)⟩
  else m

/-- `remove(lower_key)` -/
def remove (m : IntervalMap K T) (lowerKey : K) : IntervalMap K T :=
  if lowerKey ∈ m.map.keys then
    let map := m.map.set lowerKey none
    match map.upperBound lowerKey with
    | ⊤ => ⟨map⟩
    | (k : K) => if (map.value k).isNone then ⟨map.erase k⟩ else ⟨map⟩
  else m

/-! ## The intervals of a map -/

/-- The intervals that the points stand for. -/
def pieces (m : IntervalMap K T) : Set (Interval K T) :=
  {a | a.lower ∈ m.map.keys ∧ m.map.value a.lower = some a.value ∧
    m.map.upperBound a.lower = (a.upper : WithTop K)}

/-- Every point with a value has a next point. -/
def Closed (m : IntervalMap K T) : Prop :=
  ∀ k ∈ m.map.keys, ∀ value, m.map.value k = some value → ∃ a ∈ m.pieces, a.lower = k

variable {m : IntervalMap K T} {a b : Interval K T} {key lower upper : K} {value : T}

theorem lower_lt_upper (ha : a ∈ m.pieces) : a.lower < a.upper :=
  (OrderedMap.upperBound_eq_coe_iff.mp ha.2.2).2.1

theorem eq_of_lower_eq (ha : a ∈ m.pieces) (hb : b ∈ m.pieces) (h : a.lower = b.lower) :
    a = b := by
  have hupper := ha.2.2
  have hvalue := ha.2.1
  rw [h, hb.2.2, WithTop.coe_inj] at hupper
  rw [h, hb.2.1, Option.some.injEq] at hvalue
  exact Interval.ext h hupper.symm hvalue.symm

theorem floor_of_contains (ha : a ∈ m.pieces) (hkey : a.Contains key) :
    m.map.floor key = (a.lower : WithBot K) := by
  obtain ⟨-, -, hle⟩ := OrderedMap.upperBound_eq_coe_iff.mp ha.2.2
  refine OrderedMap.floor_eq_coe_iff.mpr ⟨ha.1, hkey.1, fun y hy hyk ↦ not_lt.mp fun hlt ↦ ?_⟩
  exact not_le.mpr hkey.2 ((hle y hy hlt).trans hyk)

theorem eq_of_contains (ha : a ∈ m.pieces) (hb : b ∈ m.pieces) (hakey : a.Contains key)
    (hbkey : b.Contains key) : a = b := by
  refine eq_of_lower_eq ha hb (WithBot.coe_inj.mp ?_)
  rw [← floor_of_contains ha hakey, floor_of_contains hb hbkey]

/-- The point before a key begins an interval around the key if it has a value. -/
theorem Closed.exists_contains (hm : m.Closed) {k : K} (hk : m.map.floor key = (k : WithBot K))
    (hvalue : m.map.value k = some value) :
    ∃ a ∈ m.pieces, a.lower = k ∧ a.value = value ∧ a.Contains key := by
  obtain ⟨hmem, hle, hmax⟩ := OrderedMap.floor_eq_coe_iff.mp hk
  obtain ⟨a, ha, rfl⟩ := hm k hmem value hvalue
  obtain ⟨hupper, hlt, -⟩ := OrderedMap.upperBound_eq_coe_iff.mp ha.2.2
  refine ⟨a, ha, rfl, Option.some.inj (ha.2.1.symm.trans hvalue), hle, not_le.mp fun h ↦ ?_⟩
  exact not_le.mpr hlt (hmax a.upper hupper h)

/-! ## Looking up -/

theorem get_eq : m.get key = match m.map.floor key with
    | ⊥ => none
    | (k : K) => m.map.value k := by
  unfold get
  simp only [OrderedMap.upperBound_eq_first_iff, OrderedMap.prev_upperBound]
  split
  next h => rw [h]
  next => rfl

theorem Closed.exists_of_get (hm : m.Closed) (h : m.get key = some value) :
    ∃ a ∈ m.pieces, a.Contains key := by
  rw [get_eq] at h
  cases hfloor : m.map.floor key with
  | bot =>
    rw [hfloor] at h
    cases h
  | coe k =>
    rw [hfloor] at h
    obtain ⟨a, ha, -, -, hkey⟩ := hm.exists_contains hfloor h
    exact ⟨a, ha, hkey⟩

theorem intervalStart_eq {k : K} (hk : m.map.floor key = (k : WithBot K)) :
    m.intervalStart key =
      if m.map.upperBound key = ⊤ then ⊤ else
        if (m.map.value k).isNone then ⊤ else (k : WithTop K) := by
  unfold intervalStart
  simp only [OrderedMap.upperBound_eq_first_iff, OrderedMap.prev_upperBound, hk,
    WithBot.coe_ne_bot, false_or]

/-- **Looking up a key** that is in an interval. -/
theorem intervalStart_of_contains (ha : a ∈ m.pieces) (hkey : a.Contains key) :
    m.intervalStart key = (a.lower : WithTop K) := by
  obtain ⟨hupper, -, -⟩ := OrderedMap.upperBound_eq_coe_iff.mp ha.2.2
  have hbound : m.map.upperBound key ≠ ⊤ := fun h ↦
    not_le.mpr hkey.2 (OrderedMap.upperBound_eq_top_iff.mp h a.upper hupper)
  rw [intervalStart_eq (floor_of_contains ha hkey), if_neg hbound, ha.2.1]
  rfl

/-- **Looking up a key** that is in no interval. -/
theorem Closed.intervalStart_eq_top (hm : m.Closed) (hnone : ∀ a ∈ m.pieces, ¬ a.Contains key) :
    m.intervalStart key = ⊤ := by
  cases hfloor : m.map.floor key with
  | bot => exact if_pos (Or.inl (OrderedMap.upperBound_eq_first_iff.mpr hfloor))
  | coe k =>
    have hvalue : m.map.value k = none := by
      by_contra hvalue
      obtain ⟨value, hvalue⟩ := Option.ne_none_iff_exists'.mp hvalue
      obtain ⟨a, ha, -, -, hkey⟩ := hm.exists_contains hfloor hvalue
      exact hnone a ha hkey
    rw [intervalStart_eq hfloor, hvalue]
    exact ite_self ⊤

/-! ## Inserting -/

section Insert

variable (hm : m.Closed) (hlt : lower < upper)
  (hapart : ∀ a ∈ m.pieces, a.Apart ⟨lower, upper, value⟩)

include hm hlt hapart

/-- The new end has no value, unless it is the beginning of an interval already. -/
theorem insertUpperBound_eq : m.insertUpperBound upper = ⟨m.map.insert upper none⟩ := by
  unfold insertUpperBound
  simp only [OrderedMap.upperBound_eq_first_iff, OrderedMap.prev_upperBound]
  cases hfloor : m.map.floor upper with
  | bot => exact if_pos rfl
  | coe k =>
    rw [if_neg WithBot.coe_ne_bot]
    by_cases hupper : upper ∈ m.map.keys
    · simp only [OrderedMap.insert_of_mem hupper]
    · -- an interval around the new end would have the point before it in common
      have hvalue : m.map.value k = none := by
        by_contra hvalue
        obtain ⟨value, hvalue⟩ := Option.ne_none_iff_exists'.mp hvalue
        obtain ⟨a, ha, rfl, -, hle, hgt⟩ := hm.exists_contains hfloor hvalue
        have hne : a.lower ≠ upper := fun h ↦ hupper (h ▸ ha.1)
        rcases hapart a ha with h | h
        · exact not_le.mpr hgt (h.trans hlt.le)
        · exact hne (le_antisymm hle h)
      simp only [hvalue]

theorem insert_eq : (m.insert lower upper value).map =
    ((m.map.insert upper none).eraseRange ((m.map.insert upper none).lowerBound lower)
      upper).insert lower (some value) := by
  unfold insert
  rw [if_pos hlt, insertUpperBound_eq hm hlt hapart]

theorem mem_keys_insert {x : K} : x ∈ (m.insert lower upper value).map.keys ↔
    x = lower ∨ x = upper ∨ x ∈ m.map.keys ∧ ¬ (lower ≤ x ∧ x < upper) := by
  rw [insert_eq hm hlt hapart, OrderedMap.mem_keys_insert, OrderedMap.mem_keys_eraseRange,
    OrderedMap.mem_keys_insert, or_and_right]
  refine or_congr_right (or_congr_left ?_)
  refine and_iff_left_of_imp ?_
  rintro rfl
  exact fun h ↦ lt_irrefl x h.2

theorem value_insert_self : (m.insert lower upper value).map.value lower = some value := by
  rw [insert_eq hm hlt hapart]
  refine OrderedMap.value_insert_self fun h ↦ ?_
  exact (OrderedMap.mem_keys_eraseRange.mp h).2 ⟨le_refl lower, hlt⟩

theorem value_insert_of_ne {x : K} (hx : x ∈ (m.insert lower upper value).map.keys)
    (hne : x ≠ lower) : (m.insert lower upper value).map.value x =
      if x ∈ m.map.keys then m.map.value x else none := by
  have hmem : x ∈ ((m.map.insert upper none).eraseRange ((m.map.insert upper none).lowerBound lower)
      upper).keys := by
    rw [insert_eq hm hlt hapart, OrderedMap.mem_keys_insert] at hx
    exact hx.resolve_left hne
  rw [insert_eq hm hlt hapart, OrderedMap.value_insert_of_mem hmem]
  show (m.map.insert upper none).value x = _
  by_cases hold : x ∈ m.map.keys
  · rw [OrderedMap.value_insert_of_mem hold, if_pos hold]
  · -- the only new point besides `lower` is `upper`
    have hx' := (OrderedMap.mem_keys_eraseRange.mp hmem).1
    obtain rfl := (OrderedMap.mem_keys_insert.mp hx').resolve_right hold
    rw [OrderedMap.value_insert_self hold, if_neg hold]

theorem mem_pieces_insert_self : ⟨lower, upper, value⟩ ∈ (m.insert lower upper value).pieces := by
  refine ⟨?_, value_insert_self hm hlt hapart, OrderedMap.upperBound_eq_coe_iff.mpr ⟨?_, hlt, ?_⟩⟩
  · exact (mem_keys_insert hm hlt hapart).mpr (Or.inl rfl)
  · exact (mem_keys_insert hm hlt hapart).mpr (Or.inr (Or.inl rfl))
  · intro y hy hlower
    rcases (mem_keys_insert hm hlt hapart).mp hy with rfl | rfl | ⟨-, hout⟩
    · exact absurd hlower (lt_irrefl y)
    · exact le_refl y
    · exact not_lt.mp fun h ↦ hout ⟨hlower.le, h⟩

/-- The old intervals are still there: none of their points are between the new ones. -/
theorem mem_pieces_insert_of_mem (ha : a ∈ m.pieces) :
    a ∈ (m.insert lower upper value).pieces := by
  have hless := lower_lt_upper ha
  obtain ⟨hupper, -, hle⟩ := OrderedMap.upperBound_eq_coe_iff.mp ha.2.2
  have hkeys : ∀ {x}, x ∈ (m.insert lower upper value).map.keys ↔
      x = lower ∨ x = upper ∨ x ∈ m.map.keys ∧ ¬ (lower ≤ x ∧ x < upper) :=
    mem_keys_insert hm hlt hapart
  have hne : a.lower ≠ lower := by
    intro h
    rcases hapart a ha with h' | h'
    · exact not_lt.mpr h' (h ▸ hless)
    · exact not_lt.mpr h' (h ▸ hlt)
  have hmem : a.lower ∈ (m.insert lower upper value).map.keys := by
    refine hkeys.mpr (Or.inr (Or.inr ⟨ha.1, fun h ↦ ?_⟩))
    rcases hapart a ha with h' | h'
    · exact not_lt.mpr h.1 (hless.trans_le h')
    · exact not_lt.mpr h' h.2
  refine ⟨hmem, ?_, OrderedMap.upperBound_eq_coe_iff.mpr ⟨?_, hless, fun y hy hlow ↦ ?_⟩⟩
  · rw [value_insert_of_ne hm hlt hapart hmem hne, if_pos ha.1, ha.2.1]
  · rcases hapart a ha with h | h
    · rcases h.lt_or_eq with h | h
      · exact hkeys.mpr (Or.inr (Or.inr ⟨hupper, fun h' ↦ not_lt.mpr h'.1 h⟩))
      · exact hkeys.mpr (Or.inl h)
    · exact hkeys.mpr (Or.inr (Or.inr ⟨hupper, fun h' ↦ not_lt.mpr h (hless.trans h'.2)⟩))
  · rcases hkeys.mp hy with rfl | rfl | ⟨hy, -⟩
    · exact (hapart a ha).elim id fun h ↦ absurd (h.trans hlow.le) (not_le.mpr hlt)
    · rcases hapart a ha with h | h
      · exact h.trans hlt.le
      · exact absurd hlow (not_lt.mpr h)
    · exact hle y hy hlow

theorem exists_of_value_insert {x : K} {v : T} (hx : x ∈ (m.insert lower upper value).map.keys)
    (hv : (m.insert lower upper value).map.value x = some v) :
    x = lower ∨ ∃ a ∈ m.pieces, a.lower = x := by
  by_cases hne : x = lower
  · exact Or.inl hne
  · rw [value_insert_of_ne hm hlt hapart hx hne] at hv
    split at hv
    next hold => exact Or.inr (hm x hold v hv)
    next => cases hv

theorem closed_insert : (m.insert lower upper value).Closed := by
  intro x hx v hv
  rcases exists_of_value_insert hm hlt hapart hx hv with rfl | ⟨a, ha, rfl⟩
  · exact ⟨_, mem_pieces_insert_self hm hlt hapart, rfl⟩
  · exact ⟨a, mem_pieces_insert_of_mem hm hlt hapart ha, rfl⟩

/-- **Inserting** an interval that has no point in common with the others. -/
theorem pieces_insert :
    (m.insert lower upper value).pieces = Insert.insert ⟨lower, upper, value⟩ m.pieces := by
  have hself := mem_pieces_insert_self hm hlt hapart
  ext b
  constructor
  · intro hb
    rcases exists_of_value_insert hm hlt hapart hb.1 hb.2.1 with h | ⟨a, ha, h⟩
    · exact Or.inl (eq_of_lower_eq hb hself h)
    · have hb' := eq_of_lower_eq hb (mem_pieces_insert_of_mem hm hlt hapart ha) h.symm
      exact Or.inr (hb' ▸ ha)
  · rintro (rfl | hb)
    · exact hself
    · exact mem_pieces_insert_of_mem hm hlt hapart hb

end Insert

/-! ## Removing -/

section Remove

theorem remove_eq (hlower : lower ∈ m.map.keys) : m.remove lower =
    match m.map.upperBound lower with
    | ⊤ => ⟨m.map.set lower none⟩
    | (k : K) =>
      if (m.map.value k).isNone then ⟨(m.map.set lower none).erase k⟩
      else ⟨m.map.set lower none⟩ := by
  have hbound : (m.map.set lower none).upperBound lower = m.map.upperBound lower := rfl
  unfold remove
  rw [if_pos hlower]
  simp only [hbound]
  cases h : m.map.upperBound lower with
  | top => rfl
  | coe k =>
    have hne : k ≠ lower := (OrderedMap.upperBound_eq_coe_iff.mp h).2.1.ne'
    simp only [OrderedMap.value_set, if_neg hne]

theorem mem_keys_remove (hlower : lower ∈ m.map.keys) {x : K} :
    x ∈ (m.remove lower).map.keys ↔ x ∈ m.map.keys ∧
      ¬ (m.map.upperBound lower = (x : WithTop K) ∧ m.map.value x = none) := by
  rw [remove_eq hlower]
  cases h : m.map.upperBound lower with
  | top => exact (and_iff_left fun hx ↦ WithTop.top_ne_coe hx.1).symm
  | coe k =>
    simp only [WithTop.coe_inj]
    split
    next hnone =>
      rw [Option.isNone_iff_eq_none] at hnone
      show x ∈ m.map.keys.erase k ↔ _
      rw [Finset.mem_erase, and_comm]
      refine and_congr_right fun _ ↦ ?_
      constructor
      · rintro hne ⟨rfl, -⟩
        exact hne rfl
      · rintro hnot rfl
        exact hnot ⟨rfl, hnone⟩
    next hsome =>
      refine (and_iff_left ?_).symm
      rintro ⟨rfl, hnone⟩
      exact hsome (Option.isNone_iff_eq_none.mpr hnone)

theorem value_remove (hlower : lower ∈ m.map.keys) {x : K} :
    (m.remove lower).map.value x = if x = lower then none else m.map.value x := by
  have hvalue : (m.remove lower).map.value = (m.map.set lower none).value := by
    rw [remove_eq hlower]
    split
    · rfl
    · split
      · rfl
      · rfl
  rw [hvalue, OrderedMap.value_set]

/-- The other intervals are still there: the erased point is the end of none of them. -/
theorem mem_pieces_remove_of_ne (hlower : lower ∈ m.map.keys) (ha : a ∈ m.pieces)
    (hne : a.lower ≠ lower) : a ∈ (m.remove lower).pieces := by
  obtain ⟨hupper, hless, hle⟩ := OrderedMap.upperBound_eq_coe_iff.mp ha.2.2
  have hkept : a.upper ∈ (m.remove lower).map.keys := by
    refine (mem_keys_remove hlower).mpr ⟨hupper, fun h ↦ hne ?_⟩
    exact OrderedMap.eq_of_upperBound_eq ha.1 hlower ha.2.2 h.1
  refine ⟨(mem_keys_remove hlower).mpr ⟨ha.1, fun h ↦ ?_⟩, ?_,
    OrderedMap.upperBound_eq_coe_iff.mpr ⟨hkept, hless, fun y hy ↦ ?_⟩⟩
  · rw [ha.2.1] at h
    exact Option.some_ne_none _ h.2
  · rw [value_remove hlower, if_neg hne, ha.2.1]
  · exact hle y ((mem_keys_remove hlower).mp hy).1

theorem Closed.exists_of_value_remove (hm : m.Closed) (hlower : lower ∈ m.map.keys) {x : K} {v : T}
    (hx : x ∈ (m.remove lower).map.keys) (hv : (m.remove lower).map.value x = some v) :
    ∃ a ∈ m.pieces, a.lower = x ∧ a.lower ≠ lower := by
  rw [value_remove hlower] at hv
  split at hv
  next => cases hv
  next hne =>
    obtain ⟨a, ha, rfl⟩ := hm x ((mem_keys_remove hlower).mp hx).1 v hv
    exact ⟨a, ha, rfl, hne⟩

theorem Closed.remove (hm : m.Closed) (hlower : lower ∈ m.map.keys) : (m.remove lower).Closed := by
  intro x hx v hv
  obtain ⟨a, ha, rfl, hne⟩ := hm.exists_of_value_remove hlower hx hv
  exact ⟨a, mem_pieces_remove_of_ne hlower ha hne, rfl⟩

/-- **Removing** an interval. -/
theorem Closed.pieces_remove (hm : m.Closed) (hlower : lower ∈ m.map.keys) :
    (m.remove lower).pieces = {a ∈ m.pieces | a.lower ≠ lower} := by
  ext b
  constructor
  · intro hb
    obtain ⟨a, ha, h, hne⟩ := hm.exists_of_value_remove hlower hb.1 hb.2.1
    have hb' := eq_of_lower_eq hb (mem_pieces_remove_of_ne hlower ha hne) h.symm
    subst hb'
    exact ⟨ha, hne⟩
  · rintro ⟨hb, hne⟩
    exact mem_pieces_remove_of_ne hlower hb hne

end Remove

end IntervalMap

end Cali.Instrument
