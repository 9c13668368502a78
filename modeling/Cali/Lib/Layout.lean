import Cali.Lib.Memory

/-!
# Records in memory

The fields of a record lie one after the other, each at the next multiple of its alignment, and
the next one starts after the room that is set aside for it.  A record is stored field by field
and loaded field by field; what is loaded is what was stored, and nothing outside of the record
changes.
-/

namespace Cali.Lib

/-- The least multiple of `2 ^ k` that is not below `n`. -/
def alignTo (n k : ℕ) : ℕ := (n + (2 ^ k - 1)) / 2 ^ k * 2 ^ k

theorem le_alignTo (n k : ℕ) : n ≤ alignTo n k := by
  have hpos : 0 < 2 ^ k := Nat.two_pow_pos k
  have hlt := Nat.lt_div_mul_add hpos (a := n + (2 ^ k - 1))
  unfold alignTo
  omega

/-- A field takes `size` bytes at a multiple of `2 ^ logAlign`. -/
structure Field where
  size : ℕ
  logAlign : ℕ

namespace Field

/-- Where the field lies if the fields before it end at the offset `o`. -/
def place (f : Field) (o : ℕ) : ℕ := alignTo o f.logAlign

/-- Where the next field may start. -/
def after (f : Field) (o : ℕ) : ℕ := f.place o + alignTo f.size f.logAlign

theorem le_place (f : Field) (o : ℕ) : o ≤ f.place o := le_alignTo o f.logAlign

theorem place_add_size_le_after (f : Field) (o : ℕ) : f.place o + f.size ≤ f.after o :=
  Nat.add_le_add_left (le_alignTo f.size f.logAlign) _

theorem le_after (f : Field) (o : ℕ) : o ≤ f.after o :=
  Nat.le_trans (f.le_place o) (Nat.le_add_right ..)

end Field

/-- The offset after the last field. -/
def fieldsEnd (fields : List Field) (o : ℕ) : ℕ := fields.foldl (fun o f ↦ f.after o) o

/-- Stores the values into the fields of the record at `base`, from the offset `o` on. -/
def storeFields (base : ℕ) : List Field → ℕ → List ℕ → (ℕ → BitVec 8) → ℕ → BitVec 8
  | f :: fields, o, v :: vs, mem =>
    storeFields base fields (f.after o) vs (write mem (base + f.place o) (leBytes f.size v))
  | _, _, _, mem => mem

/-- Loads the values of the fields. -/
def loadFields (mem : ℕ → BitVec 8) (base : ℕ) : List Field → ℕ → List ℕ
  | [], _ => []
  | f :: fields, o =>
    leValue (read mem (base + f.place o) f.size) :: loadFields mem base fields (f.after o)

/-- Each value can be stored in its field. -/
def FitFields (fields : List Field) (vs : List ℕ) : Prop :=
  List.Forall₂ (fun f v ↦ v < 256 ^ f.size) fields vs

section Records

variable {base o : ℕ} {fields : List Field} {vs : List ℕ} {mem mem' : ℕ → BitVec 8}

theorem le_fieldsEnd (fields : List Field) (o : ℕ) : o ≤ fieldsEnd fields o := by
  induction fields generalizing o with
  | nil => exact Nat.le_refl o
  | cons f fields ih => exact Nat.le_trans (f.le_after o) (ih (f.after o))

/-- **The frame of a record.**  Nothing outside of it changes. -/
theorem storeFields_of_outside {x : ℕ} (hx : x < base + o ∨ base + fieldsEnd fields o ≤ x) :
    storeFields base fields o vs mem x = mem x := by
  induction fields generalizing o vs mem with
  | nil => rfl
  | cons f fields ih =>
    have hplace := f.le_place o
    have hafter := f.place_add_size_le_after o
    have hend : f.after o ≤ fieldsEnd (f :: fields) o := le_fieldsEnd fields (f.after o)
    cases vs with
    | nil => rfl
    | cons v vs =>
      have hrest : x < base + f.after o ∨ base + fieldsEnd fields (f.after o) ≤ x :=
        hx.imp_left fun h ↦ Nat.lt_of_lt_of_le h (Nat.add_le_add_left (f.le_after o) base)
      refine (ih hrest).trans ?_
      rcases hx with hx | hx
      · exact write_of_lt (by omega)
      · exact write_of_le (by rw [length_leBytes]; omega)

theorem read_storeFields_of_le {a n : ℕ} (h : a + n ≤ base + o) :
    read (storeFields base fields o vs mem) a n = read mem a n := by
  refine List.map_congr_left fun i hi ↦ storeFields_of_outside (Or.inl ?_)
  have := List.mem_range.mp hi
  omega

theorem loadFields_congr
    (h : ∀ x, base + o ≤ x → x < base + fieldsEnd fields o → mem x = mem' x) :
    loadFields mem base fields o = loadFields mem' base fields o := by
  induction fields generalizing o with
  | nil => rfl
  | cons f fields ih =>
    have hplace := f.le_place o
    have hafter := f.place_add_size_le_after o
    have hend : f.after o ≤ fieldsEnd (f :: fields) o := le_fieldsEnd fields (f.after o)
    have hread : read mem (base + f.place o) f.size = read mem' (base + f.place o) f.size := by
      refine List.map_congr_left fun i hi ↦ h _ (by omega) ?_
      have := List.mem_range.mp hi
      omega
    have hrest := ih fun x hle hlt ↦
      h x (Nat.le_trans (Nat.add_le_add_left (f.le_after o) base) hle) hlt
    rw [loadFields, loadFields, hread, hrest]

/-- **What is stored is loaded.** -/
theorem loadFields_storeFields (h : FitFields fields vs) :
    loadFields (storeFields base fields o vs mem) base fields o = vs := by
  induction h generalizing o mem with
  | nil => rfl
  | @cons f v fields vs hv _ ih =>
    have hafter := f.place_add_size_le_after o
    have hstored := stores_write mem (base + f.place o) (leBytes f.size v)
    rw [Stores, length_leBytes] at hstored
    have hplace : base + f.place o + f.size ≤ base + f.after o := by omega
    rw [storeFields, loadFields, read_storeFields_of_le hplace, hstored, leValue_leBytes,
      Nat.mod_eq_of_lt hv, ih]

end Records

end Cali.Lib
