import Mathlib.Algebra.Group.Nat.Defs
import Mathlib.Data.List.Basic
import Mathlib.Data.List.Induction

/-!
# Memory as a function of addresses

Cells at natural addresses that are read and written in blocks.  A block is a start and a
length, and what matters about two blocks is that they are apart.  For cells that are bytes,
a number is stored with its lowest byte first.
-/

namespace Cali.Lib

universe u

variable {β : Type u} {mem : ℕ → β} {a b m n : ℕ} {cells : List β}

/-- The blocks of `m` cells at `a` and of `n` cells at `b` have no cell in common. -/
def Apart (a m b n : ℕ) : Prop := a + m ≤ b ∨ b + n ≤ a

theorem Apart.mono {a' m' b' n' : ℕ} (h : Apart a m b n) (ha : a ≤ a') (hm : a' + m' ≤ a + m)
    (hb : b ≤ b') (hn : b' + n' ≤ b + n) : Apart a' m' b' n' := by
  rcases h with h | h
  · exact Or.inl (Nat.le_trans hm (Nat.le_trans h hb))
  · exact Or.inr (Nat.le_trans hn (Nat.le_trans h ha))

/-! ## Reading and writing -/

/-- The `n` cells from the address `a` on. -/
def read (mem : ℕ → β) (a n : ℕ) : List β := (List.range n).map fun i ↦ mem (a + i)

/-- Stores the cells from the address `a` on. -/
def write (mem : ℕ → β) (a : ℕ) (cells : List β) : ℕ → β :=
  fun x ↦ if a ≤ x then (cells[x - a]?).getD (mem x) else mem x

@[simp] theorem length_read : (read mem a n).length = n := by
  rw [read, List.length_map, List.length_range]

theorem write_of_lt {x : ℕ} (h : x < a) : write mem a cells x = mem x := if_neg (Nat.not_le.mpr h)

theorem write_of_le {x : ℕ} (h : a + cells.length ≤ x) : write mem a cells x = mem x := by
  unfold write
  rw [List.getElem?_eq_none (by omega), Option.getD_none, ite_self]

theorem read_add : read mem a (m + n) = read mem a m ++ read mem (a + m) n := by
  simp [read, List.range_add, Nat.add_assoc]

theorem write_congr {mem' : ℕ → β} {x : ℕ} (h : mem x = mem' x) :
    write mem a cells x = write mem' a cells x := by
  rw [write, write, h]

theorem read_write_of_apart (h : Apart a cells.length b n) :
    read (write mem a cells) b n = read mem b n := by
  refine List.map_congr_left fun i hi ↦ ?_
  have hi : i < n := List.mem_range.mp hi
  rcases h with hle | hle
  · exact write_of_le (by omega)
  · exact write_of_lt (by omega)

/-- The cells are stored from the address `a` on. -/
def Stores (mem : ℕ → β) (a : ℕ) (cells : List β) : Prop := read mem a cells.length = cells

theorem stores_append {cells' : List β} :
    Stores mem a (cells ++ cells') ↔
      Stores mem a cells ∧ Stores mem (a + cells.length) cells' := by
  unfold Stores
  rw [List.length_append, read_add]
  refine ⟨fun h ↦ List.append_inj h (by simp [read]), ?_⟩
  rintro ⟨h, h'⟩
  rw [h, h']

theorem stores_write (mem : ℕ → β) (a : ℕ) (cells : List β) :
    Stores (write mem a cells) a cells := by
  refine List.ext_getElem (by simp [read]) fun i hi hi' ↦ ?_
  simp [read, write, hi']

theorem Stores.write_of_apart {cells' : List β} (h : Stores mem b cells')
    (hapart : Apart a cells.length b cells'.length) : Stores (write mem a cells) b cells' :=
  (read_write_of_apart hapart).trans h

/-! ## Blocks that are stored one after the other -/

/-- Cells that are to be stored from an address on. -/
structure Block (β : Type u) where
  start : ℕ
  length : ℕ
  cells : ℕ → β

namespace Block

/-- The address belongs to the block. -/
def Covers (block : Block β) (x : ℕ) : Prop :=
  block.start ≤ x ∧ x < block.start + block.length

instance (block : Block β) (x : ℕ) : Decidable (block.Covers x) :=
  inferInstanceAs (Decidable (_ ∧ _))

/-- The memory with the block in it. -/
def fill (mem : ℕ → β) (block : Block β) : ℕ → β :=
  fun x ↦ if block.Covers x then block.cells (x - block.start) else mem x

end Block

/-- Values are stored in turn.  At each address the last one that covers it decides. -/
theorem foldl_store_apply {γ : Type*} {store : (ℕ → β) → γ → ℕ → β} {x : ℕ} {covers : γ → Bool}
    {value : γ → β} {cs : List γ}
    (hstore : ∀ c ∈ cs, ∀ mem, store mem c x = if covers c = true then value c else mem x)
    (mem : ℕ → β) :
    cs.foldl store mem x = ((cs.filter covers).getLast?).elim (mem x) value := by
  induction cs using List.reverseRecOn with
  | nil => rfl
  | append_singleton cs c ih =>
    rw [List.foldl_append, List.foldl_cons, List.foldl_nil,
      hstore c (List.mem_append_right cs List.mem_cons_self),
      ih fun c' hc' ↦ hstore c' (List.mem_append_left _ hc'), List.filter_append]
    by_cases hc : covers c = true
    · simp [hc]
    · simp [hc]

/-! ## Numbers -/

/-- The `n` lowest bytes of a number, lowest first. -/
def leBytes : ℕ → ℕ → List (BitVec 8)
  | 0, _ => []
  | n + 1, v => BitVec.ofNat 8 v :: leBytes n (v / 256)

/-- The number that bytes stand for, lowest first. -/
def leValue : List (BitVec 8) → ℕ
  | [] => 0
  | byte :: bytes => byte.toNat + 256 * leValue bytes

@[simp] theorem length_leBytes (n v : ℕ) : (leBytes n v).length = n := by
  induction n generalizing v with
  | zero => rfl
  | succ n ih => exact congrArg (· + 1) (ih _)

theorem leValue_lt (bytes : List (BitVec 8)) : leValue bytes < 256 ^ bytes.length := by
  induction bytes with
  | nil => exact Nat.one_pos
  | cons byte bytes ih =>
    have hbyte : byte.toNat < 256 := byte.isLt
    rw [leValue, List.length_cons, Nat.pow_succ]
    omega

theorem leValue_leBytes (n v : ℕ) : leValue (leBytes n v) = v % 256 ^ n := by
  induction n generalizing v with
  | zero => exact (Nat.mod_one v).symm
  | succ n ih =>
    have hbyte : (BitVec.ofNat 8 v).toNat = v % 256 := BitVec.toNat_ofNat v 8
    rw [leBytes, leValue, ih, hbyte, Nat.pow_succ', Nat.mod_mul]

end Cali.Lib
