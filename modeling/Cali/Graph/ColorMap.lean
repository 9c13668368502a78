import Mathlib.Data.BitVec
import Mathlib.Data.Finset.Card
import Mathlib.Data.Finset.Range
import Cali.Lib.Run

/-!
# The packed colour map

`graph/color_map.h` stores the colours of a graph search with two bits per vertex, four
vertices to a byte.  `put_fast` only sets bits.  `put` stores a byte that has only the bits of
its own vertex, so the map is a function from vertices to colours (`Refines`) as long as the
other vertices of that byte are white.
-/

namespace Cali.Graph

open Cali.Lib

/-- `Color` -/
inductive Color where
  | white
  | gray
  | green
  | black
deriving DecidableEq, Repr

namespace Color

/-- The value of the enumerator. -/
def code : Color → BitVec 8
  | white => 0
  | gray => 1
  | green => 2
  | black => 3

/-- The enumerator with the value of the two lowest bits. -/
def ofCode (b : BitVec 8) : Color :=
  match b.getLsbD 1, b.getLsbD 0 with
  | false, false => white
  | false, true => gray
  | true, false => green
  | true, true => black

/-- The union of the bits of two colours. -/
def or (c d : Color) : Color := ofCode (c.code ||| d.code)

theorem or_ne_white {c d : Color} (h : c ≠ white ∨ d ≠ white) : c.or d ≠ white := by
  revert h
  cases c <;> cases d <;> decide

theorem ofCode_congr {b b' : BitVec 8} (h : ∀ i < 2, b.getLsbD i = b'.getLsbD i) :
    ofCode b = ofCode b' := by
  unfold ofCode
  rw [h 0 (by decide), h 1 (by decide)]

theorem getLsbD_code_ofCode (b : BitVec 8) {i : ℕ} (hi : i < 2) :
    (ofCode b).code.getLsbD i = b.getLsbD i := by
  unfold ofCode
  obtain rfl | rfl : i = 0 ∨ i = 1 := by omega
  · cases b.getLsbD 0 <;> cases b.getLsbD 1 <;> rfl
  · cases b.getLsbD 0 <;> cases b.getLsbD 1 <;> rfl

end Color

/-- `ColorMap`: the bytes. -/
structure ColorMap where
  colors : List (BitVec 8)
deriving DecidableEq

namespace ColorMap

/-- The constructor, for a graph with the given capacity. -/
def ofCapacity (capacity : ℕ) : ColorMap := ⟨List.replicate (capacity / 4 + 512) 0⟩

/-- `init` -/
def init (m : ColorMap) : ColorMap := ⟨List.replicate m.colors.length 0⟩

/-- `put`: the byte from which the bits of the vertex are cleared is a local copy. -/
def put (m : ColorMap) (v : ℕ) (c : Color) : ColorMap :=
  ⟨m.colors.set (v / 4) ((c.code <<< (v % 4)) <<< (v % 4))⟩

/-- `put_fast` -/
def putFast (m : ColorMap) (v : ℕ) (c : Color) : ColorMap :=
  ⟨m.colors.modify (v / 4) fun b ↦ b ||| (c.code <<< (v % 4)) <<< (v % 4)⟩

/-- `get` -/
def get (m : ColorMap) (v : ℕ) : Color :=
  .ofCode ((m.colors.getD (v / 4) 0) >>> (v % 4) >>> (v % 4))

/-- The map has a byte for the vertex. -/
def Covers (m : ColorMap) (v : ℕ) : Prop := v / 4 < m.colors.length

instance (m : ColorMap) (v : ℕ) : Decidable (m.Covers v) := inferInstanceAs (Decidable (_ < _))

variable {m : ColorMap} {u v : ℕ} {c : Color}

@[simp] theorem covers_init : m.init.Covers v ↔ m.Covers v := by
  simp [Covers, init]

@[simp] theorem covers_put : (m.put u c).Covers v ↔ m.Covers v := by
  simp [Covers, put]

@[simp] theorem covers_putFast : (m.putFast u c).Covers v ↔ m.Covers v := by
  simp [Covers, putFast]

theorem covers_ofCapacity {capacity : ℕ} (hv : v < capacity) : (ofCapacity capacity).Covers v := by
  simp only [Covers, ofCapacity, List.length_replicate]
  omega

@[simp] theorem get_init : m.init.get v = .white := by
  unfold get init
  rw [List.getD_eq_getElem?_getD, List.getElem?_replicate]
  split <;> simp [Color.ofCode]

theorem getLsbD_code_shiftLeft : ∀ (c : Color) (r s : Fin 4) (i : Fin 2),
    ((c.code <<< r.val) <<< r.val).getLsbD (s + (s + i)) =
      if s = r then c.code.getLsbD i else false := by
  intro c
  cases c <;> decide

theorem ofCode_putFast (c : Color) (r s : Fin 4) (b : BitVec 8) :
    Color.ofCode ((b ||| (c.code <<< r.val) <<< r.val) >>> s.val >>> s.val) =
      if s = r then (Color.ofCode (b >>> s.val >>> s.val)).or c
      else Color.ofCode (b >>> s.val >>> s.val) := by
  have hbits : ∀ i < 2, ((b ||| (c.code <<< r.val) <<< r.val) >>> s.val >>> s.val).getLsbD i =
      (b.getLsbD (s + (s + i)) || if s = r then c.code.getLsbD i else false) := fun i hi ↦ by
    rw [← getLsbD_code_shiftLeft c r s ⟨i, hi⟩]
    simp only [BitVec.getLsbD_ushiftRight, BitVec.getLsbD_or]
  split
  · next h =>
      refine Color.ofCode_congr fun i hi ↦ ?_
      rw [hbits i hi, if_pos h, BitVec.getLsbD_or, Color.getLsbD_code_ofCode _ hi]
      simp only [BitVec.getLsbD_ushiftRight]
  · next h =>
      refine Color.ofCode_congr fun i hi ↦ ?_
      rw [hbits i hi, if_neg h, Bool.or_false]
      simp only [BitVec.getLsbD_ushiftRight]

/-- `put_fast` adds the bits of the colour to those of the vertex. -/
theorem get_putFast (hv : m.Covers v) :
    (m.putFast v c).get u = if u = v then (m.get v).or c else m.get u := by
  have hcode := ofCode_putFast c ⟨v % 4, Nat.mod_lt _ (by decide)⟩ ⟨u % 4, Nat.mod_lt _ (by decide)⟩
    (m.colors.getD (u / 4) 0)
  unfold get putFast
  simp only [List.getD_eq_getElem?_getD, List.getElem?_modify] at hcode ⊢
  by_cases hdiv : v / 4 = u / 4
  · have hlt : u / 4 < m.colors.length := hdiv ▸ hv
    simp only [hdiv, hlt, ↓reduceIte, List.getElem?_eq_getElem, Option.map_eq_map,
      Option.map_some, Option.getD_some] at hcode ⊢
    rw [hcode]
    have hiff : (⟨u % 4, Nat.mod_lt _ (by decide)⟩ : Fin 4) = ⟨v % 4, Nat.mod_lt _ (by decide)⟩ ↔
        u = v := by
      rw [Fin.mk.injEq]
      omega
    by_cases huv : u = v
    · subst huv
      simp
    · rw [if_neg (hiff.not.mpr huv), if_neg huv]
  · have huv : u ≠ v := fun h ↦ hdiv (h ▸ rfl)
    simp [hdiv, huv]

/-- Putting a colour that is not white makes the vertex, and no other one, not white. -/
theorem get_putFast_ne_white (hv : m.Covers v) (hc : c ≠ .white) :
    (m.putFast v c).get u ≠ .white ↔ m.get u ≠ .white ∨ u = v := by
  rw [get_putFast hv]
  by_cases huv : u = v
  · simpa [huv] using Color.or_ne_white (Or.inr hc)
  · simp [huv]

/-- The white vertices. -/
def whites (m : ColorMap) : Finset ℕ :=
  (Finset.range (4 * m.colors.length)).filter fun v ↦ m.get v = .white

theorem mem_whites : v ∈ m.whites ↔ m.Covers v ∧ m.get v = .white := by
  unfold whites Covers
  rw [Finset.mem_filter, Finset.mem_range]
  exact and_congr_left fun _ ↦ by omega

theorem whites_putFast_subset (hv : m.Covers v) : (m.putFast v c).whites ⊆ m.whites := by
  intro u hu
  rw [mem_whites, covers_putFast, get_putFast hv] at hu
  refine mem_whites.mpr ⟨hu.1, ?_⟩
  by_cases huv : u = v
  · subst huv
    by_contra hne
    exact Color.or_ne_white (Or.inl hne) (by simpa using hu.2)
  · simpa [huv] using hu.2

theorem card_whites_putFast_lt (hv : m.Covers v) (hwhite : m.get v = .white) (hc : c ≠ .white) :
    (m.putFast v c).whites.card < m.whites.card := by
  refine Finset.card_lt_card ⟨whites_putFast_subset hv, fun hsub ↦ ?_⟩
  have hmem := (mem_whites.mp (hsub (mem_whites.mpr ⟨hv, hwhite⟩))).2
  rw [get_putFast hv, if_pos rfl] at hmem
  exact Color.or_ne_white (Or.inr hc) hmem

/-! ## The map as a function -/

section Refinement

theorem ofCode_put (c : Color) (r s : Fin 4) :
    Color.ofCode (((c.code <<< r.val) <<< r.val) >>> s.val >>> s.val) =
      if s = r then c else .white := by
  have hor : ∀ c : Color, (Color.ofCode 0#8).or c = c := by
    intro c
    cases c <;> rfl
  have hbyte := ofCode_putFast c r s 0#8
  rw [BitVec.zero_or, BitVec.zero_ushiftRight, BitVec.zero_ushiftRight, hor] at hbyte
  exact hbyte

/-- `put` gives the vertex its colour and makes the others of the byte white. -/
theorem get_put (hv : m.Covers v) :
    (m.put v c).get u = if u = v then c else if u / 4 = v / 4 then .white else m.get u := by
  have hcode := ofCode_put c ⟨v % 4, Nat.mod_lt _ (by decide)⟩ ⟨u % 4, Nat.mod_lt _ (by decide)⟩
  unfold get put
  rw [List.getD_eq_getElem?_getD, List.getD_eq_getElem?_getD, List.getElem?_set]
  by_cases hdiv : v / 4 = u / 4
  · have hlt : v / 4 < m.colors.length := hv
    rw [if_pos hdiv, if_pos hlt, Option.getD_some, hcode, if_pos hdiv.symm]
    refine if_congr ?_ rfl rfl
    rw [Fin.mk.injEq]
    constructor
    · intro hmod
      omega
    · rintro rfl
      rfl
  · have huv : u ≠ v := fun h ↦ hdiv (h ▸ rfl)
    rw [if_neg hdiv, if_neg huv, if_neg (Ne.symm hdiv)]

/-- The transitions that the comment on `put_fast` allows. -/
def Allowed (c d : Color) : Prop :=
  c = .white ∧ d = .gray ∨ c = .white ∧ d = .black ∨ c = .gray ∧ d = .black

theorem Allowed.or_eq {d : Color} (h : Allowed c d) : c.or d = d := by
  rcases h with ⟨rfl, rfl⟩ | ⟨rfl, rfl⟩ | ⟨rfl, rfl⟩
  · rfl
  · rfl
  · rfl

/-- The operations of the map. -/
inductive Op
  | init
  | put (v : ℕ) (c : Color)
  | putFast (v : ℕ) (c : Color)
deriving DecidableEq

/-- The map has a byte for the vertex of the operation. -/
def Op.Ok (m : ColorMap) : Op → Prop
  | .init => True
  | .put v _ => m.Covers v
  | .putFast v _ => m.Covers v

def exec (m : ColorMap) : Op → ColorMap
  | .init => m.init
  | .put v c => m.put v c
  | .putFast v c => m.putFast v c

/-- The operations on a function from vertices to colours. -/
def Op.apply (f : ℕ → Color) : Op → ℕ → Color
  | .init => fun _ ↦ .white
  | .put v c => Function.update f v c
  | .putFast v c => Function.update f v ((f v).or c)

/-- The bytes and the function take an operation together. -/
def Step (s : ColorMap × (ℕ → Color)) (op : Op) (s' : ColorMap × (ℕ → Color)) : Prop :=
  op.Ok s.1 ∧ s' = (s.1.exec op, op.apply s.2)

/-- The bytes hold the colours of the function. -/
def Refines (m : ColorMap) (f : ℕ → Color) : Prop := ∀ v, m.Covers v → m.get v = f v

/-- The other vertices of the byte that `put` writes are white. -/
def Op.Apart (m : ColorMap) : Op → Prop
  | .init => True
  | .put v _ => ∀ u, u / 4 = v / 4 → u ≠ v → m.get u = .white
  | .putFast _ _ => True

variable {f : ℕ → Color} {op : Op}

theorem covers_exec : (m.exec op).Covers v ↔ m.Covers v := by
  cases op with
  | init => exact covers_init
  | put u c => exact covers_put
  | putFast u c => exact covers_putFast

/-- **An operation is one on the function**, for `put` exactly if it has the byte for itself. -/
theorem Refines.exec_iff (h : Refines m f) (hop : op.Ok m) :
    Refines (m.exec op) (op.apply f) ↔ op.Apart m := by
  cases op with
  | init => exact iff_of_true (fun _ _ ↦ get_init) trivial
  | putFast v c =>
    refine iff_of_true (fun u hu ↦ ?_) trivial
    show (m.putFast v c).get u = Function.update f v ((f v).or c) u
    rw [get_putFast hop, Function.update_apply, h v hop, h u (covers_exec.mp hu)]
  | put v c =>
    have hget : ∀ u, (m.exec (.put v c)).get u =
        if u = v then c else if u / 4 = v / 4 then .white else m.get u := fun u ↦ get_put hop
    constructor
    · intro href u hdiv hne
      have hu : m.Covers u := by
        unfold Covers
        rw [hdiv]
        exact hop
      have hkept := href u (covers_exec.mpr hu)
      rw [hget, if_neg hne, if_pos hdiv] at hkept
      rw [hkept, h u hu]
      exact (Function.update_of_ne hne c f).symm
    · intro hapart u hu
      rw [hget]
      show _ = Function.update f v c u
      rw [Function.update_apply]
      by_cases huv : u = v
      · rw [if_pos huv, if_pos huv]
      · rw [if_neg huv, if_neg huv, ← h u (covers_exec.mp hu)]
        split
        next hdiv => exact (hapart u hdiv huv).symm
        next => rfl

/-- **The packed map is a function from vertices to colours** along a run exactly if every `put`
of the run has the byte of its vertex for itself. -/
theorem refines_iff_apart {s : ColorMap × (ℕ → Color)} {t : List (Op × ColorMap × (ℕ → Color))}
    (hrun : IsRun Step s t) (hs : Refines s.1 s.2) :
    (∀ c d, Allowed c d → c.or d = d) ∧
      ((∀ x ∈ runStates s t, Refines x.1 x.2) ↔ RunOk (fun x op ↦ op.Apart x.1) s t) := by
  refine ⟨fun _ _ ↦ Allowed.or_eq, ?_⟩
  have hiff : ∀ (x : ColorMap × (ℕ → Color)) op x', Refines x.1 x.2 → Step x op x' →
      (Refines x'.1 x'.2 ↔ op.Apart x.1) := by
    rintro x op x' hx ⟨hop, rfl⟩
    exact hx.exec_iff hop
  constructor
  · exact hrun.runOk (fun x op x' hx hop hstep ↦ (hiff x op x' hx hstep).mpr hop)
      (fun x op x' hx hstep ↦ (hiff x op x' hx hstep).mp) hs
  · exact hrun.invariant (fun x op x' hx hop hstep ↦ (hiff x op x' hx hstep).mpr hop) hs

instance (m : ColorMap) (op : Op) : Decidable (op.Ok m) :=
  match op with
  | .init => isTrue trivial
  | .put .. => inferInstanceAs (Decidable (Covers _ _))
  | .putFast .. => inferInstanceAs (Decidable (Covers _ _))

theorem forall_same_byte {P : ℕ → Prop} {n : ℕ} :
    (∀ u, u / 4 = n → P u) ↔ ∀ i < 4, P (4 * n + i) := by
  constructor
  · intro h i hi
    exact h _ (by omega)
  · intro h u hu
    have hmod := h (u % 4) (Nat.mod_lt u (by decide))
    rwa [← hu, Nat.div_add_mod] at hmod

instance (m : ColorMap) (op : Op) : Decidable (op.Apart m) :=
  match op with
  | .init => isTrue trivial
  | .put _ _ => decidable_of_iff' _ forall_same_byte
  | .putFast .. => isTrue trivial

/-- The states of the map and of a function that starts all white. -/
def colouring (n : ℕ) (ops : List Op) : List (Op × ColorMap × (ℕ → Color)) :=
  trace (fun s op ↦ (s.1.exec op, op.apply s.2)) (⟨List.replicate n 0⟩, fun _ ↦ .white) ops

theorem refines_replicate (n : ℕ) : Refines ⟨List.replicate n 0⟩ fun _ ↦ .white := by
  intro v _
  have hinit := get_init (m := ⟨List.replicate n 0⟩) (v := v)
  rwa [init, List.length_replicate] at hinit

/-- `put` for two vertices of different bytes, with `put_fast` between them. -/
theorem refines_puts_in_two_bytes :
    let t := colouring 2 [.put 1 .gray, .putFast 1 .black, .put 6 .green, .init, .put 7 .black]
    RunOk (fun x op ↦ op.Apart x.1) (⟨[0, 0]⟩, fun _ ↦ .white) t ∧
      ∀ x ∈ runStates (⟨[0, 0]⟩, fun _ ↦ .white) t, Refines x.1 x.2 := by
  intro t
  have hrun : IsRun Step (⟨[0, 0]⟩, fun _ ↦ .white) t := by
    refine isRun_trace ?_
    simp only [Step, and_true]
    decide
  have hapart : RunOk (fun x op ↦ op.Apart x.1) (⟨[0, 0]⟩, fun _ ↦ .white) t := by decide
  exact ⟨hapart, (refines_iff_apart hrun (refines_replicate 2)).2.mpr hapart⟩

/-- `put` for two vertices of one byte: the first one is white again. -/
theorem not_refines_puts_in_one_byte :
    let t := colouring 1 [.put 0 .gray, .put 1 .gray]
    IsRun Step (⟨[0]⟩, fun _ ↦ .white) t ∧ Refines ⟨[0]⟩ (fun _ ↦ .white) ∧
      ∃ x ∈ runStates (⟨[0]⟩, fun _ ↦ .white) t, ¬ Refines x.1 x.2 := by
  intro t
  have hrun : IsRun Step (⟨[0]⟩, fun _ ↦ .white) t := by
    refine isRun_trace ?_
    simp only [Step, and_true]
    decide
  refine ⟨hrun, refines_replicate 1, _, List.mem_cons_of_mem _ (List.mem_cons_of_mem _
    List.mem_cons_self), fun h ↦ ?_⟩
  have hgray := h 0 (by decide)
  revert hgray
  decide

end Refinement

end ColorMap

end Cali.Graph
