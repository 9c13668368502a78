import Mathlib.Data.Nat.Notation

/-!
# Classic BPF listings

The assembly language of filter programs: an accumulator and an index register of 32
bits, loads from a record of words, and jumps to labels that stand further down in the
listing.  A conditional jump that is not taken falls through to the next line.

A run has no loops, because a jump leaves only the lines behind its label.  So a run
with as much fuel as the listing has lines never stops for the lack of it, which is
`exec_of_length_le`; the only way not to return a value is to load from an offset that
the record does not have, to jump to a label that does not stand further down, or to
run off the end.
-/

namespace Cali.Lib.Bpf

/-- The conditions of `jeq`, `jne`, `jgt`, `jge`, `jlt` and `jset`. -/
inductive Cond
  | eq | ne | gt | ge | lt | set
deriving DecidableEq, Repr

/-- The comparison of the accumulator with a constant is unsigned. -/
def Cond.holds : Cond → BitVec 32 → BitVec 32 → Bool
  | eq, a, k => a == k
  | ne, a, k => a != k
  | gt, a, k => decide (k < a)
  | ge, a, k => decide (k ≤ a)
  | lt, a, k => decide (a < k)
  | set, a, k => a &&& k != 0

/-- An instruction of a listing with labels in `ℓ`. -/
inductive Instr (ℓ : Type)
  /-- Load the word at an offset. -/
  | ld (offset : ℕ)
  /-- Mask the accumulator. -/
  | and (k : BitVec 32)
  /-- Add the index register to the accumulator. -/
  | addX
  /-- Copy the accumulator into the index register. -/
  | tax
  | jmp (target : ℓ)
  | jump (c : Cond) (k : BitVec 32) (target : ℓ)
  | ret (k : BitVec 32)
deriving DecidableEq, Repr

/-- A line of a listing. -/
inductive Line (ℓ : Type)
  | label (l : ℓ)
  | instr (i : Instr ℓ)
deriving DecidableEq, Repr

/-- The registers. -/
structure Registers where
  a : BitVec 32
  x : BitVec 32
deriving DecidableEq, Repr

variable {ℓ : Type} [DecidableEq ℓ] (load : ℕ → Option (BitVec 32))

/-- The lines behind a label. -/
def goto (target : ℓ) : List (Line ℓ) → List (Line ℓ)
  | [] => []
  | .label l :: lines => if l = target then lines else goto target lines
  | .instr _ :: lines => goto target lines

/-- A run of the lines. -/
def exec : ℕ → List (Line ℓ) → Registers → Option (BitVec 32)
  | 0, _, _ => none
  | _ + 1, [], _ => none
  | n + 1, .label _ :: lines, r => exec n lines r
  | n + 1, .instr (.ld offset) :: lines, r =>
    match load offset with
    | none => none
    | some w => exec n lines { r with a := w }
  | n + 1, .instr (.and k) :: lines, r => exec n lines { r with a := r.a &&& k }
  | n + 1, .instr .addX :: lines, r => exec n lines { r with a := r.a + r.x }
  | n + 1, .instr .tax :: lines, r => exec n lines { r with x := r.a }
  | n + 1, .instr (.jmp target) :: lines, r => exec n (goto target lines) r
  | n + 1, .instr (.jump c k target) :: lines, r =>
    if c.holds r.a k = true then exec n (goto target lines) r else exec n lines r
  | _ + 1, .instr (.ret k) :: _, _ => some k

/-- The run of the lines with enough fuel. -/
def execute (lines : List (Line ℓ)) (r : Registers) : Option (BitVec 32) :=
  exec load lines.length lines r

/-- The value that a listing returns; the registers are zero at the beginning. -/
def run (lines : List (Line ℓ)) : Option (BitVec 32) := execute load lines ⟨0, 0⟩

/-! ## Enough fuel -/

variable {load} {n m : ℕ} {lines : List (Line ℓ)} {r : Registers}

theorem length_goto_le (target : ℓ) (lines : List (Line ℓ)) :
    (goto target lines).length ≤ lines.length := by
  induction lines with
  | nil => exact Nat.le_refl _
  | cons line lines ih =>
    cases line with
    | label l =>
      rw [goto]
      split
      · exact Nat.le_succ _
      · exact Nat.le_succ_of_le ih
    | instr i => exact Nat.le_succ_of_le ih

theorem exec_of_length_le (hn : lines.length ≤ n) (hm : lines.length ≤ m) :
    exec load n lines r = exec load m lines r := by
  induction n generalizing lines m r with
  | zero =>
    obtain rfl := List.length_eq_zero_iff.mp (Nat.le_zero.mp hn)
    cases m with
    | zero => rfl
    | succ m => rfl
  | succ n ih =>
    cases lines with
    | nil =>
      cases m with
      | zero => rfl
      | succ m => rfl
    | cons line lines =>
      cases m with
      | zero => exact absurd hm (Nat.not_succ_le_zero _)
      | succ m =>
        replace hn := Nat.le_of_succ_le_succ hn
        replace hm := Nat.le_of_succ_le_succ hm
        have hgoto : ∀ target r,
            exec load n (goto target lines) r = exec load m (goto target lines) r := fun _ _ ↦
          ih (Nat.le_trans (length_goto_le ..) hn) (Nat.le_trans (length_goto_le ..) hm)
        cases line with
        | label l => exact ih hn hm
        | instr i =>
          cases i with
          | ld offset =>
            rw [exec, exec]
            cases load offset with
            | none => rfl
            | some w => exact ih hn hm
          | and k => exact ih hn hm
          | addX => exact ih hn hm
          | tax => exact ih hn hm
          | jmp target => exact hgoto target r
          | jump c k target =>
            rw [exec, exec, hgoto, ih hn hm]
          | ret k => rfl

/-! ## One line at a time -/

variable (load) (lines) (r)

@[simp] theorem execute_label (l : ℓ) :
    execute load (.label l :: lines) r = execute load lines r := rfl

@[simp] theorem execute_and (k : BitVec 32) :
    execute load (.instr (.and k) :: lines) r = execute load lines { r with a := r.a &&& k } := rfl

@[simp] theorem execute_addX :
    execute load (.instr .addX :: lines) r = execute load lines { r with a := r.a + r.x } := rfl

@[simp] theorem execute_tax :
    execute load (.instr .tax :: lines) r = execute load lines { r with x := r.a } := rfl

@[simp] theorem execute_ret (k : BitVec 32) :
    execute load (.instr (.ret k) :: lines) r = some k := rfl

@[simp] theorem execute_jmp (target : ℓ) :
    execute load (.instr (.jmp target) :: lines) r = execute load (goto target lines) r :=
  exec_of_length_le (length_goto_le ..) (Nat.le_refl _)

@[simp] theorem execute_jump (c : Cond) (k : BitVec 32) (target : ℓ) :
    execute load (.instr (.jump c k target) :: lines) r =
      if c.holds r.a k = true then execute load (goto target lines) r
      else execute load lines r := by
  have hgoto : exec load lines.length (goto target lines) r = execute load (goto target lines) r :=
    exec_of_length_le (length_goto_le ..) (Nat.le_refl _)
  rw [← hgoto]
  rfl

@[simp] theorem execute_ld (offset : ℕ) :
    execute load (.instr (.ld offset) :: lines) r =
      (load offset).bind fun w ↦ execute load lines { r with a := w } := by
  unfold execute
  rw [List.length_cons, exec]
  cases load offset with
  | none => rfl
  | some w => rfl

end Cali.Lib.Bpf
