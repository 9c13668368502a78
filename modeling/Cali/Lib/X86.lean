import Cali.Lib.Memory

/-!
# Two instructions of x86-64

The part of the processor that a trampoline needs: loading a constant into the register `r11`,
and jumping to an address that is stored relative to the instruction pointer.
-/

namespace Cali.Lib.X86

variable {mem : ℕ → BitVec 8} {a : ℕ}

/-- `movabs $imm, %r11` and `jmpq *disp(%rip)`. -/
inductive Instruction
  | movabs (imm : BitVec 64)
  | jmpq (disp : BitVec 32)
deriving DecidableEq, Repr

structure Cpu where
  rip : BitVec 64
  r11 : BitVec 64
deriving DecidableEq, Repr

def Instruction.encode : Instruction → List (BitVec 8)
  | .movabs imm => [0x49, 0xbb] ++ leBytes 8 imm.toNat
  | .jmpq disp => [0xff, 0x25] ++ leBytes 4 disp.toNat

def decode (mem : ℕ → BitVec 8) (a : ℕ) : Option Instruction :=
  if read mem a 2 = [0x49, 0xbb] then
    some (.movabs (BitVec.ofNat 64 (leValue (read mem (a + 2) 8))))
  else if read mem a 2 = [0xff, 0x25] then
    some (.jmpq (BitVec.ofNat 32 (leValue (read mem (a + 2) 4))))
  else none

/-- The instruction pointer is past the instruction when the instruction is executed. -/
def step (mem : ℕ → BitVec 8) (c : Cpu) : Option Cpu :=
  (decode mem c.rip.toNat).map fun i ↦
    let next := c.rip + BitVec.ofNat 64 i.encode.length
    match i with
    | .movabs imm => ⟨next, imm⟩
    | .jmpq disp =>
      ⟨BitVec.ofNat 64 (leValue (read mem (next + disp.signExtend 64).toNat 8)), c.r11⟩

theorem ofNat_leValue_leBytes {n w : ℕ} (hw : w = 8 * n) (v : BitVec w) :
    BitVec.ofNat w (leValue (leBytes n v.toNat)) = v := by
  have hpow : 256 ^ n = 2 ^ w := by rw [hw, Nat.pow_mul]
  refine BitVec.eq_of_toNat_eq ?_
  rw [leValue_leBytes, hpow, BitVec.toNat_ofNat, Nat.mod_mod, Nat.mod_eq_of_lt v.isLt]

theorem load_of_stores {n w : ℕ} {v : BitVec w} (hw : w = 8 * n)
    (h : Stores mem a (leBytes n v.toNat)) : BitVec.ofNat w (leValue (read mem a n)) = v := by
  have hread : read mem a n = leBytes n v.toNat := by
    rwa [Stores, length_leBytes] at h
  rw [hread, ofNat_leValue_leBytes hw]

/-- **Decoding inverts encoding.** -/
theorem decode_of_stores {i : Instruction} (h : Stores mem a i.encode) :
    decode mem a = some i := by
  unfold decode
  cases i with
  | movabs imm =>
    obtain ⟨hopcode : read mem a 2 = [0x49, 0xbb], himm⟩ := stores_append.mp h
    rw [if_pos hopcode]
    exact congrArg (some ∘ Instruction.movabs) (load_of_stores rfl himm)
  | jmpq disp =>
    obtain ⟨hopcode : read mem a 2 = [0xff, 0x25], hdisp⟩ := stores_append.mp h
    have hne : read mem a 2 ≠ [0x49, 0xbb] := by
      rw [hopcode]
      decide
    rw [if_neg hne, if_pos hopcode]
    exact congrArg (some ∘ Instruction.jmpq) (load_of_stores rfl hdisp)

variable {c : Cpu}

theorem step_movabs {imm : BitVec 64} (h : Stores mem c.rip.toNat (Instruction.movabs imm).encode) :
    step mem c = some ⟨c.rip + 10, imm⟩ := by
  unfold step
  rw [decode_of_stores h]
  rfl

theorem step_jmpq {disp : BitVec 32} {target : BitVec 64}
    (h : Stores mem c.rip.toNat (Instruction.jmpq disp).encode)
    (htarget : Stores mem (c.rip + 6 + disp.signExtend 64).toNat (leBytes 8 target.toNat)) :
    step mem c = some ⟨target, c.r11⟩ := by
  unfold step
  rw [decode_of_stores h, ← load_of_stores rfl htarget]
  rfl

end Cali.Lib.X86
