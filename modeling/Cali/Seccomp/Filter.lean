import Mathlib.Algebra.Group.Nat.Defs
import Mathlib.Data.Nat.Notation
import Mathlib.Logic.Basic
import Cali.Lib.Bits
import Cali.Lib.Bpf

/-!
# The seccomp filters

The listings `syscall_filter_mprotect.bpf` and `syscall_filter_sequential.bpf`, and the
values that `seccomp.cpp` puts in for their `0x1234....` constants.  The filter looks at a
system call before the kernel does: at its number, at the address it comes from and at
its arguments.  Quantities of 64 bits are seen in halves.
-/

namespace Cali.Seccomp

open Cali.Lib Bpf

/-! ## The record and the constants -/

/-- `lower` -/
def lower (x : BitVec 64) : BitVec 32 := x.setWidth 32

/-- `higher` -/
def higher (x : BitVec 64) : BitVec 32 := (x >>> 32).setWidth 32

/-- The record of a system call that a filter reads. -/
structure SeccompData where
  nr : BitVec 32
  arch : BitVec 32
  instructionPointer : BitVec 64
  arg1 : BitVec 64
  arg2 : BitVec 64
  arg3 : BitVec 64
  arg4 : BitVec 64
  arg5 : BitVec 64
  arg6 : BitVec 64
deriving DecidableEq, Repr

/-- The word at an offset; numbers are stored with the lower half first. -/
def SeccompData.load (d : SeccompData) : ℕ → Option (BitVec 32)
  | 0 => some d.nr
  | 4 => some d.arch
  | 8 => some (lower d.instructionPointer)
  | 12 => some (higher d.instructionPointer)
  | 16 => some (lower d.arg1)
  | 20 => some (higher d.arg1)
  | 24 => some (lower d.arg2)
  | 28 => some (higher d.arg2)
  | 32 => some (lower d.arg3)
  | 36 => some (higher d.arg3)
  | 40 => some (lower d.arg4)
  | 44 => some (higher d.arg4)
  | 48 => some (lower d.arg5)
  | 52 => some (higher d.arg5)
  | 56 => some (lower d.arg6)
  | 60 => some (higher d.arg6)
  | _ => none

/-- What the linker says about the sections. -/
structure Sections where
  startTextMprotect : BitVec 64
  stopTextMprotect : BitVec 64
  startText : BitVec 64
  stopText : BitVec 64
deriving DecidableEq, Repr

def auditArchX8664 : BitVec 32 := 0xc000003e#32

def retAllow : BitVec 32 := 0x7fff0000#32

def retTrap : BitVec 32 := 0x00030000#32

def retKill : BitVec 32 := 0x00000000#32

def protWrite : BitVec 32 := 0x2#32

/-- `SHARED_MEMORY_FD` -/
def sharedMemoryFd : BitVec 32 := 1022#32

/-- The numbers of the system calls that the listings name. -/
inductive Syscall
  | write | mmap | mprotect | writev | dup | dup2 | sendfile | clone | fork | vfork | splice | tee
  | dup3 | pwritev
deriving DecidableEq, Repr

def Syscall.nr : Syscall → BitVec 32
  | write => 1
  | mmap => 9
  | mprotect => 10
  | writev => 20
  | dup => 32
  | dup2 => 33
  | sendfile => 40
  | clone => 56
  | fork => 57
  | vfork => 58
  | splice => 275
  | tee => 276
  | dup3 => 292
  | pwritev => 296

/-! ## The listings -/

/-- The labels of the listings. -/
inductive Label
  | mprotect | mprotectWrite | mprotectWrite2 | mprotectCheckPrivileged
  | restrictFdArg1 | restrictFdArg2 | restrictFdArg3 | restrictFdArg5 | good | bad
deriving DecidableEq, Repr

/-- A jump for a system call. -/
def onSyscall (s : Syscall) (target : Label) : Line Label := .instr (.jump .eq s.nr target)

/-- The lines of `restrict_fd_arg1` and its siblings, which load another argument each. -/
def restrictFd (l : Label) (offset : ℕ) : List (Line Label) :=
  [.label l, .instr (.ld offset), .instr (.jump .eq sharedMemoryFd .bad), .instr (.jmp .good)]

/-- The lines that both listings end with. -/
def ending : List (Line Label) :=
  [.label .good, .instr (.ret retAllow), .label .bad, .instr (.ret retTrap), .instr (.ret retKill)]

/-- The lines from `mprotect` to `mprotect_check_privileged`. -/
def mprotectLines (b : Sections) : List (Line Label) :=
  [.label .mprotect,
    .instr (.ld 32),
    .instr (.jump .set protWrite .mprotectWrite),
    .instr (.ret retAllow),
    .label .mprotectWrite,
    .instr (.ld 20),
    .instr (.and 0xffffff00#32),
    .instr (.jump .eq 0x00003f00#32 .mprotectCheckPrivileged),
    .instr (.ld 20),
    .instr (.jump .gt (higher b.stopText) .good),
    .instr (.jump .lt (higher b.stopText) .mprotectWrite2),
    .instr (.ld 16),
    .instr (.jump .ge (lower b.stopText) .good),
    .label .mprotectWrite2,
    .instr (.ld 20),
    .instr .tax,
    .instr (.ld 28),
    .instr .addX,
    .instr (.jump .lt (higher b.startText) .good),
    .instr (.jmp .bad),
    .label .mprotectCheckPrivileged,
    .instr (.ld 12),
    .instr (.jump .ne (higher b.startTextMprotect) .bad),
    .instr (.ld 8),
    .instr (.jump .lt (lower b.startTextMprotect) .bad),
    .instr (.jump .gt (lower b.stopTextMprotect) .bad),
    .instr (.jmp .good)]

/-- The lines in front of `mprotect`. -/
def dispatch : List (Line Label) :=
  [.instr (.ld 4),
    .instr (.jump .ne auditArchX8664 .bad),
    .instr (.ld 0),
    onSyscall .mprotect .mprotect,
    onSyscall .dup .restrictFdArg1,
    onSyscall .dup2 .restrictFdArg1,
    onSyscall .dup3 .restrictFdArg1,
    onSyscall .write .restrictFdArg1,
    onSyscall .writev .restrictFdArg1,
    onSyscall .pwritev .restrictFdArg1,
    onSyscall .sendfile .restrictFdArg1,
    onSyscall .splice .restrictFdArg3,
    onSyscall .tee .restrictFdArg2,
    onSyscall .mmap .restrictFdArg5,
    .instr (.jmp .good)]

/-- `syscall_filter_mprotect.bpf` -/
def syscallFilterMprotect (b : Sections) : List (Line Label) :=
  dispatch ++ mprotectLines b ++ restrictFd .restrictFdArg1 16 ++ restrictFd .restrictFdArg2 24 ++
    restrictFd .restrictFdArg3 32 ++ restrictFd .restrictFdArg5 48 ++ ending

/-- `syscall_filter_sequential.bpf` -/
def syscallFilterSequential : List (Line Label) :=
  [.instr (.ld 4),
    .instr (.jump .ne auditArchX8664 .bad),
    .instr (.ld 0),
    onSyscall .clone .bad,
    onSyscall .fork .bad,
    onSyscall .vfork .bad,
    .instr (.jmp .good)] ++ ending

/-- The decision of the filter of the mprotect mode about a system call. -/
def filter (b : Sections) (d : SeccompData) : Option (BitVec 32) :=
  run d.load (syscallFilterMprotect b)

/-- The decision of the filter of the sequential mode. -/
def filterSequential (d : SeccompData) : Option (BitVec 32) := run d.load syscallFilterSequential

/-! ## What the listings compute -/

/-- The argument that a system call passes a restricted descriptor in. -/
def Syscall.fdArg : Syscall → Option (SeccompData → BitVec 64)
  | dup | dup2 | dup3 | write | writev | pwritev | sendfile => some SeccompData.arg1
  | tee => some SeccompData.arg2
  | splice => some SeccompData.arg3
  | mmap => some SeccompData.arg5
  | mprotect | clone | fork | vfork => none

/-- The address is one of the shared memory, as `mprotect_write` sees it. -/
def Shared (addr : BitVec 64) : Prop := higher addr &&& 0xffffff00#32 = 0x00003f00#32

/-- What `mprotect_check_privileged` accepts. -/
def Privileged (b : Sections) (ip : BitVec 64) : Prop :=
  higher ip = higher b.startTextMprotect ∧ lower b.startTextMprotect ≤ lower ip ∧
    lower ip ≤ lower b.stopTextMprotect

/-- What is accepted behind `mprotect_write` for an address outside the shared memory. -/
def AvoidsText (b : Sections) (addr len : BitVec 64) : Prop :=
  higher b.stopText < higher addr ∨
    (higher addr = higher b.stopText ∧ lower b.stopText ≤ lower addr) ∨
    higher len + higher addr < higher b.startText

variable {b : Sections} {d : SeccompData}

theorem filter_of_arch (harch : d.arch ≠ auditArchX8664) : filter b d = some retTrap := by
  unfold filter run syscallFilterMprotect dispatch mprotectLines restrictFd ending onSyscall
  simp [goto, Cond.holds, SeccompData.load, harch]

/-- **Restricted descriptors**: the descriptor of the shared memory is refused. -/
theorem filter_of_fdArg {s : Syscall} {arg : SeccompData → BitVec 64} (harg : s.fdArg = some arg)
    (harch : d.arch = auditArchX8664) (hnr : d.nr = s.nr) :
    filter b d = some (if lower (arg d) = sharedMemoryFd then retTrap else retAllow) := by
  unfold filter run syscallFilterMprotect dispatch mprotectLines restrictFd ending onSyscall
  cases s <;> cases harg <;>
    simp [goto, Cond.holds, SeccompData.load, harch, hnr, Syscall.nr, apply_ite some]

theorem filter_of_other (harch : d.arch = auditArchX8664) (hmprotect : d.nr ≠ Syscall.mprotect.nr)
    (hother : ∀ s : Syscall, s.fdArg ≠ none → d.nr ≠ s.nr) : filter b d = some retAllow := by
  unfold filter run syscallFilterMprotect dispatch mprotectLines restrictFd ending onSyscall
  have hnr : ∀ s : Syscall, s.fdArg.isSome = true → d.nr ≠ s.nr :=
    fun s hs ↦ hother s (Option.isSome_iff_ne_none.mp hs)
  simp [goto, Cond.holds, SeccompData.load, harch, hmprotect, hnr .dup rfl, hnr .dup2 rfl,
    hnr .dup3 rfl, hnr .write rfl, hnr .writev rfl, hnr .pwritev rfl, hnr .sendfile rfl,
    hnr .splice rfl, hnr .tee rfl, hnr .mmap rfl]

/-- The lines from `mprotect` on, as a decision tree. -/
theorem filter_mprotect_eq (harch : d.arch = auditArchX8664)
    (hnr : d.nr = Syscall.mprotect.nr) :
    filter b d = some
      (if lower d.arg3 &&& protWrite = 0 then retAllow
      else if higher d.arg1 &&& 0xffffff00#32 = 0x00003f00#32 then
        if higher d.instructionPointer ≠ higher b.startTextMprotect then retTrap
        else if lower d.instructionPointer < lower b.startTextMprotect then retTrap
        else if lower b.stopTextMprotect < lower d.instructionPointer then retTrap
        else retAllow
      else if higher b.stopText < higher d.arg1 then retAllow
      else if ¬ higher d.arg1 < higher b.stopText ∧ lower b.stopText ≤ lower d.arg1 then retAllow
      else if higher d.arg2 + higher d.arg1 < higher b.startText then retAllow
      else retTrap) := by
  unfold filter run syscallFilterMprotect dispatch mprotectLines restrictFd ending onSyscall
  by_cases hle : higher d.arg1 < higher b.stopText
  · simp [goto, Cond.holds, SeccompData.load, harch, hnr, hle, apply_ite some]
  · simp [goto, Cond.holds, SeccompData.load, harch, hnr, hle, apply_ite some]

/-- **Calls of mprotect** that pass. -/
theorem filter_mprotect_iff (harch : d.arch = auditArchX8664)
    (hnr : d.nr = Syscall.mprotect.nr) :
    filter b d = some retAllow ↔ lower d.arg3 &&& protWrite = 0 ∨
      (Shared d.arg1 ∧ Privileged b d.instructionPointer) ∨
      (¬ Shared d.arg1 ∧ AvoidsText b d.arg1 d.arg2) := by
  have htrap : retTrap ≠ retAllow := by decide
  rw [filter_mprotect_eq harch hnr, Option.some_inj]
  unfold Shared Privileged AvoidsText
  by_cases hwrite : lower d.arg3 &&& protWrite = 0
  · simp [hwrite]
  by_cases hshared : higher d.arg1 &&& 0xffffff00#32 = 0x00003f00#32
  · simp only [hwrite, hshared, ↓reduceIte]
    grind
  · simp only [hwrite, hshared, ↓reduceIte]
    grind

/-- **What passes**, of all system calls. -/
theorem filter_allows_iff :
    filter b d = some retAllow ↔ d.arch = auditArchX8664 ∧
      (d.nr = Syscall.mprotect.nr → lower d.arg3 &&& protWrite = 0 ∨
        (Shared d.arg1 ∧ Privileged b d.instructionPointer) ∨
        (¬ Shared d.arg1 ∧ AvoidsText b d.arg1 d.arg2)) ∧
      ∀ s arg, Syscall.fdArg s = some arg → d.nr = s.nr → lower (arg d) ≠ sharedMemoryFd := by
  have htrap : some retTrap ≠ some retAllow := by decide
  constructor
  · intro h
    have harch : d.arch = auditArchX8664 :=
      by_contra fun harch ↦ htrap ((filter_of_arch harch).symm.trans h)
    refine ⟨harch, fun hnr ↦ (filter_mprotect_iff harch hnr).mp h, fun s arg harg hnr hfd ↦ ?_⟩
    rw [filter_of_fdArg harg harch hnr, if_pos hfd] at h
    exact htrap h
  · rintro ⟨harch, hmprotect, hfd⟩
    by_cases hnr : d.nr = Syscall.mprotect.nr
    · exact (filter_mprotect_iff harch hnr).mpr (hmprotect hnr)
    by_cases hother : ∃ s arg, Syscall.fdArg s = some arg ∧ d.nr = s.nr
    · obtain ⟨s, arg, harg, hs⟩ := hother
      rw [filter_of_fdArg harg harch hs, if_neg (hfd s arg harg hs)]
    · refine filter_of_other harch hnr fun s hs heq ↦ hother ?_
      obtain ⟨arg, harg⟩ := Option.ne_none_iff_exists'.mp hs
      exact ⟨s, arg, harg, heq⟩

theorem filterSequential_eq :
    filterSequential d = some (if d.arch = auditArchX8664 ∧ d.nr ≠ Syscall.clone.nr ∧
      d.nr ≠ Syscall.fork.nr ∧ d.nr ≠ Syscall.vfork.nr then retAllow else retTrap) := by
  unfold filterSequential run syscallFilterSequential ending onSyscall
  by_cases harch : d.arch = auditArchX8664
  · by_cases hclone : d.nr = Syscall.clone.nr
    · simp [goto, Cond.holds, SeccompData.load, harch, hclone]
    by_cases hfork : d.nr = Syscall.fork.nr
    · simp [goto, Cond.holds, SeccompData.load, harch, hfork]
    simp [goto, Cond.holds, SeccompData.load, harch, hclone, hfork, apply_ite some]
  · simp [goto, Cond.holds, SeccompData.load, harch]

/-! ## The halves as numbers -/

theorem toNat_lower (x : BitVec 64) : (lower x).toNat = x.toNat % 2 ^ 32 :=
  BitVec.toNat_setWidth ..

theorem toNat_higher (x : BitVec 64) : (higher x).toNat = x.toNat / 2 ^ 32 := by
  have hlt := x.isLt
  rw [higher, BitVec.toNat_setWidth, BitVec.toNat_ushiftRight, Nat.shiftRight_eq_div_pow]
  omega

/-- The shared memory is from `0x3f0000000000` to `0x400000000000`. -/
theorem shared_iff {addr : BitVec 64} :
    Shared addr ↔ 0x3f0000000000 ≤ addr.toNat ∧ addr.toNat < 0x400000000000 := by
  have hmask : 0xffffff00#32 = BitVec.allOnes 32 <<< 8 := by decide
  have hquot : Shared addr ↔ (higher addr).toNat / 2 ^ 8 = 0x3f := by
    unfold Shared
    rw [hmask]
    exact and_allOnes_shiftLeft_eq_iff rfl
  rw [hquot, toNat_higher]
  omega

/-- With equal upper halves the check is one of the whole address, but for the end. -/
theorem privileged_iff {ip : BitVec 64}
    (hhalves : higher b.startTextMprotect = higher b.stopTextMprotect) :
    Privileged b ip ↔
      b.startTextMprotect.toNat ≤ ip.toNat ∧ ip.toNat ≤ b.stopTextMprotect.toNat := by
  have hnat := congrArg BitVec.toNat hhalves
  unfold Privileged
  simp only [← BitVec.toNat_inj, BitVec.le_def, toNat_lower, toNat_higher] at hnat ⊢
  omega

/-- The end of the text is compared with the whole address, the start only with the sum
of the upper halves. -/
theorem avoidsText_iff {addr len : BitVec 64} :
    AvoidsText b addr len ↔ b.stopText.toNat ≤ addr.toNat ∨
      (addr.toNat / 2 ^ 32 + len.toNat / 2 ^ 32) % 2 ^ 32 < b.startText.toNat / 2 ^ 32 := by
  unfold AvoidsText
  simp only [← BitVec.toNat_inj, BitVec.le_def, BitVec.lt_def, BitVec.toNat_add, toNat_lower,
    toNat_higher]
  omega

/-- The bit of `PROT_WRITE` is in the lower half. -/
theorem writeBit_iff {prot : BitVec 64} :
    lower prot &&& protWrite = 0 ↔ prot &&& 0x2#64 = 0 := by
  have hle : (prot &&& 0x2#64).toNat ≤ 2 := by
    rw [BitVec.toNat_and]
    exact Nat.and_le_right
  have hlower : lower prot &&& protWrite = lower (prot &&& 0x2#64) := by
    unfold lower
    rw [BitVec.setWidth_and]
    rfl
  rw [hlower, ← BitVec.toNat_inj, ← BitVec.toNat_inj, toNat_lower]
  change _ = 0 ↔ _ = 0
  omega

/-! ## Writable memory -/

/-- A call of mprotect that asks for writable memory, of a range that does not wrap. -/
structure SeccompData.MakesWritable (d : SeccompData) : Prop where
  arch : d.arch = auditArchX8664
  nr : d.nr = Syscall.mprotect.nr
  prot : d.arg3 &&& 0x2#64 ≠ 0
  noWrap : d.arg1.toNat + d.arg2.toNat ≤ 2 ^ 64

/-- The range of the call has an address in common with `[start, stop)`. -/
def SeccompData.Touches (d : SeccompData) (start stop : ℕ) : Prop :=
  ∃ a, d.arg1.toNat ≤ a ∧ a < d.arg1.toNat + d.arg2.toNat ∧ start ≤ a ∧ a < stop

theorem SeccompData.touches_iff {start stop : ℕ} :
    d.Touches start stop ↔
      d.arg1.toNat < stop ∧ start < d.arg1.toNat + d.arg2.toNat ∧ 0 < d.arg2.toNat ∧
        start < stop := by
  constructor
  · rintro ⟨a, hle, hlt, hstart, hstop⟩
    omega
  · rintro ⟨hstop, hstart, hpos, hlt⟩
    exact ⟨max d.arg1.toNat start, by omega, by omega, by omega, by omega⟩

theorem filter_makesWritable_iff (h : d.MakesWritable) :
    filter b d = some retAllow ↔
      (Shared d.arg1 ∧ Privileged b d.instructionPointer) ∨
      (¬ Shared d.arg1 ∧ AvoidsText b d.arg1 d.arg2) := by
  rw [filter_mprotect_iff h.arch h.nr, writeBit_iff, or_iff_right h.prot]

/-- **The shared memory is guarded**: a call that makes a part of it writable and passes
comes from the section `text_mprotect`. -/
def GuardsSharedMemory (b : Sections) (d : SeccompData) : Prop :=
  filter b d = some retAllow → d.MakesWritable → d.Touches 0x3f0000000000 0x400000000000 →
    b.startTextMprotect.toNat ≤ d.instructionPointer.toNat ∧
      d.instructionPointer.toNat < b.stopTextMprotect.toNat

/-- The condition for it.  A call for a range that starts in the shared memory does not come
from the very end of the section; and one for a range that starts below and reaches the
shared memory comes from the section, or it starts below the end of the text and the sum
of the upper halves is not below that of the start of the text. -/
def SharedMemorySafe (b : Sections) (d : SeccompData) : Prop :=
  d.MakesWritable →
    (0x3f0000000000 ≤ d.arg1.toNat → d.arg1.toNat < 0x400000000000 → 0 < d.arg2.toNat →
      d.instructionPointer = b.stopTextMprotect →
      b.stopTextMprotect.toNat < b.startTextMprotect.toNat) ∧
    (d.arg1.toNat < 0x3f0000000000 → 0x3f0000000000 < d.arg1.toNat + d.arg2.toNat →
      (b.startTextMprotect.toNat ≤ d.instructionPointer.toNat ∧
        d.instructionPointer.toNat < b.stopTextMprotect.toNat) ∨
      (d.arg1.toNat < b.stopText.toNat ∧ b.startText.toNat / 2 ^ 32 ≤
        (d.arg1.toNat / 2 ^ 32 + d.arg2.toNat / 2 ^ 32) % 2 ^ 32))

theorem guardsSharedMemory_iff
    (hhalves : higher b.startTextMprotect = higher b.stopTextMprotect) :
    GuardsSharedMemory b d ↔ SharedMemorySafe b d := by
  unfold GuardsSharedMemory SharedMemorySafe
  rw [imp.swap]
  refine imp_congr_right fun hcall ↦ ?_
  rw [filter_makesWritable_iff hcall, SeccompData.touches_iff, shared_iff,
    privileged_iff hhalves, avoidsText_iff, ← BitVec.toNat_inj]
  have hwrap := hcall.noWrap
  constructor
  · intro h
    refine ⟨fun hlo hhi hpos hip ↦ ?_, fun hlo hreach ↦ ?_⟩
    · refine Nat.lt_of_not_le fun hle ↦ ?_
      have hinside := h (Or.inl ⟨⟨hlo, hhi⟩, by omega⟩) ⟨hhi, by omega, hpos, by omega⟩
      omega
    · refine or_iff_not_imp_right.mpr fun hrefused ↦ ?_
      exact h (Or.inr ⟨by omega, by omega⟩) ⟨by omega, hreach, by omega, by omega⟩
  · rintro ⟨hin, hbelow⟩ hallow ⟨hend, hstart, hpos, -⟩
    rcases hallow with ⟨⟨hlo, hhi⟩, hip⟩ | ⟨hout, havoid⟩
    · have hlast := hin hlo hhi hpos
      omega
    · -- the range starts outside of the shared memory, so below it
      have hlo : d.arg1.toNat < 0x3f0000000000 := by omega
      rcases hbelow hlo hstart with hinside | hrefused
      · exact hinside
      · omega

/-- Sections of a program that is not position independent. -/
def lowSections : Sections := ⟨0x480000, 0x480100, 0x400000, 0x500000⟩

/-- A call from `text_mprotect` for the first page of the shared memory. -/
def protectFirst : SeccompData :=
  ⟨Syscall.mprotect.nr, auditArchX8664, 0x480010, 0x3f0000000000, 0x1000, 3, 0, 0, 0⟩

theorem guardsSharedMemory_protectFirst :
    filter lowSections protectFirst = some retAllow ∧ protectFirst.MakesWritable ∧
      GuardsSharedMemory lowSections protectFirst := by
  refine ⟨by decide +kernel, ⟨rfl, rfl, by decide, by decide⟩,
    (guardsSharedMemory_iff (by decide)).mpr fun _ ↦ ⟨fun _ _ _ hip ↦ ?_, fun hlo _ ↦ ?_⟩⟩
  · exact absurd hip (by decide)
  · exact absurd hlo (by decide)

/-- A call from elsewhere for two pages, the second one the first of the shared memory. -/
def protectBefore : SeccompData :=
  ⟨Syscall.mprotect.nr, auditArchX8664, 0x401000, 0x3efffffff000, 0x2000, 3, 0, 0, 0⟩

/-- The check of the address does not see where the range ends. -/
theorem not_guardsSharedMemory_protectBefore :
    ¬ ∀ b d, higher b.startTextMprotect = higher b.stopTextMprotect → GuardsSharedMemory b d := by
  intro hall
  have hinside := hall lowSections protectBefore (by decide) (by decide +kernel)
    ⟨rfl, rfl, by decide, by decide⟩ (SeccompData.touches_iff.mpr (by decide))
  exact absurd hinside.1 (by decide)

/-- **The text is kept read-only**: a call that makes memory writable and passes does not
touch the text, unless it is for the shared memory. -/
def KeepsTextReadOnly (b : Sections) (d : SeccompData) : Prop :=
  filter b d = some retAllow → d.MakesWritable →
    ¬ (0x3f0000000000 ≤ d.arg1.toNat ∧ d.arg1.toNat < 0x400000000000) →
    ¬ d.Touches b.startText.toNat b.stopText.toNat

/-- The condition for it, where the text is not empty.  The sum of the lower halves has no
carry that brings the end of the range into the first 4 GiB of the text, behind its start;
and the range does not go from below the end of the text to the end of all addresses, with
upper halves that add up to zero. -/
def TextSafe (b : Sections) (d : SeccompData) : Prop :=
  d.MakesWritable → ¬ (0x3f0000000000 ≤ d.arg1.toNat ∧ d.arg1.toNat < 0x400000000000) →
    b.startText.toNat < b.stopText.toNat →
    ¬ (d.arg1.toNat / 2 ^ 32 + d.arg2.toNat / 2 ^ 32 + 1 = b.startText.toNat / 2 ^ 32 ∧
        2 ^ 32 + b.startText.toNat % 2 ^ 32 < d.arg1.toNat % 2 ^ 32 + d.arg2.toNat % 2 ^ 32) ∧
      ¬ (d.arg1.toNat / 2 ^ 32 + d.arg2.toNat / 2 ^ 32 = 2 ^ 32 ∧
        2 ^ 32 ≤ b.startText.toNat ∧ d.arg1.toNat < b.stopText.toNat)

theorem keepsTextReadOnly_iff : KeepsTextReadOnly b d ↔ TextSafe b d := by
  unfold KeepsTextReadOnly TextSafe
  rw [imp.swap]
  refine imp_congr_right fun hcall ↦ ?_
  rw [filter_makesWritable_iff hcall, SeccompData.touches_iff, shared_iff, avoidsText_iff]
  have hwrap := hcall.noWrap
  have hstart := b.startText.isLt
  have hlen := d.arg2.isLt
  rw [imp.swap]
  refine imp_congr_right fun hout ↦ ?_
  rw [or_iff_right fun h ↦ hout h.1, and_iff_right hout]
  constructor
  · intro h htext
    refine ⟨fun hcarry ↦ ?_, fun hwhole ↦ ?_⟩
    · exact h (Or.inr (by omega)) ⟨by omega, by omega, by omega, htext⟩
    · exact h (Or.inr (by omega)) ⟨hwhole.2.2, by omega, by omega, htext⟩
  · rintro h havoid ⟨hbefore, hreach, hpos, htext⟩
    obtain ⟨hcarry, hwhole⟩ := h htext
    -- the upper halves add up to at most `2 ^ 32`, because the range does not wrap
    have hsum : d.arg1.toNat / 2 ^ 32 + d.arg2.toNat / 2 ^ 32 ≤ 2 ^ 32 := by omega
    omega

/-- Sections of a position independent program. -/
def highSections : Sections :=
  ⟨0x555555580000, 0x555555580100, 0x555555554000, 0x555555600000⟩

/-- A call for a range of more than 1 GiB that ends with the first page of the text. -/
def protectCarry : SeccompData :=
  ⟨Syscall.mprotect.nr, auditArchX8664, 0x555555560000, 0x5554fffff000, 0x55556000, 3, 0, 0, 0⟩

/-- The carry of the lower halves is lost. -/
theorem not_keepsTextReadOnly_protectCarry :
    ¬ ∀ b d, b.startText.toNat ≤ b.stopText.toNat → KeepsTextReadOnly b d := by
  intro hall
  exact hall highSections protectCarry (by decide) (by decide +kernel)
    ⟨rfl, rfl, by decide, by decide⟩ (by decide) (SeccompData.touches_iff.mpr (by decide))

end Cali.Seccomp
