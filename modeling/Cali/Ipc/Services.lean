import Mathlib.Algebra.Group.Nat.Defs
import Mathlib.Algebra.Order.Group.Int
import Mathlib.Logic.Function.Basic
import Mathlib.Logic.Relation
import Mathlib.Tactic.Set
import Cali.Ipc.Callbacks
import Cali.Lib.Bits

/-!
# Internal services

The requests with the codes 3 to 8 ask a process for something that only it can do for
itself: to follow a growth of the shared memory, to map memory, to set the size of the
shared memory file, to receive or to close a file descriptor, and to install a signal
handler.  The services are in `shared_memory_manager.cpp`, `file_descriptor_manager.cpp`
and `signals.cpp`.  Their arguments come from the other process, which is not trusted.

The state has what a service can damage: the address space, the file descriptors, and
the tables of the `FileDescriptorMapping` objects.  An object is whatever is at the address
that a request names, and the tables go on in both directions, since the code does not
check the indices.  What the kernel does is an input of a service; a `Kernel` says where it may
map memory for given arguments, and `CanExtend` when it may extend the shared memory.

The handler of a signal is a function pointer, so the code that unpacks the request makes a
trampoline for it first, on a page that it maps if there is no room left.
-/

namespace Cali.Ipc.Services

open Cali.Lib

/-! ## The regions -/

/-- `shm_shared_memory_mask` -/
def sharedMemoryMask : BitVec 64 := 0xffffff0000000000#64

/-- `shm_shared_memory_base` -/
def sharedMemoryBase : BitVec 64 := 0x3f0000000000#64

/-- `shm_shared_memory_file` -/
def sharedMemoryFile : BitVec 64 := 0x3e0000000000#64

/-- `shm_is_shared_memory_pointer` -/
def shmIsSharedMemoryPointer (p : BitVec 64) : Bool := p &&& sharedMemoryMask == sharedMemoryBase

/-- `shm_is_shared_file_pointer` -/
def shmIsSharedFilePointer (p : BitVec 64) : Bool := p &&& sharedMemoryMask == sharedMemoryFile

/-- The range is wholly inside the shared memory or wholly inside the shared files. -/
def InRegion (start length : ℕ) : Prop :=
  (∀ a, start ≤ a → a < start + length → shmIsSharedMemoryPointer (.ofNat 64 a) = true) ∨
    ∀ a, start ≤ a → a < start + length → shmIsSharedFilePointer (.ofNat 64 a) = true

/-! ## The state of a process -/

/-- What is mapped at an address: the arguments `mmap` was called with. -/
structure Area where
  prot : BitVec 32
  flags : BitVec 32
  fd : ℤ
  offset : BitVec 64
deriving DecidableEq, Repr

/-- `local_to_remote_fd` and `local_to_remote_pid`, with what is before and behind them. -/
structure Table where
  fd : ℤ → ℤ
  pid : ℤ → ℤ

/-- What the services print. -/
inductive Complaint
  | invalidAddress (addr : BitVec 64)
  | openedByOther (fd pid : ℤ)
deriving DecidableEq, Repr

/-- A process.  `recvfd p` is what `recvfd` returns for the socket of the object at `p`:
the number of the next descriptor that has been sent over it, or -1. -/
structure Process where
  memory : ℕ → Option Area
  descriptors : ℤ → Bool
  mappings : List (BitVec 64)
  tables : BitVec 64 → Table
  recvfd : BitVec 64 → ℤ
  handlers : ℤ → BitVec 64
  hasForked : Bool
  pid : ℤ
  base : ℕ
  sharedSize : ℕ
  currentMappedSize : ℕ
  fileSize : ℕ
  exited : Bool
  stderr : List Complaint
  trampolines : BitVec 64
  remainingTrampolinBytes : BitVec 32

/-- `FileDescriptor_NOTSET` -/
def notSet : ℤ := -1

/-- `FileDescriptor_MAXFD` -/
def maxFd : ℤ := 256

/-- The index is inside of the tables. -/
def InTable (i : ℤ) : Prop := 0 ≤ i ∧ i < maxFd

instance (i : ℤ) : Decidable (InTable i) := inferInstanceAs (Decidable (_ ∧ _))

/-! ## The kernel -/

def pageSize : ℕ := 4096

/-- The end of the addresses a process can map. -/
def taskSize : ℕ := 2 ^ 47 - pageSize

/-- Memory is mapped in pages. -/
def roundUp (n : ℕ) : ℕ := (n + pageSize - 1) / pageSize * pageSize

/-- The flag `MAP_FIXED`. -/
def mapFixed : BitVec 32 := 0x10#32

/-- The flags `MAP_PRIVATE` and `MAP_ANONYMOUS`. -/
def mapPrivateAnonymous : BitVec 32 := 0x22#32

/-- Nothing is mapped in the range. -/
def Process.Free (s : Process) (start length : ℕ) : Prop :=
  ∀ a, start ≤ a → a < start + length → s.memory a = none

/-- Where `mmap` may map memory, for an address, a length and all flags: `n` bytes at `r`.  It is
never empty, is inside of the address space, and replaces nothing without `MAP_FIXED`. -/
structure Kernel where
  Maps : Process → (addr length : ℕ) → (flags : BitVec 32) → (r n : ℕ) → Prop
  pos : ∀ {s addr length flags r n}, Maps s addr length flags r n → 0 < n
  le_taskSize : ∀ {s addr length flags r n}, Maps s addr length flags r n → r + n ≤ taskSize
  free : ∀ {s addr length flags r n}, Maps s addr length flags r n → flags &&& mapFixed = 0 →
    s.Free r n

namespace Process

variable (s : Process)

/-- `mremap` may extend the mapping of the shared memory where it is. -/
def CanExtend : Prop :=
  s.memory s.base ≠ none ∧ s.base + roundUp s.sharedSize ≤ taskSize ∧
    s.Free (s.base + roundUp s.currentMappedSize)
      (roundUp s.sharedSize - roundUp s.currentMappedSize)

/-- The range is mapped. -/
def map (start length : ℕ) (area : Option Area) : Process :=
  { s with memory := fun a ↦ if start ≤ a ∧ a < start + length then area else s.memory a }

/-! ## The services -/

/-- `internal_remap_shm`; the result of `mremap` is the address of the mapping. -/
def internalRemapShm (result : Option ℕ) : Process :=
  if s.currentMappedSize < s.sharedSize then
    if result = some s.base then
      { s with currentMappedSize := s.sharedSize }.map (s.base + roundUp s.currentMappedSize)
        (roundUp s.sharedSize - roundUp s.currentMappedSize) (s.memory s.base)
    else { s with exited := true }
  else s

/-- `internal_mmap`, with the range that is mapped; no result is `MAP_FAILED`.  The length and the
flags only go to `mmap`. -/
def internalMmap (addr : BitVec 64) (area : Area) (result : Option (ℕ × ℕ)) :
    Process × Option (ℕ × ℕ) :=
  if addr = 0 ∨ (¬ shmIsSharedMemoryPointer addr = true ∧ ¬ shmIsSharedFilePointer addr = true) then
    ({ s with stderr := .invalidAddress addr :: s.stderr }, none)
  else
    match result with
    | none => (s, none)
    | some (r, n) => (s.map r n (some area), some (r, n))

/-- `internal_setSharedFDSize`, when `ftruncate` succeeds. -/
def internalSetSharedFdSize : Process := { s with fileSize := s.sharedSize }

/-- `FileDescriptorMapping::fromOtherSide` -/
def fromOtherSide (this : BitVec 64) (remoteFd pid : ℤ) : Process × ℤ :=
  let localFd := s.recvfd this
  let t := s.tables this
  ({ s with
    descriptors := if 0 ≤ localFd then Function.update s.descriptors localFd true
      else s.descriptors
    tables := Function.update s.tables this
      ⟨Function.update t.fd localFd remoteFd, Function.update t.pid localFd pid⟩ }, localFd)

/-- `internal_receive_fd` -/
def internalReceiveFd (fileDescriptorMapping : BitVec 64) (fd pid : ℤ) : Process × ℤ :=
  s.fromOtherSide fileDescriptorMapping fd pid

end Process

/-- `onCloseLocal`, without propagation. -/
def Table.onCloseLocal (t : Table) (fd : ℤ) : Table :=
  if 0 ≤ fd ∧ t.fd fd ≠ notSet then { t with fd := Function.update t.fd fd notSet } else t

namespace Process

variable (s : Process)

/-- `onClose`, without propagation. -/
def onClose (fd : ℤ) : Process :=
  if s.hasForked = true ∧ 0 ≤ fd then
    { s with tables := fun p ↦ if p ∈ s.mappings then (s.tables p).onCloseLocal fd else s.tables p }
  else s

/-- `internal_close_fd` -/
def internalCloseFd (localFd openedByPid : ℤ) : Process :=
  let complaint := if s.hasForked = true ∧ 0 ≤ localFd ∧ 0 < openedByPid ∧ openedByPid ≠ s.pid
    then [.openedByOther localFd openedByPid] else []
  let s := { s with stderr := complaint ++ s.stderr }.onClose localFd
  { s with descriptors := Function.update s.descriptors localFd false }

/-- The test of `wrap_incoming_callback` for a new page -/
def NeedsPage : Prop :=
  s.trampolines = 0 ∨
    (s.remainingTrampolinBytes.signExtend 64).toNat < Callbacks.trampolineSize

instance : Decidable s.NeedsPage := inferInstanceAs (Decidable (_ ∨ _))

/-- The page for trampolines has been mapped; it can be read, written and executed. -/
def mapTrampolines (r n : ℕ) : Process :=
  { s.map r n (some ⟨7, mapPrivateAnonymous, -1, 0⟩) with
    trampolines := .ofNat 64 r
    remainingTrampolinBytes := .ofNat 32 pageSize }

/-- Room for one trampoline is taken. -/
def takeTrampoline : Process :=
  { s with
    trampolines := s.trampolines + .ofNat 64 Callbacks.trampolineSize
    remainingTrampolinBytes := s.remainingTrampolinBytes - .ofNat 32 Callbacks.trampolineSize }

/-- `wrap_incoming_callback`: the process and the function pointer.  Writing a trampoline to
`MAP_FAILED` ends the process. -/
def wrapIncomingCallback (callback : BitVec 64) (result : Option (ℕ × ℕ)) :
    Process × BitVec 64 :=
  if Callbacks.callbackNeedsWrapping callback = false then (s, callback)
  else if s.NeedsPage then
    match result with
    | none => ({ s with exited := true }, 0)
    | some (r, n) => ((s.mapTrampolines r n).takeTrampoline, .ofNat 64 r)
  else (s.takeTrampoline, s.trampolines)

/-- `internal_signal` -/
def internalSignal (signum : ℤ) (handler : BitVec 64) : Process :=
  { s with handlers := Function.update s.handlers signum handler }

/-- The case of `internal_signal` in `process_ipc_call`, which unpacks the handler; a process
that has ended installs nothing.  What is sent back is a number for the old handler. -/
def handleSignal (signum : ℤ) (handler : BitVec 64) (result : Option (ℕ × ℕ)) : Process :=
  let r := s.wrapIncomingCallback handler result
  if r.1.exited = true then r.1 else r.1.internalSignal signum r.2

end Process

/-- The requests with the codes 3 to 8. -/
inductive Request
  | remapShm
  | mmap (addr length : BitVec 64) (area : Area)
  | setSharedFdSize
  | receiveFd (fileDescriptorMapping : BitVec 64) (fd pid : ℤ)
  | closeFd (localFd openedByPid : ℤ)
  | signal (signum : ℤ) (handler : BitVec 64)
deriving DecidableEq, Repr

namespace Process

variable (s : Process)

/-- The process after a request, and the range that `internal_mmap` maps.  The result is what
the kernel answers to `mmap` or `mremap`. -/
def serve (result : Option (ℕ × ℕ)) : Request → Process × Option (ℕ × ℕ)
  | .remapShm => (s.internalRemapShm (result.map Prod.fst), none)
  | .mmap addr _ area => s.internalMmap addr area result
  | .setSharedFdSize => (s.internalSetSharedFdSize, none)
  | .receiveFd mapping fd pid => ((s.internalReceiveFd mapping fd pid).1, none)
  | .closeFd localFd openedByPid => (s.internalCloseFd localFd openedByPid, none)
  | .signal signum handler => (s.handleSignal signum handler result, none)

/-- The kernel may answer the request with the result. -/
def Permits (k : Kernel) (result : Option (ℕ × ℕ)) : Request → Prop
  | .remapShm => result.map Prod.fst = some s.base → s.CanExtend
  | .mmap addr length area =>
    ∀ r n, result = some (r, n) → k.Maps s addr.toNat length.toNat area.flags r n
  | .signal _ _ => ∀ r n, result = some (r, n) → k.Maps s 0 pageSize mapPrivateAnonymous r n
  | _ => True

end Process

/-! ## Confinement -/

namespace Process

variable (s : Process)

/-- A table of a registered mapping has an entry for the descriptor. -/
def Recorded (fd : ℤ) : Prop := InTable fd ∧ ∃ p ∈ s.mappings, (s.tables p).fd fd ≠ notSet

/-- The effect that a request may have, where `out` is what `serve` gives.  Mapped memory is
inside of one of the regions; a descriptor is closed that is recorded, and its entries are
taken out; a received descriptor is entered into the tables of a registered mapping. -/
def Allowed (out : Process × Option (ℕ × ℕ)) : Request → Prop
  | .mmap _ _ _ =>
    out.1.descriptors = s.descriptors ∧ out.1.tables = s.tables ∧
      ((out.2 = none ∧ out.1.memory = s.memory) ∨
        ∃ r n, out.2 = some (r, n) ∧ InRegion r n ∧
          ∀ a, a < r ∨ r + n ≤ a → out.1.memory a = s.memory a)
  | .closeFd fd _ =>
    out.1.memory = s.memory ∧
      (∀ d, out.1.descriptors d ≠ s.descriptors d → d = fd ∧ s.Recorded fd) ∧
      ∀ p, (out.1.tables p).pid = (s.tables p).pid ∧
        ∀ i, (out.1.tables p).fd i ≠ (s.tables p).fd i → p ∈ s.mappings ∧ i = fd ∧ InTable i
  | .receiveFd mapping _ _ =>
    out.1.memory = s.memory ∧
      (∀ d, out.1.descriptors d ≠ s.descriptors d →
        d = s.recvfd mapping ∧ s.descriptors d = false) ∧
      ∀ p i, ¬ (p ∈ s.mappings ∧ InTable i) →
        (out.1.tables p).fd i = (s.tables p).fd i ∧ (out.1.tables p).pid i = (s.tables p).pid i
  | _ =>
    out.1.memory = s.memory ∧ out.1.descriptors = s.descriptors ∧ out.1.tables = s.tables

/-- **Confinement**: whatever the kernel answers, the effect of the request is allowed. -/
def Confined (k : Kernel) (request : Request) : Prop :=
  ∀ result, s.Permits k result request → s.Allowed (s.serve result request) request

/-- The condition for it.  There is nothing to be remapped or the kernel cannot; the address
is refused or the kernel can map the pages only inside one region; a closed descriptor is
recorded, and its number does not lead out of the tables; the mapping is registered and the
received number is inside of its tables, unless the words there have these values already; no
trampoline is made for the handler, or there is room for it, or no page for it. -/
def Safe (k : Kernel) : Request → Prop
  | .remapShm => roundUp s.sharedSize ≤ roundUp s.currentMappedSize ∨ ¬ s.CanExtend
  | .mmap addr length area =>
    addr = 0 ∨ (¬ shmIsSharedMemoryPointer addr = true ∧ ¬ shmIsSharedFilePointer addr = true) ∨
      ∀ r n, k.Maps s addr.toNat length.toNat area.flags r n →
        (r / 2 ^ 40 = 0x3f ∨ r / 2 ^ 40 = 0x3e) ∧ r % 2 ^ 40 + n ≤ 2 ^ 40
  | .setSharedFdSize => True
  | .receiveFd mapping fd pid =>
    (mapping ∈ s.mappings ∧ InTable (s.recvfd mapping)) ∨
      ((s.tables mapping).fd (s.recvfd mapping) = fd ∧
        (s.tables mapping).pid (s.recvfd mapping) = pid)
  | .closeFd fd _ =>
    (s.descriptors fd = true → s.Recorded fd) ∧
      (s.hasForked = true → maxFd ≤ fd → ∀ p ∈ s.mappings, (s.tables p).fd fd = notSet)
  | .signal _ handler =>
    Callbacks.callbackNeedsWrapping handler = false ∨ ¬ s.NeedsPage ∨
      ∀ r n, ¬ k.Maps s 0 pageSize mapPrivateAnonymous r n

end Process

/-! ### The regions as numbers -/

/-- A range has all its addresses in the same block of `2 ^ 40`. -/
theorem forall_div_eq_iff {start length k : ℕ} (hlength : 0 < length) :
    (∀ a, start ≤ a → a < start + length → a / 2 ^ 40 = k) ↔
      start / 2 ^ 40 = k ∧ start % 2 ^ 40 + length ≤ 2 ^ 40 := by
  constructor
  · intro h
    have hfirst := h start (Nat.le_refl _) (by omega)
    have hlast := h (start + length - 1) (by omega) (by omega)
    omega
  · rintro ⟨hstart, hlen⟩ a hle hlt
    omega

theorem forall_mask_iff {start length k : ℕ} (base : BitVec 64) (hbase : base.toNat = k * 2 ^ 40)
    (hlength : 0 < length) (hend : start + length ≤ 2 ^ 64) :
    (∀ a, start ≤ a → a < start + length →
      (BitVec.ofNat 64 a &&& sharedMemoryMask == base) = true) ↔
      start / 2 ^ 40 = k ∧ start % 2 ^ 40 + length ≤ 2 ^ 40 := by
  rw [← forall_div_eq_iff hlength]
  refine forall_congr' fun a ↦ forall₂_congr fun _ hlt ↦ ?_
  have hmask : sharedMemoryMask = BitVec.allOnes 64 <<< 40 := by decide
  rw [beq_iff_eq, hmask, and_allOnes_shiftLeft_eq_iff hbase, BitVec.toNat_ofNat,
    Nat.mod_eq_of_lt (hlt.trans_le hend)]

theorem inRegion_iff {start length : ℕ} (hlength : 0 < length) (hend : start + length ≤ 2 ^ 64) :
    InRegion start length ↔
      (start / 2 ^ 40 = 0x3f ∨ start / 2 ^ 40 = 0x3e) ∧ start % 2 ^ 40 + length ≤ 2 ^ 40 := by
  have hmemory := forall_mask_iff sharedMemoryBase (k := 0x3f) rfl hlength hend
  have hfile := forall_mask_iff sharedMemoryFile (k := 0x3e) rfl hlength hend
  unfold InRegion shmIsSharedMemoryPointer shmIsSharedFilePointer
  rw [hmemory, hfile, ← or_and_right]

/-! ### The services one by one -/

variable {s : Process} {k : Kernel}

/-- Memory that is mapped by `internal_mmap`. -/
theorem confined_mmap_iff {addr length : BitVec 64} {area : Area} :
    s.Confined k (.mmap addr length area) ↔ s.Safe k (.mmap addr length area) := by
  by_cases hrefused : addr = 0 ∨
      (¬ shmIsSharedMemoryPointer addr = true ∧ ¬ shmIsSharedFilePointer addr = true)
  · refine iff_of_true (fun result _ ↦ ?_) (hrefused.imp_right Or.inl)
    simp only [Process.serve, Process.internalMmap, if_pos hrefused]
    exact ⟨rfl, rfl, Or.inl ⟨rfl, rfl⟩⟩
  · have hsafe : s.Safe k (.mmap addr length area) ↔
        ∀ r n, k.Maps s addr.toNat length.toNat area.flags r n →
          (r / 2 ^ 40 = 0x3f ∨ r / 2 ^ 40 = 0x3e) ∧ r % 2 ^ 40 + n ≤ 2 ^ 40 := by
      change _ ∨ _ ∨ _ ↔ _
      rw [← or_assoc, or_iff_right hrefused]
    rw [hsafe]
    -- where the kernel can map memory, being inside a region is the arithmetic condition
    have hregion : ∀ r n, k.Maps s addr.toNat length.toNat area.flags r n →
        (InRegion r n ↔ (r / 2 ^ 40 = 0x3f ∨ r / 2 ^ 40 = 0x3e) ∧ r % 2 ^ 40 + n ≤ 2 ^ 40) :=
      fun r n hr ↦ inRegion_iff (k.pos hr) ((k.le_taskSize hr).trans (by decide))
    constructor
    · intro h r n hr
      have hallowed := h (some (r, n)) fun r' n' heq ↦ by
        cases heq
        exact hr
      simp only [Process.serve, Process.internalMmap, if_neg hrefused] at hallowed
      obtain ⟨-, -, ⟨hnone, -⟩ | ⟨r', n', heq, hin, -⟩⟩ := hallowed
      · cases hnone
      · cases heq
        exact (hregion r n hr).mp hin
    · intro h result hpermits
      simp only [Process.serve, Process.internalMmap, if_neg hrefused]
      cases result with
      | none => exact ⟨rfl, rfl, Or.inl ⟨rfl, rfl⟩⟩
      | some range =>
        obtain ⟨r, n⟩ := range
        have hr := hpermits r n rfl
        refine ⟨rfl, rfl, Or.inr ⟨r, n, rfl, (hregion r n hr).mpr (h r n hr), fun a ha ↦ ?_⟩⟩
        refine if_neg fun hin ↦ ?_
        omega

/-- The shared memory that `internal_remap_shm` extends. -/
theorem confined_remapShm_iff : s.Confined k .remapShm ↔ s.Safe k .remapShm := by
  by_cases hgrow : s.currentMappedSize < s.sharedSize
  · constructor
    · intro h
      refine or_iff_not_imp_right.mpr fun hcan ↦ ?_
      rw [not_not] at hcan
      have hallowed := h (some (s.base, 0)) fun _ ↦ hcan
      simp only [Process.serve, Process.internalRemapShm, Option.map_some, if_pos hgrow,
        ↓reduceIte] at hallowed
      by_contra hlt
      -- the first address behind the old mapping was free and is mapped now
      have hold : s.memory (s.base + roundUp s.currentMappedSize) = none :=
        hcan.2.2 _ (Nat.le_refl _) (by omega)
      have hnew := congrFun hallowed.1 (s.base + roundUp s.currentMappedSize)
      simp only [Process.map] at hnew
      rw [if_pos ⟨Nat.le_refl _, by omega⟩, hold] at hnew
      exact hcan.1 hnew
    · intro h result hpermits
      simp only [Process.serve, Process.internalRemapShm, if_pos hgrow]
      by_cases hresult : result.map Prod.fst = some s.base
      · have hle : roundUp s.sharedSize ≤ roundUp s.currentMappedSize :=
          h.resolve_right (not_not.mpr (hpermits hresult))
        rw [if_pos hresult]
        refine ⟨funext fun a ↦ if_neg fun hin ↦ ?_, rfl, rfl⟩
        omega
      · rw [if_neg hresult]
        exact ⟨rfl, rfl, rfl⟩
  · refine iff_of_true (fun result _ ↦ ?_) (Or.inl ?_)
    · simp only [Process.serve, Process.internalRemapShm, if_neg hgrow]
      exact ⟨rfl, rfl, rfl⟩
    · unfold roundUp pageSize
      omega

theorem onClose_eq (fd : ℤ) :
    s.onClose fd = { s with
      tables := fun p ↦ if s.hasForked = true ∧ 0 ≤ fd ∧ p ∈ s.mappings then
        (s.tables p).onCloseLocal fd else s.tables p } := by
  unfold Process.onClose
  by_cases hfork : s.hasForked = true ∧ 0 ≤ fd
  · simp [hfork]
  · have hnone : ∀ p, ¬ (s.hasForked = true ∧ 0 ≤ fd ∧ p ∈ s.mappings) :=
      fun _ h ↦ hfork ⟨h.1, h.2.1⟩
    simp only [if_neg hfork, if_neg (hnone _)]

theorem descriptors_internalCloseFd (fd pid : ℤ) :
    (s.internalCloseFd fd pid).descriptors = Function.update s.descriptors fd false := by
  simp only [Process.internalCloseFd, onClose_eq]

theorem memory_internalCloseFd (fd pid : ℤ) : (s.internalCloseFd fd pid).memory = s.memory := by
  simp only [Process.internalCloseFd, onClose_eq]

theorem tables_internalCloseFd (fd pid : ℤ) (p : BitVec 64) :
    (s.internalCloseFd fd pid).tables p =
      if s.hasForked = true ∧ 0 ≤ fd ∧ p ∈ s.mappings then (s.tables p).onCloseLocal fd
      else s.tables p := by
  simp only [Process.internalCloseFd, onClose_eq]

/-- `onCloseLocal` takes the entry out, wherever it is. -/
theorem fd_onCloseLocal (t : Table) {fd : ℤ} (hfd : 0 ≤ fd) (i : ℤ) :
    (t.onCloseLocal fd).fd i = if i = fd then notSet else t.fd i := by
  unfold Table.onCloseLocal
  by_cases hset : t.fd fd = notSet
  · by_cases hi : i = fd
    · simp [hi, hset]
    · simp [hi, hset]
  · simp [hfd, hset, Function.update_apply]

theorem pid_onCloseLocal (t : Table) (fd : ℤ) : (t.onCloseLocal fd).pid = t.pid := by
  unfold Table.onCloseLocal
  split <;> rfl

/-- What `internal_close_fd` closes. -/
theorem confined_closeFd_iff {fd pid : ℤ} :
    s.Confined k (.closeFd fd pid) ↔ s.Safe k (.closeFd fd pid) := by
  have hconf : s.Confined k (.closeFd fd pid) ↔
      s.Allowed (s.internalCloseFd fd pid, none) (.closeFd fd pid) :=
    ⟨fun h ↦ h none trivial, fun h _ _ ↦ h⟩
  rw [hconf]
  constructor
  · rintro ⟨-, hdescriptors, htables⟩
    refine ⟨fun hopen ↦ ?_, fun hfork hmax p hp ↦ ?_⟩
    · refine (hdescriptors fd ?_).2
      change (s.internalCloseFd fd pid).descriptors fd ≠ _
      rw [descriptors_internalCloseFd, Function.update_self, hopen]
      decide
    · -- an entry behind the table would have been changed
      have hnonneg : 0 ≤ fd := by
        unfold maxFd at hmax
        omega
      by_contra hset
      have hin := ((htables p).2 fd ?_).2.2
      · exact absurd hin.2 (not_lt.mpr hmax)
      · change ((s.internalCloseFd fd pid).tables p).fd fd ≠ _
        rw [tables_internalCloseFd, if_pos ⟨hfork, hnonneg, hp⟩, fd_onCloseLocal _ hnonneg,
          if_pos rfl]
        exact Ne.symm hset
  · rintro ⟨hrecorded, hbehind⟩
    refine ⟨memory_internalCloseFd fd pid, fun d hd ↦ ?_, fun p ↦ ?_⟩
    · change (s.internalCloseFd fd pid).descriptors d ≠ _ at hd
      rw [descriptors_internalCloseFd] at hd
      by_cases hdfd : d = fd
      · subst hdfd
        rw [Function.update_self] at hd
        exact ⟨rfl, hrecorded (eq_true_of_ne_false hd.symm)⟩
      · exact absurd (Function.update_of_ne hdfd ..) hd
    · change ((s.internalCloseFd fd pid).tables p).pid = _ ∧
        ∀ i, ((s.internalCloseFd fd pid).tables p).fd i ≠ _ → _
      rw [tables_internalCloseFd]
      split
      · next hcond =>
          obtain ⟨hfork, hnonneg, hp⟩ := hcond
          refine ⟨pid_onCloseLocal _ _, fun i hi ↦ ?_⟩
          rw [fd_onCloseLocal _ hnonneg] at hi
          by_cases hifd : i = fd
          · subst hifd
            rw [if_pos rfl] at hi
            refine ⟨hp, rfl, hnonneg, not_le.mp fun hmax ↦ ?_⟩
            exact hi (hbehind hfork hmax p hp).symm
          · rw [if_neg hifd] at hi
            exact absurd rfl hi
      · exact ⟨rfl, fun i hi ↦ absurd rfl hi⟩

theorem tables_internalReceiveFd (mapping p : BitVec 64) (fd pid i : ℤ) :
    ((s.internalReceiveFd mapping fd pid).1.tables p).fd i =
        (if p = mapping ∧ i = s.recvfd mapping then fd else (s.tables p).fd i) ∧
      ((s.internalReceiveFd mapping fd pid).1.tables p).pid i =
        if p = mapping ∧ i = s.recvfd mapping then pid else (s.tables p).pid i := by
  unfold Process.internalReceiveFd Process.fromOtherSide
  by_cases hp : p = mapping
  · subst hp
    simp [Function.update_apply]
  · simp [hp]

theorem descriptors_internalReceiveFd {mapping : BitVec 64} {fd pid d : ℤ}
    (hd : (s.internalReceiveFd mapping fd pid).1.descriptors d ≠ s.descriptors d) :
    d = s.recvfd mapping ∧ s.descriptors d = false := by
  unfold Process.internalReceiveFd Process.fromOtherSide at hd
  dsimp only at hd
  split at hd
  · by_cases hrecv : d = s.recvfd mapping
    · rw [hrecv, Function.update_self] at hd
      exact ⟨hrecv, hrecv ▸ eq_false_of_ne_true hd.symm⟩
    · exact absurd (Function.update_of_ne hrecv ..) hd
  · exact absurd rfl hd

/-- What `internal_receive_fd` enters. -/
theorem confined_receiveFd_iff {mapping : BitVec 64} {fd pid : ℤ} :
    s.Confined k (.receiveFd mapping fd pid) ↔ s.Safe k (.receiveFd mapping fd pid) := by
  have hconf : s.Confined k (.receiveFd mapping fd pid) ↔
      s.Allowed ((s.internalReceiveFd mapping fd pid).1, none) (.receiveFd mapping fd pid) :=
    ⟨fun h ↦ h none trivial, fun h _ _ ↦ h⟩
  rw [hconf]
  constructor
  · rintro ⟨-, -, htables⟩
    refine or_iff_not_imp_left.mpr fun hout ↦ ?_
    obtain ⟨hfd, hpid⟩ := htables mapping (s.recvfd mapping) hout
    rw [(tables_internalReceiveFd ..).1, if_pos ⟨rfl, rfl⟩] at hfd
    rw [(tables_internalReceiveFd ..).2, if_pos ⟨rfl, rfl⟩] at hpid
    exact ⟨hfd.symm, hpid.symm⟩
  · intro hsafe
    refine ⟨rfl, fun d hd ↦ descriptors_internalReceiveFd hd, fun p i hout ↦ ?_⟩
    rw [(tables_internalReceiveFd ..).1, (tables_internalReceiveFd ..).2]
    by_cases hentry : p = mapping ∧ i = s.recvfd mapping
    · obtain ⟨rfl, rfl⟩ := hentry
      obtain ⟨hfd, hpid⟩ := hsafe.resolve_left hout
      rw [if_pos ⟨rfl, rfl⟩, if_pos ⟨rfl, rfl⟩]
      exact ⟨hfd.symm, hpid.symm⟩
    · rw [if_neg hentry, if_neg hentry]
      exact ⟨rfl, rfl⟩

theorem handleSignal_frame (signum : ℤ) (handler : BitVec 64) (result : Option (ℕ × ℕ)) :
    (s.handleSignal signum handler result).memory =
        (s.wrapIncomingCallback handler result).1.memory ∧
      (s.handleSignal signum handler result).descriptors = s.descriptors ∧
      (s.handleSignal signum handler result).tables = s.tables := by
  have hwrap : (s.wrapIncomingCallback handler result).1.descriptors = s.descriptors ∧
      (s.wrapIncomingCallback handler result).1.tables = s.tables := by
    unfold Process.wrapIncomingCallback
    split
    · exact ⟨rfl, rfl⟩
    · split
      · split <;> exact ⟨rfl, rfl⟩
      · exact ⟨rfl, rfl⟩
  unfold Process.handleSignal
  dsimp only
  split <;> exact ⟨rfl, hwrap⟩

theorem confined_signal_iff {signum : ℤ} {handler : BitVec 64} :
    s.Confined k (.signal signum handler) ↔ s.Safe k (.signal signum handler) := by
  have hallowed : ∀ result, s.Allowed (s.serve result (.signal signum handler))
      (.signal signum handler) ↔
        (s.wrapIncomingCallback handler result).1.memory = s.memory := by
    intro result
    obtain ⟨hmemory, hframe⟩ := @handleSignal_frame s signum handler result
    rw [← hmemory]
    exact and_iff_left hframe
  unfold Process.Confined
  simp only [hallowed]
  change _ ↔ _ ∨ _ ∨ _
  unfold Process.wrapIncomingCallback
  by_cases hwrap : Callbacks.callbackNeedsWrapping handler = false
  · exact iff_of_true (fun _ _ ↦ by rw [if_pos hwrap]) (.inl hwrap)
  · by_cases hpage : s.NeedsPage
    · rw [or_iff_right hwrap, or_iff_right (not_not.mpr hpage)]
      simp only [if_neg hwrap, if_pos hpage]
      constructor
      · intro h r n hr
        have hpos := k.pos hr
        have hmemory := congrFun (h (some (r, n)) fun r' n' heq ↦ by cases heq; exact hr) r
        have hfree := k.free hr (by decide) r (Nat.le_refl r) (by omega)
        simp only [Process.takeTrampoline, Process.mapTrampolines, Process.map] at hmemory
        rw [if_pos ⟨Nat.le_refl r, by omega⟩, hfree] at hmemory
        cases hmemory
      · intro h result hpermits
        cases result with
        | none => rfl
        | some range => exact absurd (hpermits range.1 range.2 rfl) (h _ _)
    · refine iff_of_true (fun _ _ ↦ ?_) (.inr (.inl hpage))
      rw [if_neg hwrap, if_neg hpage]
      rfl

/-- Where the `FileDescriptorMapping` of `afterFork` is. -/
def registered : BitVec 64 := 0x555555560000#64

/-- A process after the fork.  One mapping is registered, with the tables that its constructor
makes; the shared memory has one page, and its file is the descriptor `SHARED_MEMORY_FD`. -/
def afterFork : Process where
  memory a := if sharedMemoryBase.toNat ≤ a ∧ a < sharedMemoryBase.toNat + pageSize then
    some ⟨3, 1, 1022, 0⟩ else none
  descriptors d := decide (d ∈ [0, 1, 2, 1020, 1022])
  mappings := [registered]
  tables p := if p = registered then
      ⟨fun i ↦ if 0 ≤ i ∧ i ≤ 2 then i else notSet, fun _ ↦ 0⟩
    else ⟨fun _ ↦ 0, fun _ ↦ 0⟩
  recvfd _ := -1
  handlers _ := 0
  hasForked := true
  pid := 1000
  base := sharedMemoryBase.toNat
  sharedSize := pageSize
  currentMappedSize := pageSize
  fileSize := pageSize
  exited := false
  stderr := []
  trampolines := 0
  remainingTrampolinBytes := 0

/-- The flags `MAP_32BIT`, `MAP_HUGETLB` and `MAP_FIXED_NOREPLACE`. -/
def map32Bit : BitVec 32 := 0x40#32

def mapHugetlb : BitVec 32 := 0x40000#32

def mapFixedNoReplace : BitVec 32 := 0x100000#32

/-- Linux: whole pages, and huge ones if they are asked for.  A fixed address is taken as it is;
otherwise the pages are where there is room, with `MAP_32BIT` below 2 GiB. -/
def linux : Kernel where
  Maps s addr length flags r n :=
    0 < length ∧ r % pageSize = 0 ∧ r + n ≤ taskSize ∧ roundUp length ≤ n ∧
      (flags &&& mapHugetlb = 0 → n = roundUp length) ∧
      (flags &&& mapFixed ≠ 0 → r = addr) ∧
      (flags &&& mapFixedNoReplace ≠ 0 → r = addr ∧ s.Free r n) ∧
      (flags &&& mapFixed = 0 → s.Free r n ∧
        (flags &&& mapFixedNoReplace = 0 → flags &&& map32Bit ≠ 0 → r + n ≤ 2 ^ 31))
  pos := by
    rintro s addr length flags r n ⟨hpos, -, -, hle, -⟩
    unfold roundUp pageSize at hle
    omega
  le_taskSize h := h.2.2.1
  free h hflags := (h.2.2.2.2.2.2.2 hflags).1

/-- One request is served. -/
def Serves (k : Kernel) (s t : Process) : Prop :=
  ∃ request result, s.Permits k result request ∧ t = (s.serve result request).1

/-- The states of the process while it serves. -/
def Reachable (k : Kernel) : Process → Prop := Relation.ReflTransGen (Serves k) afterFork

/-- Two pages, the first of them the last one of the shared memory. -/
def crossingEnd : Request := .mmap 0x3ffffffff000#64 0x2000#64 ⟨3, 0x32, -1, 0⟩

end Cali.Ipc.Services
