import Mathlib.Logic.Function.Basic
import Cali.Lib.EState
import Cali.Shm.PageSearch

/-!
# The shared memory manager

`SharedMemoryInformation` lives at the start of the shared segment and is used by
the main process and by the library process.  Its fields are in the segment, apart
from `current_mapped_size`, of which each process has a copy of its own.  The
kernel's part of the state (the size of the file behind the segment, its bytes and
the size of each process's mapping) is modelled next to them, and the answers of
`ftruncate` and `mremap` are inputs.
-/

namespace Cali.Shm

open Cali.Lib

/-- The two processes that use the segment. -/
inductive Process where
  | main
  | library
deriving DecidableEq, Repr

/-- How a call of the manager fails. -/
inductive Failure where
  | runtimeError (what : String)
  | exit (status : ℕ)
  /-- The call waits for a semaphore that nobody raises. -/
  | blocked
deriving DecidableEq, Repr

/-- The answers of `mremap(base, old_size, new_size, MREMAP_MAYMOVE)`. -/
inductive MremapResult where
  | mapFailed
  | moved
  | inPlace
deriving DecidableEq, Repr

/-- The system calls whose outcome the manager depends on. -/
structure Kernel where
  /-- `ftruncate(fd, size) == 0` -/
  ftruncate : ℕ → Bool
  /-- `mremap` from the first size to the second. -/
  mremap : ℕ → ℕ → MremapResult

/-- `_dl_pagesize` -/
def dlPagesize : ℕ := 4096

/-- `shm_shared_memory_base`, where `shared_memory_init` maps the segment. -/
def shmSharedMemoryBase : ℕ := 0x3f0000000000

/-- The manager's fields and the kernel's view of the segment. -/
structure SharedMemoryInformation where
  sharedSize : ℕ
  pagesUsed : PagesUsed
  /-- bytes in `pages_used` -/
  bitsetSize : ℕ
  /-- index of the first page that has never been used -/
  firstUnusedPageIndex : ℕ
  /-- value of the semaphore behind `mtx` -/
  mtx : ℕ
  /-- `unshared_infos->current_mapped_size` of each process -/
  currentMappedSize : Process → ℕ
  /-- size of the file behind the segment -/
  fileSize : ℕ
  /-- bytes of the segment, by their offset from the base -/
  bytes : ℕ → BitVec 8
  /-- size of the mapping each process has at the base -/
  mapping : Process → ℕ

/-- A member function of the manager. -/
abbrev ShmM := EStateM Failure SharedMemoryInformation

/-- `pageIndexToAddress` -/
def pageIndexToAddress (page : ℕ) : ℕ := shmSharedMemoryBase + page * dlPagesize

/-- `addressToPageIndex` -/
def addressToPageIndex (address : ℕ) : ℕ := (address - shmSharedMemoryBase) / dlPagesize

@[simp] theorem addressToPageIndex_pageIndexToAddress (page : ℕ) :
    addressToPageIndex (pageIndexToAddress page) = page := by
  simp [addressToPageIndex, pageIndexToAddress, dlPagesize]

/-- `ALIGN_DOWN` -/
def alignDown (base size : BitVec 64) : BitVec 64 := base &&& -size

/-- `ALIGN_UP` -/
def alignUp (base size : BitVec 64) : BitVec 64 := alignDown (base + size - 1) size

/-- `ALIGN_UP(length, _dl_pagesize) / _dl_pagesize` -/
def pageCount (length : BitVec 64) : ℕ :=
  (alignUp length (BitVec.ofNat 64 dlPagesize)).toNat / dlPagesize

/-! ## Initialisation -/

/-- The loop `while (ps * info_pages < sizeof *shared_memory_info) info_pages *= 2`. -/
def infoPagesLoop (ps sizeofInfo infoPages : ℕ) : ℕ :=
  if 0 < ps * infoPages ∧ ps * infoPages < sizeofInfo then
    infoPagesLoop ps sizeofInfo (infoPages * 2)
  else
    infoPages
termination_by sizeofInfo - ps * infoPages
decreasing_by
  have : ps * (infoPages * 2) = ps * infoPages * 2 := (Nat.mul_assoc ..).symm
  omega

/-- `SharedMemoryInformation::init`, in a fresh segment of `size` bytes that the
initialising process has mapped.  The library process is forked later and inherits
the mapping. -/
def SharedMemoryInformation.init (size bitsetSize usedPages : ℕ) : SharedMemoryInformation where
  sharedSize := size
  pagesUsed := PagesUsed.setRange (fun _ ↦ ⟨0⟩) 0 true usedPages
  bitsetSize := bitsetSize
  firstUnusedPageIndex := usedPages
  mtx := 1
  currentMappedSize := fun _ ↦ size
  fileSize := size
  bytes := fun _ ↦ 0
  mapping := fun _ ↦ size

/-- `shared_memory_init` in the default mode, neither `NO_SHM_MODE` nor
`MPROTECT_MODE`; `sizeofInfo` is `sizeof(SharedMemoryInformation)`. -/
def sharedMemoryInit (sizeofInfo : ℕ) : SharedMemoryInformation :=
  let infoPages := infoPagesLoop dlPagesize sizeofInfo 1
  let bitsetPages := 512
  let usedPages := infoPages + bitsetPages
  SharedMemoryInformation.init (dlPagesize * (infoPages + bitsetPages)) (bitsetPages * dlPagesize)
    usedPages

/-! ## The mutex -/

/-- `SharedLockGuard guard(mtx)` around `x`: the destructor raises the semaphore
on a return and on an exception, but not when the process exits. -/
def withLock {α : Type} (x : ShmM α) : ShmM α := fun s ↦
  if s.mtx = 0 then .error .blocked s
  else
    match x { s with mtx := s.mtx - 1 } with
    | .ok a s' => .ok a { s' with mtx := s'.mtx + 1 }
    | .error (.runtimeError what) s' => .error (.runtimeError what) { s' with mtx := s'.mtx + 1 }
    | .error e s' => .error e s'

/-! ## Resizing -/

/-- `setFDsize`: pages the file gains read as zero. -/
def setFDsize (k : Kernel) : ShmM Unit := fun s ↦
  if k.ftruncate s.sharedSize then
    .ok () { s with
      fileSize := s.sharedSize
      bytes := fun o ↦ if s.fileSize ≤ o ∧ o < s.sharedSize then 0 else s.bytes o }
  else
    .error (.runtimeError "ftruncate failed") s

/-- `remapSharedMemory`, called by the process `p`.  The call that would tell the
other process is commented out in the source. -/
def remapSharedMemory (k : Kernel) (p : Process) (oldSharedSize : ℕ) : ShmM Unit := fun s ↦
  match k.mremap oldSharedSize s.sharedSize with
  | .mapFailed => .error (.runtimeError "Could not remap shared memory!") s
  | .moved =>
    .error (.runtimeError "Remap failed (memory moved)")
      { s with mapping := Function.update s.mapping p 0 }
  | .inPlace =>
    .ok () { s with
      mapping := Function.update s.mapping p s.sharedSize
      currentMappedSize := Function.update s.currentMappedSize p s.sharedSize }

/-- `resizeSharedMemory` -/
def resizeSharedMemory (k : Kernel) (p : Process) (pages : ℕ) : ShmM Unit := do
  let s ← get
  if pages * dlPagesize = s.sharedSize then
    return ()
  else
    set { s with sharedSize := dlPagesize * pages }
    setFDsize k
    remapSharedMemory k p (s.currentMappedSize p)
    modify fun s ↦ { s with firstUnusedPageIndex := min s.firstUnusedPageIndex pages }

/-- `internal_remap_shm`, the service the peer asks for and the body of
`remap_shared_memory`. -/
def internalRemapShm (k : Kernel) (p : Process) : ShmM Unit := fun s ↦
  if s.sharedSize > s.currentMappedSize p then
    match k.mremap (s.currentMappedSize p) s.sharedSize with
    | .mapFailed => .error (.exit 1) s
    | .moved => .error (.exit 1) { s with mapping := Function.update s.mapping p 0 }
    | .inPlace =>
      .ok () { s with
        mapping := Function.update s.mapping p s.sharedSize
        currentMappedSize := Function.update s.currentMappedSize p s.sharedSize }
  else
    .ok () s

/-! ## Requesting and freeing pages -/

/-- The call of `findContinousFreePages` with its exception. -/
def searchPages (count : ℕ) : ShmM ℕ := fun s ↦
  match findContinousFreePages s.pagesUsed s.bitsetSize count with
  | some pos => .ok pos s
  | none => .error (.runtimeError "Too much memory used! (NOT IMPLEMENTED)") s

/-- `if (shared_size < (pos + count) * _dl_pagesize) resizeSharedMemory(pos + count)` -/
def enlarge (k : Kernel) (p : Process) (pages : ℕ) : ShmM Unit := do
  let s ← get
  if s.sharedSize < pages * dlPagesize then resizeSharedMemory k p pages else return ()

/-- `if (shared_size > current_mapped_size) remapSharedMemory(current_mapped_size, false)` -/
def followResize (k : Kernel) (p : Process) : ShmM Unit := do
  let s ← get
  if s.sharedSize > s.currentMappedSize p then
    remapSharedMemory k p (s.currentMappedSize p)
  else
    return ()

/-- `if (pos < first_unused_page_index) bzero(pageIndexToAddress(pos), count * _dl_pagesize)` -/
def clearReused (pos count : ℕ) : ShmM Unit := fun s ↦
  if pos < s.firstUnusedPageIndex then
    .ok () { s with
      bytes := fun o ↦
        if pos * dlPagesize ≤ o ∧ o < pos * dlPagesize + count * dlPagesize then 0
        else s.bytes o }
  else
    .ok () s

/-- The loop that blocks the pages, and the new `first_unused_page_index`. -/
def blockPages (pos count : ℕ) : ShmM Unit := fun s ↦
  .ok () { s with
    pagesUsed := s.pagesUsed.setRange pos true count
    firstUnusedPageIndex := max s.firstUnusedPageIndex (pos + count) }

/-- `requestContinousFreePagesInternal` -/
def requestContinousFreePagesInternal (k : Kernel) (p : Process) (count : ℕ) : ShmM ℕ := do
  let pos ← searchPages count
  enlarge k p (pos + count)
  followResize k p
  clearReused pos count
  blockPages pos count
  return pos

/-- `requestContinousFreePages` -/
def requestContinousFreePages (k : Kernel) (p : Process) (count : ℕ) : ShmM ℕ :=
  withLock do
    internalRemapShm k p
    requestContinousFreePagesInternal k p count

/-- `requestContinousFreePagesForMove`: what follows its first `return` is dead
code, so the preferred position is not used. -/
def requestContinousFreePagesForMove (k : Kernel) (p : Process) (count _preferredPos : ℕ) :
    ShmM ℕ :=
  withLock (requestContinousFreePagesInternal k p count)

/-- `freePages` -/
def freePages (pos count : ℕ) : ShmM Unit :=
  withLock (modify fun s ↦ { s with pagesUsed := s.pagesUsed.setRange pos false count })

/-! ## The entry points -/

/-- What `shm_mmap` does: it hands the call to the real `mmap`, or it allocates
pages of the segment. -/
inductive MmapResult where
  | delegated
  | address (a : ℕ)
deriving DecidableEq, Repr

/-- `shm_mmap`; `prot` and `flags` are only printed and passed on. -/
def shmMmap (k : Kernel) (p : Process) (addr : ℕ) (length : BitVec 64) (fd offset : ℤ) :
    ShmM MmapResult := do
  if fd ≥ 0 ∨ offset > 0 ∨ addr ≠ 0 then
    return .delegated
  else
    let pageStart ← requestContinousFreePages k p (pageCount length)
    return .address (pageIndexToAddress pageStart)

/-- `memcpy(new_address, old_address, size)` between two places of the segment. -/
def copyBytes (newOffset oldOffset size : ℕ) : ShmM Unit :=
  modify fun s ↦ { s with
    bytes := fun o ↦
      if newOffset ≤ o ∧ o < newOffset + size then s.bytes (oldOffset + (o - newOffset))
      else s.bytes o }

/-- `shm_mremap` -/
def shmMremap (k : Kernel) (p : Process) (oldAddress : ℕ) (oldSize newSize : BitVec 64) :
    ShmM ℕ := do
  let oldPageIndex := addressToPageIndex oldAddress
  let newPageIndex ← requestContinousFreePagesForMove k p (pageCount newSize) oldPageIndex
  if newPageIndex = oldPageIndex then
    return oldAddress
  else
    copyBytes (newPageIndex * dlPagesize) (oldAddress - shmSharedMemoryBase)
      (pageCount oldSize * dlPagesize)
    freePages oldPageIndex (pageCount oldSize)
    return pageIndexToAddress newPageIndex

/-- `shm_munmap` -/
def shmMunmap (addr : ℕ) (length : BitVec 64) : ShmM Unit :=
  freePages (addressToPageIndex addr) (pageCount length)

/-! ## What the operations do to the bitset

Every operation that resizes or remaps leaves the bitset alone, and with a kernel
that refuses nothing it does not fail. -/

/-- A kernel that never refuses. -/
structure Kernel.Accepts (k : Kernel) : Prop where
  ftruncate : ∀ size, k.ftruncate size = true
  mremap : ∀ old new, k.mremap old new = .inPlace

/-- The bitset and its size are the same. -/
structure SameBitset (s s' : SharedMemoryInformation) : Prop where
  pagesUsed : s'.pagesUsed = s.pagesUsed
  bitsetSize : s'.bitsetSize = s.bitsetSize

theorem SameBitset.refl (s : SharedMemoryInformation) : SameBitset s s := ⟨rfl, rfl⟩

theorem SameBitset.trans {s s' s'' : SharedMemoryInformation} (h : SameBitset s s')
    (h' : SameBitset s' s'') : SameBitset s s'' :=
  ⟨h'.pagesUsed.trans h.pagesUsed, h'.bitsetSize.trans h.bitsetSize⟩

/-- `x` leaves the bitset alone and fails only when the kernel refuses. -/
def KeepsBitset (k : Kernel) {α : Type} (x : ShmM α) : Prop :=
  ∀ s, Spec x s (fun _ s' ↦ SameBitset s s') fun _ s' ↦ SameBitset s s' ∧ ¬ k.Accepts

variable {k : Kernel} {p : Process}

theorem KeepsBitset.bind {α β : Type} {x : ShmM α} {f : α → ShmM β} (hx : KeepsBitset k x)
    (hf : ∀ a, KeepsBitset k (f a)) : KeepsBitset k (x >>= f) := by
  intro s
  refine Spec.bind (hx s) fun a s₁ h₁ ↦ (hf a s₁).mono ?_ ?_
  · exact fun _ _ h₂ ↦ h₁.trans h₂
  · exact fun _ _ h₂ ↦ ⟨h₁.trans h₂.1, h₂.2⟩

theorem KeepsBitset.pure {α : Type} (a : α) : KeepsBitset k (Pure.pure a) :=
  fun s ↦ SameBitset.refl s

theorem KeepsBitset.ite {α : Type} {c : Prop} [Decidable c] {x y : ShmM α}
    (hx : KeepsBitset k x) (hy : KeepsBitset k y) : KeepsBitset k (if c then x else y) := by
  split
  · exact hx
  · exact hy

theorem setFDsize_keepsBitset : KeepsBitset k (setFDsize k) := by
  intro s
  cases h : k.ftruncate s.sharedSize with
  | true =>
    simp only [Spec, setFDsize, h, ↓reduceIte]
    exact ⟨rfl, rfl⟩
  | false =>
    simp only [Spec, setFDsize, h, Bool.false_eq_true, ↓reduceIte]
    exact ⟨⟨rfl, rfl⟩, fun ha ↦ by simp [ha.ftruncate] at h⟩

theorem remapSharedMemory_keepsBitset (oldSharedSize : ℕ) :
    KeepsBitset k (remapSharedMemory k p oldSharedSize) := by
  intro s
  simp only [Spec, remapSharedMemory]
  cases h : k.mremap oldSharedSize s.sharedSize with
  | mapFailed => exact ⟨⟨rfl, rfl⟩, fun ha ↦ by simp [ha.mremap] at h⟩
  | moved => exact ⟨⟨rfl, rfl⟩, fun ha ↦ by simp [ha.mremap] at h⟩
  | inPlace => exact ⟨rfl, rfl⟩

theorem resizeSharedMemory_keepsBitset (pages : ℕ) :
    KeepsBitset k (resizeSharedMemory k p pages) := by
  intro s
  unfold resizeSharedMemory
  refine Spec.get_bind (Spec.ite (fun _ ↦ SameBitset.refl s) fun _ ↦ Spec.set_bind ?_)
  have hrest : KeepsBitset k (do
      setFDsize k
      remapSharedMemory k p (s.currentMappedSize p)
      modify fun s ↦ { s with firstUnusedPageIndex := min s.firstUnusedPageIndex pages }) :=
    setFDsize_keepsBitset.bind fun _ ↦
      (remapSharedMemory_keepsBitset _).bind fun _ s ↦ ⟨rfl, rfl⟩
  have hset : SameBitset s { s with sharedSize := dlPagesize * pages } := ⟨rfl, rfl⟩
  exact (hrest _).mono (fun _ _ h ↦ hset.trans h) fun _ _ h ↦ ⟨hset.trans h.1, h.2⟩

theorem internalRemapShm_keepsBitset : KeepsBitset k (internalRemapShm k p) := by
  intro s
  by_cases hlt : s.sharedSize > s.currentMappedSize p
  · simp only [Spec, internalRemapShm, hlt, ↓reduceIte]
    cases h : k.mremap (s.currentMappedSize p) s.sharedSize with
    | mapFailed => exact ⟨⟨rfl, rfl⟩, fun ha ↦ by simp [ha.mremap] at h⟩
    | moved => exact ⟨⟨rfl, rfl⟩, fun ha ↦ by simp [ha.mremap] at h⟩
    | inPlace => exact ⟨rfl, rfl⟩
  · simp only [Spec, internalRemapShm, hlt, ↓reduceIte]
    exact ⟨rfl, rfl⟩

theorem enlarge_keepsBitset (pages : ℕ) : KeepsBitset k (enlarge k p pages) :=
  KeepsBitset.bind (fun s ↦ SameBitset.refl s) fun _ ↦
    KeepsBitset.ite (resizeSharedMemory_keepsBitset pages) (KeepsBitset.pure ())

theorem followResize_keepsBitset : KeepsBitset k (followResize k p) :=
  KeepsBitset.bind (fun s ↦ SameBitset.refl s) fun _ ↦
    KeepsBitset.ite (remapSharedMemory_keepsBitset _) (KeepsBitset.pure ())

theorem clearReused_keepsBitset (pos count : ℕ) : KeepsBitset k (clearReused pos count) := by
  intro s
  by_cases h : pos < s.firstUnusedPageIndex
  · simp only [Spec, clearReused, h, ↓reduceIte]
    exact ⟨rfl, rfl⟩
  · simp only [Spec, clearReused, h, ↓reduceIte]
    exact ⟨rfl, rfl⟩

/-! ### Requests -/

/-- The pages a request for `count` pages looks for: a request for no pages looks
for one. -/
def FirstFit (s : SharedMemoryInformation) (count start : ℕ) : Prop :=
  FirstGap s.pagesUsed.Used (8 * s.bitsetSize) (max count 1) start

/-- A request for `count` pages was answered with `pos`, one page above the first
fit, and the `count` pages from `pos` on were blocked. -/
structure Granted (s : SharedMemoryInformation) (count pos : ℕ) (s' : SharedMemoryInformation) :
    Prop where
  firstFit : ∃ start, FirstFit s count start ∧ pos = start + 1
  pagesUsed : s'.pagesUsed = s.pagesUsed.setRange pos true count
  bitsetSize : s'.bitsetSize = s.bitsetSize

/-- A request for `count` pages failed: the bitset is as before, and the kernel
refused, there is no fit, or the request waits for the mutex. -/
structure Refused (k : Kernel) (s : SharedMemoryInformation) (count : ℕ)
    (s' : SharedMemoryInformation) : Prop where
  same : SameBitset s s'
  cause : k.Accepts → (∀ start, ¬ FirstFit s count start) ∨ s.mtx = 0

theorem requestContinousFreePagesInternal_spec (s : SharedMemoryInformation) (count : ℕ) :
    Spec (requestContinousFreePagesInternal k p count) s (Granted s count)
      fun _ s' ↦ SameBitset s s' ∧ (k.Accepts → ∀ start, ¬ FirstFit s count start) := by
  unfold requestContinousFreePagesInternal
  refine Spec.bind (P := fun pos s' ↦ s' = s ∧ ∃ start, FirstFit s count start ∧ pos = start + 1)
    ?_ ?_
  · cases hfind : findContinousFreePages s.pagesUsed s.bitsetSize count with
    | some pos =>
      exact Spec.of_ok (by simp only [searchPages, hfind])
        ⟨rfl, findContinousFreePages_eq_some_iff.mp hfind⟩
    | none =>
      exact Spec.of_error (by simp only [searchPages, hfind]; rfl) ⟨SameBitset.refl s,
        fun _ start h ↦ findContinousFreePages_eq_none_iff.mp hfind start h.1⟩
  · rintro pos s₁ ⟨rfl, hfit⟩
    -- everything up to the blocking of the pages leaves the bitset alone
    have hprep : KeepsBitset k (do
        enlarge k p (pos + count)
        followResize k p
        clearReused pos count) :=
      (enlarge_keepsBitset _).bind fun _ ↦ followResize_keepsBitset.bind fun _ ↦
        clearReused_keepsBitset pos count
    have hrest := Spec.bind (f := fun _ ↦ do blockPages pos count; return pos)
      (Q := Granted s₁ count)
      (E := fun _ s' ↦ SameBitset s₁ s' ∧ (k.Accepts → ∀ start, ¬ FirstFit s₁ count start))
      ((hprep s₁).mono (fun _ _ h ↦ h) fun _ _ h ↦ ⟨h.1, fun ha ↦ absurd ha h.2⟩)
      fun _ s₂ h₂ ↦ ⟨hfit, by simp only [h₂.pagesUsed], h₂.bitsetSize⟩
    simpa only [bind_assoc] using hrest

theorem withLock_spec {α : Type} {x : ShmM α} {s : SharedMemoryInformation}
    {Q : α → SharedMemoryInformation → Prop} {E : Failure → SharedMemoryInformation → Prop}
    (hx : Spec x { s with mtx := s.mtx - 1 } Q E) :
    Spec (withLock x) s
      (fun a s' ↦ s'.mtx ≠ 0 ∧ ∃ s₁ n, Q a s₁ ∧ s' = { s₁ with mtx := n })
      (fun e s' ↦ s.mtx = 0 ∧ s' = s ∨
        s.mtx ≠ 0 ∧ ∃ s₁ n, E e s₁ ∧ s' = { s₁ with mtx := n }) := by
  by_cases hm : s.mtx = 0
  · simp only [Spec, withLock, hm, ↓reduceIte]
    exact Or.inl ⟨trivial, trivial⟩
  · simp only [Spec, withLock, hm, ↓reduceIte]
    unfold Spec at hx
    cases h : x { s with mtx := s.mtx - 1 } with
    | ok a s₁ =>
      rw [h] at hx
      exact ⟨Nat.succ_ne_zero _, s₁, _, hx, rfl⟩
    | error e s₁ =>
      rw [h] at hx
      cases e with
      | runtimeError what => exact Or.inr ⟨hm, s₁, _, hx, rfl⟩
      | exit status => exact Or.inr ⟨hm, s₁, s₁.mtx, hx, rfl⟩
      | blocked => exact Or.inr ⟨hm, s₁, s₁.mtx, hx, rfl⟩

variable {s s' s'' : SharedMemoryInformation} {count pos : ℕ}

theorem FirstFit.congr {start : ℕ} (h : SameBitset s s') :
    FirstFit s' count start ↔ FirstFit s count start := by
  unfold FirstFit
  rw [h.pagesUsed, h.bitsetSize]

theorem Granted.congr (h : SameBitset s s') (hg : Granted s' count pos s'') :
    Granted s count pos s'' := by
  obtain ⟨start, hfit, hpos⟩ := hg.firstFit
  exact ⟨⟨start, (FirstFit.congr h).mp hfit, hpos⟩, by rw [hg.pagesUsed, h.pagesUsed],
    by rw [hg.bitsetSize, h.bitsetSize]⟩

theorem Granted.trans (hg : Granted s count pos s') (h : SameBitset s' s'') :
    Granted s count pos s'' :=
  ⟨hg.firstFit, h.pagesUsed.trans hg.pagesUsed, h.bitsetSize.trans hg.bitsetSize⟩

theorem requestContinousFreePages_spec (s : SharedMemoryInformation) (count : ℕ) :
    Spec (requestContinousFreePages k p count) s
      (fun pos s' ↦ Granted s count pos s' ∧ s'.mtx ≠ 0) fun _ s' ↦ Refused k s count s' := by
  have hbody : Spec (do internalRemapShm k p; requestContinousFreePagesInternal k p count)
      { s with mtx := s.mtx - 1 } (Granted s count)
      fun _ s' ↦ SameBitset s s' ∧ (k.Accepts → ∀ start, ¬ FirstFit s count start) := by
    refine Spec.bind ((internalRemapShm_keepsBitset _).mono (fun _ _ h ↦ h) fun _ _ h ↦ ?_) ?_
    · exact ⟨⟨h.1.pagesUsed, h.1.bitsetSize⟩, fun ha ↦ absurd ha h.2⟩
    · intro _ s₁ h₁
      have h₁ : SameBitset s s₁ := ⟨h₁.pagesUsed, h₁.bitsetSize⟩
      refine (requestContinousFreePagesInternal_spec s₁ count).mono
        (fun _ _ hg ↦ hg.congr h₁) fun _ _ hr ↦ ⟨h₁.trans hr.1, fun ha start hfit ↦ ?_⟩
      exact hr.2 ha start ((FirstFit.congr h₁).mpr hfit)
  refine (withLock_spec hbody).mono ?_ ?_
  · rintro pos s' ⟨hm, s₁, n, hg, rfl⟩
    exact ⟨hg.trans ⟨rfl, rfl⟩, hm⟩
  · rintro e s' (⟨hm, rfl⟩ | ⟨-, s₁, n, ⟨hsame, hcause⟩, rfl⟩)
    · exact ⟨SameBitset.refl _, fun _ ↦ Or.inr hm⟩
    · exact ⟨hsame.trans ⟨rfl, rfl⟩, fun ha ↦ Or.inl (hcause ha)⟩

theorem requestContinousFreePagesForMove_spec (s : SharedMemoryInformation)
    (count preferredPos : ℕ) :
    Spec (requestContinousFreePagesForMove k p count preferredPos) s
      (fun pos s' ↦ Granted s count pos s' ∧ s'.mtx ≠ 0) fun _ s' ↦ Refused k s count s' := by
  refine (withLock_spec (requestContinousFreePagesInternal_spec _ count)).mono ?_ ?_
  · rintro pos s' ⟨hm, s₁, n, hg, rfl⟩
    have hs : SameBitset s { s with mtx := s.mtx - 1 } := ⟨rfl, rfl⟩
    exact ⟨(hg.congr hs).trans ⟨rfl, rfl⟩, hm⟩
  · rintro e s' (⟨hm, rfl⟩ | ⟨-, s₁, n, ⟨hsame, hcause⟩, rfl⟩)
    · exact ⟨SameBitset.refl _, fun _ ↦ Or.inr hm⟩
    · exact ⟨⟨hsame.pagesUsed, hsame.bitsetSize⟩, fun ha ↦ Or.inl (hcause ha)⟩

theorem freePages_eq_ok (s : SharedMemoryInformation) (hm : s.mtx ≠ 0) (pos count : ℕ) :
    freePages pos count s =
      .ok () { s with pagesUsed := s.pagesUsed.setRange pos false count } := by
  have hmtx : s.mtx - 1 + 1 = s.mtx := Nat.succ_pred_eq_of_ne_zero hm
  unfold freePages withLock
  rw [if_neg hm]
  change EStateM.Result.ok () { s with
    pagesUsed := s.pagesUsed.setRange pos false count, mtx := s.mtx - 1 + 1 } = _
  rw [hmtx]

theorem freePages_spec (s : SharedMemoryInformation) (pos count : ℕ) :
    Spec (freePages pos count) s
      (fun _ s' ↦ s' = { s with pagesUsed := s.pagesUsed.setRange pos false count })
      fun _ s' ↦ s.mtx = 0 ∧ s' = s := by
  by_cases hm : s.mtx = 0
  · simp only [Spec, freePages, withLock, hm, ↓reduceIte]
    exact ⟨trivial, trivial⟩
  · exact Spec.of_ok (freePages_eq_ok s hm pos count) rfl

/-! ### The entry points -/

theorem shmMmap_spec (s : SharedMemoryInformation) (length : BitVec 64) {fd offset : ℤ}
    (hfd : fd < 0) (hoffset : offset ≤ 0) :
    Spec (shmMmap k p 0 length fd offset) s
      (fun r s' ↦ ∃ pos, r = .address (pageIndexToAddress pos) ∧
        Granted s (pageCount length) pos s' ∧ s'.mtx ≠ 0)
      fun _ s' ↦ Refused k s (pageCount length) s' := by
  unfold shmMmap
  rw [if_neg (by omega)]
  exact Spec.bind (requestContinousFreePages_spec s _) fun pos s' hg ↦ ⟨pos, rfl, hg⟩

/-- With a kernel that refuses nothing, an anonymous `mmap` for which there is a fit
succeeds. -/
theorem shmMmap_eq_ok {length : BitVec 64} {start : ℕ} (p : Process) (hk : k.Accepts)
    (hm : s.mtx ≠ 0) (hfit : FirstFit s (pageCount length) start) :
    ∃ shm, shmMmap k p 0 length (-1) 0 s = .ok (.address (pageIndexToAddress (start + 1))) shm ∧
      Granted s (pageCount length) (start + 1) shm ∧ shm.mtx ≠ 0 := by
  have hspec := shmMmap_spec (k := k) (p := p) s length (by omega : (-1 : ℤ) < 0) (le_refl 0)
  cases h : shmMmap k p 0 length (-1) 0 s with
  | ok r shm =>
    obtain ⟨pos, rfl, hg, hm'⟩ := hspec.ok h
    obtain ⟨start', hfit', rfl⟩ := hg.firstFit
    cases hfit.unique hfit'
    exact ⟨shm, rfl, hg, hm'⟩
  | error e shm =>
    rcases (hspec.error h).cause hk with hno | h0
    · exact absurd hfit (hno start)
    · exact absurd h0 hm

/-- A move asks for new pages first and frees the old ones afterwards, unless the
answer is the place the run already has. -/
theorem shmMremap_spec (s : SharedMemoryInformation) (oldAddress : ℕ)
    (oldSize newSize : BitVec 64) :
    Spec (shmMremap k p oldAddress oldSize newSize) s
      (fun a s' ↦ ∃ pos s₁, Granted s (pageCount newSize) pos s₁ ∧ s'.bitsetSize = s.bitsetSize ∧
        (pos = addressToPageIndex oldAddress ∧ a = oldAddress ∧ s'.pagesUsed = s₁.pagesUsed ∨
          pos ≠ addressToPageIndex oldAddress ∧ a = pageIndexToAddress pos ∧
            s'.pagesUsed =
              s₁.pagesUsed.setRange (addressToPageIndex oldAddress) false (pageCount oldSize)))
      fun _ s' ↦ Refused k s (pageCount newSize) s' := by
  unfold shmMremap
  refine Spec.bind (requestContinousFreePagesForMove_spec s _ _) ?_
  rintro pos s₁ ⟨hg, hm⟩
  refine Spec.ite (fun heq ↦ ?_) fun hne ↦ ?_
  · exact ⟨pos, s₁, hg, hg.bitsetSize, Or.inl ⟨heq, rfl, rfl⟩⟩
  · refine Spec.bind (P := fun _ s₂ ↦ s₂.mtx ≠ 0 ∧ SameBitset s₁ s₂) ⟨hm, rfl, rfl⟩ ?_
    rintro - s₂ ⟨hm₂, h₂⟩
    refine Spec.bind ((freePages_spec s₂ _ _).mono (fun _ _ h ↦ h) fun _ _ h ↦ absurd h.1 hm₂) ?_
    rintro - _ rfl
    exact ⟨pos, s₁, hg, h₂.bitsetSize.trans hg.bitsetSize,
      Or.inr ⟨hne, rfl, by rw [h₂.pagesUsed]⟩⟩

/-- With a kernel that refuses nothing, a move for which there is a fit returns. -/
theorem exists_shmMremap {start : ℕ} {newSize : BitVec 64} (hk : k.Accepts) (hm : s.mtx ≠ 0)
    (hfit : FirstFit s (pageCount newSize) start) (oldAddress : ℕ) (oldSize : BitVec 64) :
    ∃ a s', shmMremap k p oldAddress oldSize newSize s = .ok a s' := by
  cases h : shmMremap k p oldAddress oldSize newSize s with
  | ok a s' => exact ⟨a, s', rfl⟩
  | error e s' =>
    rcases ((shmMremap_spec s _ _ _).error h).cause hk with hno | h0
    · exact absurd hfit (hno start)
    · exact absurd h0 hm

theorem shmMunmap_spec (s : SharedMemoryInformation) (addr : ℕ) (length : BitVec 64) :
    Spec (shmMunmap addr length) s
      (fun _ s' ↦
        s'.pagesUsed = s.pagesUsed.setRange (addressToPageIndex addr) false (pageCount length) ∧
        s'.bitsetSize = s.bitsetSize)
      fun _ s' ↦ s' = s :=
  (freePages_spec s _ _).mono (fun _ _ h ↦ h ▸ ⟨rfl, rfl⟩) fun _ _ h ↦ h.2

end Cali.Shm
