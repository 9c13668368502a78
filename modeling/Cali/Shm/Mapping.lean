import Cali.Lib.Run
import Cali.Shm.Manager

/-!
# Which part of the segment is mapped

The segment grows when a process allocates pages.  The allocation follows the growth in its own
process.  The other process follows it when it allocates itself and when it receives a message:
`wait_for_return` calls `remap_shared_memory`, which compares `shared_size` with
`current_mapped_size`, calls `mremap`, and then reads `shared_size` once more to record it.
Allocations hold the mutex of the manager, but `wait_for_return` does not, so that the other
process can enlarge the segment between the `mremap` and the recording.

`mremap` leaves the segment in place here.  What `ftruncate` answers is part of a request.
-/

namespace Cali.Shm.Mapping

open Cali.Lib

def other : Process → Process
  | .main => .library
  | .library => .main

/-- The answers of the system calls: `mremap` succeeds in place. -/
def kernel (ftruncate : ℕ → Bool) : Kernel := ⟨ftruncate, fun _ _ ↦ .inPlace⟩

/-- The two requests for pages; a request for a move has a preferred position. -/
def request (k : Kernel) (p : Process) (count : ℕ) : Option ℕ → ShmM ℕ
  | none => requestContinousFreePages k p count
  | some preferredPos => requestContinousFreePagesForMove k p count preferredPos

/-- `internal_remap_shm` up to the call of `mremap`; the result tells whether the size is to be
recorded. -/
def remapSegment (k : Kernel) (p : Process) : ShmM Bool := fun s ↦
  if s.sharedSize > s.currentMappedSize p then
    match k.mremap (s.currentMappedSize p) s.sharedSize with
    | .mapFailed => .error (.exit 1) s
    | .moved => .error (.exit 1) { s with mapping := Function.update s.mapping p 0 }
    | .inPlace => .ok true { s with mapping := Function.update s.mapping p s.sharedSize }
  else
    .ok false s

/-- The end of `internal_remap_shm`, `shared_memory_remapped_to_size(base, shared_size)`. -/
def sharedMemoryRemapped (p : Process) (s : SharedMemoryInformation) : SharedMemoryInformation :=
  { s with currentMappedSize := Function.update s.currentMappedSize p s.sharedSize }

/-- The two parts of `internal_remap_shm`. -/
theorem internalRemapShm_eq (k : Kernel) (p : Process) :
    internalRemapShm k p = remapSegment k p >>= fun record ↦
      if record = true then modify (sharedMemoryRemapped p) else pure () := by
  funext s
  simp only [internalRemapShm, remapSegment, Bind.bind, EStateM.bind]
  by_cases hlt : s.sharedSize > s.currentMappedSize p
  · rw [if_pos hlt, if_pos hlt]
    cases k.mremap (s.currentMappedSize p) s.sharedSize <;> rfl
  · rw [if_neg hlt, if_neg hlt]
    rfl

/-! ## The two processes -/

/-- Pages that were allocated together: the index of the first one and their number. -/
abbrev Pages := ℕ × ℕ

/-- The offset at which the pages end. -/
def offsetEnd (r : Pages) : ℕ := (r.1 + r.2) * dlPagesize

/-- The pages lie in the first `size` bytes of the segment. -/
def Within (size : ℕ) (pages : List Pages) : Prop := ∀ r ∈ pages, offsetEnd r ≤ size

/-- The manager and what the processes know.  A message stands for the pages that its sender
had allocated when it was sent. -/
structure System where
  shm : SharedMemoryInformation
  /-- the message whose receiver is between `mremap` and the recording of the size -/
  remapping : Process → Option (List Pages)
  inbox : Process → List (List Pages)
  allocated : Process → List Pages
  received : Process → List Pages

def System.init (size bitsetSize usedPages : ℕ) : System where
  shm := .init size bitsetSize usedPages
  remapping := fun _ ↦ none
  inbox := fun _ ↦ []
  allocated := fun _ ↦ []
  received := fun _ ↦ []

namespace System

/-- A request by the process `p`; it fails if there is no fit or `ftruncate` refuses. -/
def allocate (s : System) (p : Process) (count : ℕ) (preferredPos : Option ℕ)
    (ftruncate : ℕ → Bool) : System :=
  match request (kernel ftruncate) p count preferredPos s.shm with
  | .ok pos shm =>
    { s with
      shm
      allocated := Function.update s.allocated p ((pos, count) :: s.allocated p) }
  | .error _ shm => { s with shm }

def free (s : System) (pos count : ℕ) : System :=
  match freePages pos count s.shm with
  | .ok _ shm => { s with shm }
  | .error _ shm => { s with shm }

/-- A trigger or a reply of the process `p`. -/
def send (s : System) (p : Process) : System :=
  { s with inbox := Function.update s.inbox (other p) (s.inbox (other p) ++ [s.allocated p]) }

/-- `wait_for_return` of the process `p` from the receipt of a message up to the `mremap`. -/
def receive (s : System) (p : Process) : System :=
  match s.inbox p with
  | [] => s
  | message :: messages =>
    let s := { s with inbox := Function.update s.inbox p messages }
    match remapSegment (kernel fun _ ↦ true) p s.shm with
    | .ok true shm =>
      { s with
        shm
        remapping := Function.update s.remapping p (some message) }
    | .ok false shm =>
      { s with
        shm
        received := Function.update s.received p (message ++ s.received p) }
    | .error _ shm => { s with shm }

/-- The process `p` records the size, and `wait_for_return` goes on. -/
def record (s : System) (p : Process) : System :=
  match s.remapping p with
  | none => s
  | some message =>
    { s with
      shm := sharedMemoryRemapped p s.shm
      remapping := Function.update s.remapping p none
      received := Function.update s.received p (message ++ s.received p) }

end System

inductive Action
  | allocate (p : Process) (count : ℕ) (preferredPos : Option ℕ) (ftruncate : ℕ → Bool)
  | free (pos count : ℕ)
  | send (p : Process)
  | receive (p : Process)
  | record (p : Process)

/-- A request waits for the mutex, a receipt for a message. -/
def enabled (s : System) : Action → Bool
  | .allocate .. => decide (s.shm.mtx ≠ 0)
  | .free .. => decide (s.shm.mtx ≠ 0)
  | .send _ => true
  | .receive p => (s.remapping p).isNone && !(s.inbox p).isEmpty
  | .record p => (s.remapping p).isSome

def exec (s : System) : Action → System
  | .allocate p count preferredPos ftruncate => s.allocate p count preferredPos ftruncate
  | .free pos count => s.free pos count
  | .send p => s.send p
  | .receive p => s.receive p
  | .record p => s.record p

def Step (s : System) (a : Action) (s' : System) : Prop := enabled s a = true ∧ s' = exec s a

/-- **Received pointers are mapped**: no process has recorded more than the size of the segment,
and a mapping covers the pages that its process has allocated and those that the other process
had allocated before it sent a message that has been received. -/
structure Mapped (s : System) : Prop where
  current_le : ∀ p, s.shm.currentMappedSize p ≤ s.shm.sharedSize
  allocated : ∀ p, Within (s.shm.mapping p) (s.allocated p)
  received : ∀ p, Within (s.shm.mapping p) (s.received p)

/-- A request does not enlarge the segment while a process is between `mremap` and the
recording of the size. -/
def Calm (s : System) : Action → Prop
  | .allocate _ count _ _ =>
    (∀ p, s.remapping p = none) ∨
      ∀ start, FirstFit s.shm count start →
        offsetEnd (start + 1, count) ≤ s.shm.sharedSize
  | _ => True

/-! ## What a request does to the sizes -/

section Sizes

variable {k : Kernel} {p q : Process} {bound : ℕ} {s s' s'' : SharedMemoryInformation}

/-- What an operation of the process `p` does to the sizes: the segment does not shrink, and it
does not grow beyond `bound`; the other process keeps its mapping, and the process itself
keeps it or follows the growth. -/
structure Resized (p : Process) (bound : ℕ) (s s' : SharedMemoryInformation) : Prop where
  sharedSize_le : s.sharedSize ≤ s'.sharedSize
  le_max : s'.sharedSize ≤ max s.sharedSize bound
  others : ∀ q, q ≠ p →
    s'.mapping q = s.mapping q ∧ s'.currentMappedSize q = s.currentMappedSize q
  own : s'.mapping p = s.mapping p ∧ s'.currentMappedSize p = s.currentMappedSize p ∨
    s'.mapping p = s'.currentMappedSize p ∧ s.sharedSize ≤ s'.mapping p ∧
      s'.mapping p ≤ s'.sharedSize

/-- The sizes are the same. -/
structure SameSizes (s s' : SharedMemoryInformation) : Prop where
  sharedSize : s'.sharedSize = s.sharedSize
  mapping : s'.mapping = s.mapping
  currentMappedSize : s'.currentMappedSize = s.currentMappedSize

theorem SameSizes.resized (h : SameSizes s s') : Resized p bound s s' where
  sharedSize_le := h.sharedSize.ge
  le_max := h.sharedSize.trans_le (le_max_left ..)
  others := fun q _ ↦ ⟨congrFun h.mapping q, congrFun h.currentMappedSize q⟩
  own := Or.inl ⟨congrFun h.mapping p, congrFun h.currentMappedSize p⟩

theorem Resized.trans (h : Resized p bound s s') (h' : Resized p bound s' s'') :
    Resized p bound s s'' where
  sharedSize_le := h.sharedSize_le.trans h'.sharedSize_le
  le_max := h'.le_max.trans (max_le h.le_max (le_max_right ..))
  others := fun q hq ↦
    ⟨(h'.others q hq).1.trans (h.others q hq).1, (h'.others q hq).2.trans (h.others q hq).2⟩
  own := by
    have hle := h.sharedSize_le
    have hle' := h'.sharedSize_le
    rcases h'.own with ⟨hmapping, hcurrent⟩ | ⟨heq, hshared, hmapping⟩
    · rcases h.own with ⟨hm, hc⟩ | ⟨hm, hs, hms⟩
      · exact Or.inl ⟨hmapping.trans hm, hcurrent.trans hc⟩
      · exact Or.inr ⟨by omega, by omega, by omega⟩
    · exact Or.inr ⟨heq, by omega, hmapping⟩

theorem resized_follow (hshared : s'.sharedSize = s.sharedSize)
    (hmapping : s'.mapping = Function.update s.mapping p s.sharedSize)
    (hcurrent : s'.currentMappedSize = Function.update s.currentMappedSize p s.sharedSize) :
    Resized p bound s s' where
  sharedSize_le := hshared.ge
  le_max := hshared.trans_le (le_max_left ..)
  others := fun q hq ↦ by
    rw [hmapping, hcurrent, Function.update_of_ne hq, Function.update_of_ne hq]
    exact ⟨rfl, rfl⟩
  own := by
    rw [hmapping, hcurrent, hshared, Function.update_self, Function.update_self]
    exact Or.inr ⟨rfl, le_refl _, le_refl _⟩

theorem internalRemapShm_spec (ftruncate : ℕ → Bool) (s : SharedMemoryInformation) :
    Spec (internalRemapShm (kernel ftruncate) p) s (fun _ s' ↦ Resized p bound s s')
      fun _ s' ↦ Resized p bound s s' := by
  by_cases hlt : s.sharedSize > s.currentMappedSize p
  · refine Spec.of_ok (if_pos hlt) ?_
    exact resized_follow rfl rfl rfl
  · exact Spec.of_ok (if_neg hlt) (SameSizes.resized ⟨rfl, rfl, rfl⟩)

/-- `remapSharedMemory` with the size of the mapping. -/
theorem remapSharedMemory_spec (bound : ℕ) (ftruncate : ℕ → Bool) (old : ℕ)
    (s : SharedMemoryInformation) :
    Spec (remapSharedMemory (kernel ftruncate) p old) s
      (fun _ s' ↦ Resized p bound s s' ∧ s'.sharedSize = s.sharedSize ∧
        s'.currentMappedSize p = s.sharedSize)
      fun _ _ ↦ False :=
  ⟨resized_follow rfl rfl rfl, rfl, Function.update_self ..⟩

theorem setFDsize_spec (s : SharedMemoryInformation) :
    Spec (setFDsize k) s (fun _ s' ↦ SameSizes s s') fun _ s' ↦ SameSizes s s' := by
  by_cases h : k.ftruncate s.sharedSize = true
  · exact Spec.of_ok (if_pos h) ⟨rfl, rfl, rfl⟩
  · exact Spec.of_error (if_neg h) ⟨rfl, rfl, rfl⟩

theorem resizeSharedMemory_spec (ftruncate : ℕ → Bool) {pages : ℕ}
    (hlt : s.sharedSize < pages * dlPagesize) (hbound : pages * dlPagesize ≤ bound) :
    Spec (resizeSharedMemory (kernel ftruncate) p pages) s
      (fun _ s' ↦ Resized p bound s s' ∧ pages * dlPagesize ≤ s'.sharedSize)
      fun _ s' ↦ Resized p bound s s' := by
  unfold resizeSharedMemory
  refine Spec.get_bind (Spec.ite (fun heq ↦ absurd heq hlt.ne') fun _ ↦ Spec.set_bind ?_)
  have hraised : Resized p bound s { s with sharedSize := dlPagesize * pages } := by
    rw [Nat.mul_comm]
    exact ⟨hlt.le, hbound.trans (le_max_right ..), fun _ _ ↦ ⟨rfl, rfl⟩, Or.inl ⟨rfl, rfl⟩⟩
  refine Spec.bind ((setFDsize_spec _).mono (fun _ _ h ↦ h) fun _ _ h ↦ hraised.trans h.resized) ?_
  rintro - s₁ h₁
  refine Spec.bind ((remapSharedMemory_spec bound ftruncate _ s₁).mono (fun _ _ h ↦ h)
    fun _ _ h ↦ h.elim) ?_
  rintro - s₂ ⟨h₂, hshared, -⟩
  refine ⟨hraised.trans (h₁.resized.trans (h₂.trans (SameSizes.resized ⟨rfl, rfl, rfl⟩))), ?_⟩
  rw [Nat.mul_comm]
  exact (hshared.trans h₁.sharedSize).ge

theorem enlarge_spec (ftruncate : ℕ → Bool) {pages : ℕ} (s : SharedMemoryInformation)
    (hbound : pages * dlPagesize ≤ bound) :
    Spec (enlarge (kernel ftruncate) p pages) s
      (fun _ s' ↦ Resized p bound s s' ∧ pages * dlPagesize ≤ s'.sharedSize)
      fun _ s' ↦ Resized p bound s s' := by
  unfold enlarge
  refine Spec.get_bind (Spec.ite (fun hlt ↦ resizeSharedMemory_spec ftruncate hlt hbound)
    fun hle ↦ ?_)
  exact ⟨SameSizes.resized ⟨rfl, rfl, rfl⟩, not_lt.mp hle⟩

/-- After `followResize` the size of the segment has been recorded. -/
theorem followResize_spec (bound : ℕ) (ftruncate : ℕ → Bool) (s : SharedMemoryInformation) :
    Spec (followResize (kernel ftruncate) p) s
      (fun _ s' ↦ Resized p bound s s' ∧ s'.sharedSize = s.sharedSize ∧
        s'.sharedSize ≤ s'.currentMappedSize p)
      fun _ _ ↦ False := by
  unfold followResize
  refine Spec.get_bind (Spec.ite (fun _ ↦ ?_) fun hle ↦ ?_)
  · refine (remapSharedMemory_spec bound ftruncate _ s).mono ?_ fun _ _ h ↦ h.elim
    rintro - s' ⟨h, hshared, hcurrent⟩
    exact ⟨h, hshared, (hshared.trans hcurrent.symm).le⟩
  · exact ⟨SameSizes.resized ⟨rfl, rfl, rfl⟩, rfl, not_lt.mp hle⟩

theorem clearReused_spec (pos count : ℕ) (s : SharedMemoryInformation) :
    Spec (clearReused pos count) s (fun _ s' ↦ SameSizes s s') fun _ _ ↦ False := by
  by_cases h : pos < s.firstUnusedPageIndex
  · exact Spec.of_ok (if_pos h) ⟨rfl, rfl, rfl⟩
  · exact Spec.of_ok (if_neg h) ⟨rfl, rfl, rfl⟩

/-- `bound` is an upper bound for the size that a request can ask for. -/
def Bounds (s : SharedMemoryInformation) (count bound : ℕ) : Prop :=
  ∀ start, FirstFit s count start → offsetEnd (start + 1, count) ≤ bound

/-- **A request** records the size of the segment, in which the pages end. -/
def Recorded (p : Process) (bound count : ℕ) (s : SharedMemoryInformation) (pos : ℕ)
    (s' : SharedMemoryInformation) : Prop :=
  Resized p bound s s' ∧ offsetEnd (pos, count) ≤ s'.sharedSize ∧
    s'.sharedSize ≤ s'.currentMappedSize p

theorem requestContinousFreePagesInternal_recorded (ftruncate : ℕ → Bool) {count : ℕ}
    (hbound : Bounds s count bound) :
    Spec (requestContinousFreePagesInternal (kernel ftruncate) p count) s
      (Recorded p bound count s) fun _ s' ↦ Resized p bound s s' := by
  unfold requestContinousFreePagesInternal
  refine Spec.bind (P := fun pos s' ↦ s' = s ∧ offsetEnd (pos, count) ≤ bound) ?_ ?_
  · cases hfind : findContinousFreePages s.pagesUsed s.bitsetSize count with
    | some pos =>
      obtain ⟨start, hfit, rfl⟩ := findContinousFreePages_eq_some_iff.mp hfind
      exact Spec.of_ok (by simp only [searchPages, hfind]) ⟨rfl, hbound start hfit⟩
    | none =>
      exact Spec.of_error (by simp only [searchPages, hfind]; rfl)
        (SameSizes.resized ⟨rfl, rfl, rfl⟩)
  · rintro pos s₀ ⟨hs₀, hpos⟩
    rw [hs₀]
    refine Spec.bind (enlarge_spec ftruncate s hpos) ?_
    rintro - s₁ ⟨h₁, hend⟩
    refine Spec.bind ((followResize_spec bound ftruncate s₁).mono (fun _ _ h ↦ h)
      fun _ _ h ↦ h.elim) ?_
    rintro - s₂ ⟨h₂, hshared, hcurrent⟩
    refine Spec.bind ((clearReused_spec pos count s₂).mono (fun _ _ h ↦ h) fun _ _ h ↦ h.elim) ?_
    rintro - s₃ h₃
    have hle : s₃.sharedSize = s₁.sharedSize := h₃.sharedSize.trans hshared
    refine ⟨h₁.trans (h₂.trans (h₃.resized.trans (SameSizes.resized ⟨rfl, rfl, rfl⟩))),
      hend.trans hle.ge, ?_⟩
    show s₃.sharedSize ≤ s₃.currentMappedSize p
    rw [h₃.sharedSize, h₃.currentMappedSize]
    exact hcurrent

theorem Bounds.congr {count : ℕ} (h : Bounds s count bound) (hsame : SameBitset s s') :
    Bounds s' count bound := fun start hfit ↦ h start ((FirstFit.congr hsame).mp hfit)

theorem exists_bounds (s : SharedMemoryInformation) (count : ℕ) :
    ∃ bound, Bounds s count bound := by
  by_cases h : ∃ start, FirstFit s count start
  · obtain ⟨start, hfit⟩ := h
    refine ⟨offsetEnd (start + 1, count), fun start' hfit' ↦ ?_⟩
    rw [hfit.unique hfit']
  · exact ⟨0, fun start hfit ↦ absurd ⟨start, hfit⟩ h⟩

theorem Recorded.congr {count pos : ℕ} {s₀ s₁ : SharedMemoryInformation}
    (h : Recorded p bound count s₀ pos s₁) (hs : SameSizes s s₀) (hs' : SameSizes s₁ s') :
    Recorded p bound count s pos s' := by
  obtain ⟨hresized, hend, hcurrent⟩ := h
  refine ⟨hs.resized.trans (hresized.trans hs'.resized), ?_⟩
  rw [hs'.sharedSize, hs'.currentMappedSize]
  exact ⟨hend, hcurrent⟩

theorem withLock_recorded {x : ShmM ℕ} {count : ℕ}
    (hx : Spec x { s with mtx := s.mtx - 1 }
      (Recorded p bound count { s with mtx := s.mtx - 1 })
      fun _ s' ↦ Resized p bound { s with mtx := s.mtx - 1 } s') :
    Spec (withLock x) s (Recorded p bound count s) fun _ s' ↦ Resized p bound s s' := by
  have hs : SameSizes s { s with mtx := s.mtx - 1 } := ⟨rfl, rfl, rfl⟩
  refine (withLock_spec hx).mono ?_ ?_
  · rintro pos _ ⟨-, s₁, n, h, rfl⟩
    exact h.congr hs ⟨rfl, rfl, rfl⟩
  · rintro - _ (⟨-, rfl⟩ | ⟨-, s₁, n, h, rfl⟩)
    · exact SameSizes.resized ⟨rfl, rfl, rfl⟩
    · exact hs.resized.trans (h.trans (SameSizes.resized ⟨rfl, rfl, rfl⟩))

theorem request_recorded (ftruncate : ℕ → Bool) {count : ℕ} (hbound : Bounds s count bound)
    (preferredPos : Option ℕ) :
    Spec (request (kernel ftruncate) p count preferredPos) s (Recorded p bound count s)
      fun _ s' ↦ Resized p bound s s' := by
  have hlocked : Bounds { s with mtx := s.mtx - 1 } count bound := hbound.congr ⟨rfl, rfl⟩
  cases preferredPos with
  | none =>
    refine withLock_recorded (Spec.bind (((internalRemapShm_spec ftruncate _).and
      (internalRemapShm_keepsBitset _)).mono (fun _ _ h ↦ h) fun _ _ h ↦ h.1) ?_)
    rintro - s₁ ⟨h₁, hsame⟩
    refine (requestContinousFreePagesInternal_recorded ftruncate (hlocked.congr hsame)).mono
      ?_ fun _ _ h ↦ h₁.trans h
    rintro pos s₂ ⟨h₂, hend, hcurrent⟩
    exact ⟨h₁.trans h₂, hend, hcurrent⟩
  | some preferredPos =>
    exact withLock_recorded (requestContinousFreePagesInternal_recorded ftruncate hlocked)

theorem freePages_sameSizes (pos count : ℕ) (s : SharedMemoryInformation) :
    Spec (freePages pos count) s (fun _ s' ↦ SameSizes s s') fun _ s' ↦ SameSizes s s' := by
  refine (freePages_spec s pos count).mono ?_ ?_
  · rintro - _ rfl
    exact ⟨rfl, rfl, rfl⟩
  · rintro - _ ⟨-, rfl⟩
    exact ⟨rfl, rfl, rfl⟩

end Sizes

/-! ## The invariant -/

section Invariant

variable {p : Process} {bound : ℕ} {s s' : System} {a : Action} {shm : SharedMemoryInformation}

theorem Within.mono {size size' : ℕ} {pages : List Pages} (h : Within size pages)
    (hle : size ≤ size') : Within size' pages := fun r hr ↦ (h r hr).trans hle

/-- What holds of both processes still holds when one of them has a new value for which it
holds. -/
theorem forall_update {γ : Type} {f : Process → γ} {v : γ} (P : Process → γ → Prop) (hv : P p v)
    (h : ∀ q, P q (f q)) : ∀ q, P q (Function.update f p v q) :=
  (Function.forall_update_iff f P).mpr ⟨hv, fun q _ ↦ h q⟩

/-- What has been recorded is mapped, and a process that has yet to record has mapped the whole
segment.  All pages that messages are about lie inside of the segment. -/
structure Inv (s : System) : Prop where
  current_le : ∀ p, s.shm.currentMappedSize p ≤ s.shm.mapping p
  mapping_le : ∀ p, s.shm.mapping p ≤ s.shm.sharedSize
  remapping : ∀ p message, s.remapping p = some message →
    s.shm.sharedSize ≤ s.shm.mapping p ∧ Within s.shm.sharedSize message
  inbox : ∀ p, ∀ message ∈ s.inbox p, Within s.shm.sharedSize message
  allocated : ∀ p, Within (s.shm.mapping p) (s.allocated p)
  received : ∀ p, Within (s.shm.mapping p) (s.received p)

theorem Inv.mapped (h : Inv s) : Mapped s :=
  ⟨fun p ↦ (h.current_le p).trans (h.mapping_le p), h.allocated, h.received⟩

theorem Inv.init (size bitsetSize usedPages : ℕ) : Inv (.init size bitsetSize usedPages) :=
  ⟨fun _ ↦ le_refl _, fun _ ↦ le_refl _, nofun, nofun, nofun, nofun⟩

theorem Inv.mapping_mono (h : Inv s) (hresized : Resized p bound s.shm shm) (q : Process) :
    s.shm.mapping q ≤ shm.mapping q := by
  rcases eq_or_ne q p with rfl | hne
  · rcases hresized.own with ⟨hmapping, -⟩ | ⟨-, hle, -⟩
    · exact hmapping.ge
    · exact (h.mapping_le q).trans hle
  · exact (hresized.others q hne).1.ge

/-- **The manager changes the sizes**, but not the size of the segment while a process has yet to
record it. -/
theorem Inv.resized (h : Inv s) (hresized : Resized p bound s.shm shm)
    (hcalm : (∀ q, s.remapping q = none) ∨ shm.sharedSize = s.shm.sharedSize) :
    Inv { s with shm } := by
  have hmono := h.mapping_mono hresized
  have hshared := hresized.sharedSize_le
  refine ⟨fun q ↦ ?_, fun q ↦ ?_, fun q message hq ↦ ?_, ?_, ?_, ?_⟩
  · rcases eq_or_ne q p with rfl | hne
    · rcases hresized.own with ⟨hmapping, hcurrent⟩ | ⟨heq, -⟩
      · exact hcurrent.trans_le ((h.current_le q).trans hmapping.ge)
      · exact heq.ge
    · obtain ⟨hmapping, hcurrent⟩ := hresized.others q hne
      exact hcurrent.trans_le ((h.current_le q).trans hmapping.ge)
  · rcases eq_or_ne q p with rfl | hne
    · rcases hresized.own with ⟨hmapping, -⟩ | ⟨-, -, hle⟩
      · exact hmapping.trans_le ((h.mapping_le q).trans hshared)
      · exact hle
    · exact (hresized.others q hne).1.trans_le ((h.mapping_le q).trans hshared)
  · obtain ⟨hle, hmessage⟩ := h.remapping q message hq
    rcases hcalm with hnone | hsame
    · exact absurd (hq.symm.trans (hnone q)) nofun
    · exact ⟨hsame.trans_le (hle.trans (hmono q)), hmessage.mono hshared⟩
  · exact fun q message hm ↦ (h.inbox q message hm).mono hshared
  · exact fun q ↦ (h.allocated q).mono (hmono q)
  · exact fun q ↦ (h.received q).mono (hmono q)

theorem Inv.allocate (h : Inv s) {count : ℕ} {preferredPos : Option ℕ} {ftruncate : ℕ → Bool}
    (hcalm : Calm s (.allocate p count preferredPos ftruncate)) :
    Inv (s.allocate p count preferredPos ftruncate) := by
  obtain ⟨bound, hbound, hquiet⟩ : ∃ bound, Bounds s.shm count bound ∧
      ((∀ q, s.remapping q = none) ∨ bound ≤ s.shm.sharedSize) := by
    rcases hcalm with hnone | hfits
    · obtain ⟨bound, hbound⟩ := exists_bounds s.shm count
      exact ⟨bound, hbound, Or.inl hnone⟩
    · exact ⟨s.shm.sharedSize, hfits, Or.inr (le_refl _)⟩
  have hsame : ∀ {shm}, Resized p bound s.shm shm →
      (∀ q, s.remapping q = none) ∨ shm.sharedSize = s.shm.sharedSize := fun hresized ↦
    hquiet.imp_right fun hle ↦
      le_antisymm (hresized.le_max.trans (max_le (le_refl _) hle)) hresized.sharedSize_le
  have hspec := request_recorded (p := p) ftruncate hbound preferredPos
  unfold System.allocate
  cases hrequest : request (kernel ftruncate) p count preferredPos s.shm with
  | ok pos shm =>
    obtain ⟨hresized, hend, hcurrent⟩ := hspec.ok hrequest
    have hinv := h.resized hresized (hsame hresized)
    have hpages : offsetEnd (pos, count) ≤ shm.mapping p :=
      hend.trans (hcurrent.trans (hinv.current_le p))
    exact { hinv with
      allocated := forall_update (fun q pages ↦ Within (shm.mapping q) pages)
        (List.forall_mem_cons.mpr ⟨hpages, hinv.allocated p⟩) hinv.allocated }
  | error e shm =>
    have hresized := hspec.error hrequest
    exact h.resized hresized (hsame hresized)

theorem Inv.free (h : Inv s) (pos count : ℕ) : Inv (s.free pos count) := by
  have hspec := freePages_sameSizes pos count s.shm
  have hinv : ∀ {shm}, SameSizes s.shm shm → Inv { s with shm } := fun {shm} hsame ↦ by
    have hresized : Resized .main 0 s.shm shm := hsame.resized
    exact h.resized hresized (Or.inr hsame.sharedSize)
  unfold System.free
  cases hfree : freePages pos count s.shm with
  | ok _ shm => exact hinv (hspec.ok hfree)
  | error e shm => exact hinv (hspec.error hfree)

/-- **A message** is about pages that lie inside of the segment. -/
theorem Inv.send (h : Inv s) (p : Process) : Inv (s.send p) := by
  have hmessage : Within s.shm.sharedSize (s.allocated p) :=
    (h.allocated p).mono (h.mapping_le p)
  exact { h with
    inbox := forall_update (fun _ messages ↦ ∀ message ∈ messages, Within s.shm.sharedSize message)
      (List.forall_mem_append.mpr ⟨h.inbox (other p), List.forall_mem_singleton.mpr hmessage⟩)
      h.inbox }

theorem Inv.deliver (h : Inv s) {message : List Pages}
    (hmessage : Within (s.shm.mapping p) message) :
    Inv { s with received := Function.update s.received p (message ++ s.received p) } := by
  exact { h with
    received := forall_update (fun q pages ↦ Within (s.shm.mapping q) pages)
      (List.forall_mem_append.mpr ⟨hmessage, h.received p⟩) h.received }

/-- **The receiver maps the segment** and has yet to record its size. -/
theorem Inv.remap (h : Inv s) {message : List Pages}
    (hmessage : Within s.shm.sharedSize message) :
    Inv { s with
      shm := { s.shm with mapping := Function.update s.shm.mapping p s.shm.sharedSize }
      remapping := Function.update s.remapping p (some message) } := by
  have hmono : ∀ q, s.shm.mapping q ≤ Function.update s.shm.mapping p s.shm.sharedSize q :=
    forall_update (fun q size ↦ s.shm.mapping q ≤ size) (h.mapping_le p) fun _ ↦ le_refl _
  refine ⟨fun q ↦ (h.current_le q).trans (hmono q), ?_, ?_, h.inbox,
    fun q ↦ (h.allocated q).mono (hmono q), fun q ↦ (h.received q).mono (hmono q)⟩
  · exact forall_update (fun _ size ↦ size ≤ s.shm.sharedSize) (le_refl _) h.mapping_le
  · refine forall_update (fun q pending ↦ ∀ message, pending = some message →
      s.shm.sharedSize ≤ Function.update s.shm.mapping p s.shm.sharedSize q ∧
        Within s.shm.sharedSize message) ?_ fun q message' hm ↦ ?_
    · intro message' hm
      obtain rfl : message = message' := Option.some.inj hm
      rw [Function.update_self]
      exact ⟨le_refl _, hmessage⟩
    · obtain ⟨hle, hmessage'⟩ := h.remapping q message' hm
      exact ⟨hle.trans (hmono q), hmessage'⟩

theorem Inv.receive (h : Inv s) (p : Process) : Inv (s.receive p) := by
  unfold System.receive
  cases hinbox : s.inbox p with
  | nil => exact h
  | cons message messages =>
    obtain ⟨hmessage, hmessages⟩ := List.forall_mem_cons.mp (hinbox ▸ h.inbox p)
    have htaken : Inv { s with inbox := Function.update s.inbox p messages } :=
      { h with
        inbox := forall_update (fun _ messages ↦ ∀ m ∈ messages, Within s.shm.sharedSize m)
          hmessages h.inbox }
    by_cases hlt : s.shm.sharedSize > s.shm.currentMappedSize p
    · dsimp only [remapSegment]
      rw [if_pos hlt]
      exact htaken.remap hmessage
    · dsimp only [remapSegment]
      rw [if_neg hlt]
      exact htaken.deliver (hmessage.mono ((not_lt.mp hlt).trans (h.current_le p)))

/-- **The receiver records the size of the segment**, which it has mapped. -/
theorem Inv.record (h : Inv s) (p : Process) : Inv (s.record p) := by
  unfold System.record
  cases hremapping : s.remapping p with
  | none => exact h
  | some message =>
    obtain ⟨hmapping, hmessage⟩ := h.remapping p message hremapping
    have hdelivered := h.deliver (hmessage.mono hmapping)
    refine { hdelivered with current_le := ?_, remapping := ?_ }
    · exact forall_update (fun q size ↦ size ≤ s.shm.mapping q) hmapping h.current_le
    · exact forall_update (fun q pending ↦ ∀ message, pending = some message →
        s.shm.sharedSize ≤ s.shm.mapping q ∧ Within s.shm.sharedSize message) nofun h.remapping

theorem Inv.step (h : Inv s) (hcalm : Calm s a) (hstep : Step s a s') : Inv s' := by
  obtain ⟨-, rfl⟩ := hstep
  cases a with
  | allocate p count preferredPos ftruncate => exact h.allocate hcalm
  | free pos count => exact h.free pos count
  | send p => exact h.send p
  | receive p => exact h.receive p
  | record p => exact h.record p

/-- **The segment does not shrink**, whatever the processes do. -/
theorem sharedSize_le_of_step (hstep : Step s a s') : s.shm.sharedSize ≤ s'.shm.sharedSize := by
  obtain ⟨-, rfl⟩ := hstep
  cases a with
  | allocate p count preferredPos ftruncate =>
    obtain ⟨bound, hbound⟩ := exists_bounds s.shm count
    have hspec := request_recorded (p := p) ftruncate hbound preferredPos
    unfold exec System.allocate
    dsimp only
    cases hrequest : request (kernel ftruncate) p count preferredPos s.shm with
    | ok pos shm => exact (hspec.ok hrequest).1.sharedSize_le
    | error e shm => exact (hspec.error hrequest).sharedSize_le
  | free pos count =>
    have hspec := freePages_sameSizes pos count s.shm
    unfold exec System.free
    dsimp only
    cases hfree : freePages pos count s.shm with
    | ok _ shm => exact (hspec.ok hfree).sharedSize.ge
    | error e shm => exact (hspec.error hfree).sharedSize.ge
  | send p => exact le_refl _
  | receive p =>
    unfold exec System.receive
    dsimp only
    cases s.inbox p with
    | nil => exact le_refl _
    | cons message messages =>
      by_cases hlt : s.shm.sharedSize > s.shm.currentMappedSize p
      · dsimp only [remapSegment]
        rw [if_pos hlt]
        exact le_refl s.shm.sharedSize
      · dsimp only [remapSegment]
        rw [if_neg hlt]
  | record p =>
    unfold exec System.record
    dsimp only
    cases s.remapping p with
    | none => exact le_refl _
    | some message => exact le_refl _

/-- **Received pointers are mapped** in every run in which no request enlarges the segment while
a process has yet to record its size. -/
theorem mapped_of_calm {size bitsetSize usedPages : ℕ} {t : List (Action × System)}
    (hrun : IsRun Step (.init size bitsetSize usedPages) t)
    (hcalm : RunOk Calm (.init size bitsetSize usedPages) t) :
    (runStates (System.init size bitsetSize usedPages) t).Pairwise
        (fun s s' ↦ s.shm.sharedSize ≤ s'.shm.sharedSize) ∧
      ∀ s ∈ runStates (System.init size bitsetSize usedPages) t, Mapped s := by
  have hle : ∀ s a s', Step s a s' → s.shm.sharedSize ≤ s'.shm.sharedSize :=
    fun s a s' ↦ sharedSize_le_of_step
  have hstep : ∀ s a s', Inv s → Calm s a → Step s a s' → Inv s' :=
    fun s a s' h hcalm ↦ h.step hcalm
  refine ⟨hrun.pairwise hle fun s s' s'' h h' ↦ le_trans h h', fun s hs ↦ ?_⟩
  exact (hrun.invariant hstep (Inv.init size bitsetSize usedPages) hcalm s hs).mapped

/-- A request that `ftruncate` does not refuse. -/
def pages (p : Process) (count : ℕ) : Action := .allocate p count none fun _ ↦ true

/-- No process has yet to record a size. -/
def Quiet (s : System) : Prop := s.remapping .main = none ∧ s.remapping .library = none

instance (s : System) : Decidable (Quiet s) := inferInstanceAs (Decidable (_ ∧ _))

theorem Quiet.calm {p : Process} {count : ℕ} (h : Quiet s) : Calm s (pages p count) := by
  refine Or.inl fun q ↦ ?_
  cases q with
  | main => exact h.1
  | library => exact h.2

/-- The program allocates a page and calls the library, which allocates two pages and returns. -/
theorem mapped_callAndReturn :
    ∃ t : List (Action × System), IsRun Step (.init 8192 1 2) t ∧ RunOk Calm (.init 8192 1 2) t ∧
      t.length = 8 ∧ ∀ s ∈ runStates (System.init 8192 1 2) t, Mapped s := by
  let t := trace exec (.init 8192 1 2)
    [pages .main 1, .send .main, .receive .library, .record .library,
      pages .library 2, .send .library, .receive .main, .record .main]
  have hrun : IsRun Step (.init 8192 1 2) t := by
    refine isRun_trace ?_
    simp only [Step, and_true]
    decide +kernel
  have hcalm : RunOk Calm (.init 8192 1 2) t := by
    refine ⟨Quiet.calm (by decide), trivial, trivial, trivial, Quiet.calm (by decide +kernel),
      trivial, trivial, trivial, trivial⟩
  exact ⟨t, hrun, hcalm, rfl, (mapped_of_calm hrun hcalm).2⟩

/-- The program calls the library, and another of its threads enlarges the segment while the
library has yet to record its size.  The library records more than it has mapped and returns;
it does not map the pages of the next call. -/
theorem not_mapped_enlarged :
    ∃ t : List (Action × System), IsRun Step (.init 8192 1 2) t ∧
      ∃ s ∈ runStates (System.init 8192 1 2) t,
        s.shm.mapping .library = 16384 ∧ s.shm.currentMappedSize .library = 28672 ∧
        s.received .library = [(5, 2), (3, 1), (3, 1)] ∧ ¬ Mapped s := by
  let t := trace exec (.init 8192 1 2)
    [pages .main 1, .send .main, .receive .library, pages .main 2, .record .library,
      .send .library, .receive .main, .send .main, .receive .library]
  have hrun : IsRun Step (.init 8192 1 2) t := by
    refine isRun_trace ?_
    simp only [Step, and_true]
    decide +kernel
  obtain ⟨s, hs, hmapping, hcurrent, hreceived⟩ : ∃ s ∈ runStates (System.init 8192 1 2) t,
      s.shm.mapping .library = 16384 ∧ s.shm.currentMappedSize .library = 28672 ∧
      s.received .library = [(5, 2), (3, 1), (3, 1)] := by
    decide +kernel
  refine ⟨t, hrun, s, hs, hmapping, hcurrent, hreceived, fun h ↦ ?_⟩
  have hlast : offsetEnd (5, 2) ≤ s.shm.mapping .library :=
    h.received .library (5, 2) (hreceived ▸ List.mem_cons_self)
  rw [hmapping] at hlast
  exact absurd hlast (by decide)

end Invariant

end Cali.Shm.Mapping
