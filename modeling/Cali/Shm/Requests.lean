import Cali.Lib.Run
import Cali.Shm.Allocation
import Cali.Shm.Mapping

/-!
# Requests that fail

A request for pages enlarges the segment step by step: `shared_size`, the file, the mapping of
the process, and last the bits of the pages.  An exception in between leaves behind what has
been written so far.  The mutex is released by the destructor of the guard.

A request that finds no pages has written nothing.  The process may have followed an earlier
growth of the segment, which nobody else can tell.  A request that fails because `ftruncate` or
`mremap` refuses leaves `shared_size` above the size of the file or of the mapping.
-/

namespace Cali.Shm.Requests

open Cali.Lib Mapping

/-! ## The calls -/

/-- The calls of the manager: requests, frees, and the service that follows the growth of the
segment. -/
inductive Action
  | request (p : Process) (k : Kernel) (count : ℕ) (preferredPos : Option ℕ)
  | free (pos count : ℕ)
  | remap (p : Process) (k : Kernel)

def call : Action → ShmM Unit
  | .request p k count preferredPos => do
      let _ ← request k p count preferredPos
      return ()
  | .free pos count => freePages pos count
  | .remap p k => internalRemapShm k p

/-- One call; whether it returns or fails, the state it leaves behind is the next one. -/
inductive Step (s : SharedMemoryInformation) (a : Action) : SharedMemoryInformation → Prop
  | returns {s' : SharedMemoryInformation} (h : call a s = .ok () s') : Step s a s'
  | fails {e : Failure} {s' : SharedMemoryInformation} (h : call a s = .error e s') : Step s a s'

/-- There is no run of free pages that is long enough. -/
def tooMuchMemory : Failure := .runtimeError "Too much memory used! (NOT IMPLEMENTED)"

/-- `mremap` has moved the mapping, or the process has exited because it could not follow the
segment.  Either way the mapping is lost. -/
def MappingLost : Failure → Prop
  | .runtimeError what => what = "Remap failed (memory moved)"
  | .exit _ => True
  | .blocked => False

/-- The call does not cost the process its mapping. -/
def Orderly (s : SharedMemoryInformation) (a : Action) : Prop :=
  ∀ e s', call a s = .error e s' → ¬ MappingLost e

/-! ## What the processes know about their mappings -/

/-- Each process knows the size of its mapping, which lies in the segment. -/
def MappingsKnown (s : SharedMemoryInformation) : Prop :=
  ∀ p, s.currentMappedSize p = s.mapping p ∧ s.mapping p ≤ s.sharedSize

/-- `x` keeps `MappingsKnown` unless the process loses its mapping. -/
def KeepsMappings {α : Type} (x : ShmM α) : Prop :=
  ∀ s, MappingsKnown s → Spec x s (fun _ s' ↦ MappingsKnown s')
    fun e s' ↦ ¬ MappingLost e → MappingsKnown s'

section KeepsMappings

variable {k : Kernel} {p : Process} {s s' : SharedMemoryInformation} {α β : Type}

theorem MappingsKnown.congr (h : MappingsKnown s) (hshared : s.sharedSize ≤ s'.sharedSize)
    (hmapping : s'.mapping = s.mapping) (hcurrent : s'.currentMappedSize = s.currentMappedSize) :
    MappingsKnown s' := by
  intro q
  rw [hmapping, hcurrent]
  exact ⟨(h q).1, (h q).2.trans hshared⟩

/-- The state in which the process has followed the growth of the segment. -/
def follow (p : Process) (s : SharedMemoryInformation) : SharedMemoryInformation :=
  { s with
    mapping := Function.update s.mapping p s.sharedSize
    currentMappedSize := Function.update s.currentMappedSize p s.sharedSize }

theorem sharedSize_follow_le (p : Process) (s : SharedMemoryInformation) :
    (follow p s).sharedSize ≤ (follow p s).currentMappedSize p := by
  simp only [follow, Function.update_self]
  exact le_refl _

theorem MappingsKnown.follow (h : MappingsKnown s) (p : Process) : MappingsKnown (follow p s) := by
  intro q
  unfold Requests.follow
  by_cases hq : q = p
  · subst hq
    simp only [Function.update_self]
    exact ⟨trivial, le_refl _⟩
  · simp only [Function.update_of_ne hq]
    exact h q

theorem internalRemapShm_of_le (hle : s.sharedSize ≤ s.currentMappedSize p) :
    internalRemapShm k p s = .ok () s :=
  if_neg (Nat.not_lt.mpr hle)

theorem internalRemapShm_of_lt (hlt : s.sharedSize > s.currentMappedSize p)
    (hk : k.mremap (s.currentMappedSize p) s.sharedSize = .inPlace) :
    internalRemapShm k p s = .ok () (follow p s) := by
  simp only [internalRemapShm, if_pos hlt, hk]
  rfl

theorem KeepsMappings.bind {x : ShmM α} {f : α → ShmM β} (hx : KeepsMappings x)
    (hf : ∀ a, KeepsMappings (f a)) : KeepsMappings (x >>= f) :=
  fun s hs ↦ Spec.bind (hx s hs) fun a s' hs' ↦ hf a s' hs'

theorem KeepsMappings.pure (a : α) : KeepsMappings (Pure.pure a : ShmM α) := fun _ hs ↦ hs

theorem setFDsize_keepsMappings : KeepsMappings (setFDsize k) := by
  intro s hs
  by_cases h : k.ftruncate s.sharedSize = true
  · exact Spec.of_ok (if_pos h) (hs.congr (le_refl _) rfl rfl)
  · exact Spec.of_error (if_neg h) fun _ ↦ hs

theorem remapSharedMemory_keepsMappings (old : ℕ) :
    KeepsMappings (remapSharedMemory k p old) := by
  intro s hs
  simp only [Spec, remapSharedMemory]
  cases k.mremap old s.sharedSize with
  | mapFailed => exact fun _ ↦ hs
  | moved => exact fun he ↦ absurd rfl he
  | inPlace => exact hs.follow p

theorem internalRemapShm_keepsMappings : KeepsMappings (internalRemapShm k p) := by
  intro s hs
  by_cases hlt : s.sharedSize > s.currentMappedSize p
  · simp only [Spec, internalRemapShm, hlt, ↓reduceIte]
    cases k.mremap (s.currentMappedSize p) s.sharedSize with
    | mapFailed => exact fun _ ↦ hs
    | moved => exact fun he ↦ absurd trivial he
    | inPlace => exact hs.follow p
  · exact Spec.of_ok (internalRemapShm_of_le (Nat.not_lt.mp hlt)) hs

theorem enlarge_keepsMappings (pages : ℕ) : KeepsMappings (enlarge k p pages) := by
  intro s hs
  unfold enlarge resizeSharedMemory
  refine Spec.get_bind (Spec.ite (fun hlt ↦ ?_) fun _ ↦ hs)
  refine Spec.get_bind (Spec.ite (fun _ ↦ hs) fun _ ↦ Spec.set_bind ?_)
  -- the segment grows, so that the mappings stay inside of it
  have hgrown : MappingsKnown { s with sharedSize := dlPagesize * pages } :=
    hs.congr (by simp only; rw [Nat.mul_comm]; exact hlt.le) rfl rfl
  have hrest : KeepsMappings (do
      setFDsize k
      remapSharedMemory k p (s.currentMappedSize p)
      modify fun s ↦ { s with firstUnusedPageIndex := min s.firstUnusedPageIndex pages }) :=
    setFDsize_keepsMappings.bind fun _ ↦ (remapSharedMemory_keepsMappings _).bind fun _ s hs ↦ hs
  exact hrest _ hgrown

theorem followResize_keepsMappings : KeepsMappings (followResize k p) := by
  intro s hs
  exact Spec.get_bind (Spec.ite (fun _ ↦ remapSharedMemory_keepsMappings _ s hs) fun _ ↦ hs)

theorem clearReused_keepsMappings (pos count : ℕ) : KeepsMappings (clearReused pos count) := by
  intro s hs
  by_cases h : pos < s.firstUnusedPageIndex
  · exact Spec.of_ok (if_pos h) (hs.congr (le_refl _) rfl rfl)
  · exact Spec.of_ok (if_neg h) hs

theorem searchPages_keepsMappings (count : ℕ) : KeepsMappings (searchPages count) := by
  intro s hs
  simp only [Spec, searchPages]
  cases findContinousFreePages s.pagesUsed s.bitsetSize count with
  | none => exact fun _ ↦ hs
  | some pos => exact hs

theorem requestInternal_keepsMappings (count : ℕ) :
    KeepsMappings (requestContinousFreePagesInternal k p count) :=
  (searchPages_keepsMappings count).bind fun _ ↦ (enlarge_keepsMappings _).bind fun _ ↦
    followResize_keepsMappings.bind fun _ ↦ (clearReused_keepsMappings _ _).bind fun _ _ hs ↦ hs

theorem KeepsMappings.withLock {x : ShmM α} (hx : KeepsMappings x) :
    KeepsMappings (withLock x) := by
  intro s hs
  have hlocked : MappingsKnown { s with mtx := s.mtx - 1 } := hs
  refine (withLock_spec (hx _ hlocked)).mono ?_ ?_
  · rintro a s' ⟨-, s₁, n, hs₁, rfl⟩
    exact hs₁
  · rintro e s' (⟨-, rfl⟩ | ⟨-, s₁, n, hs₁, rfl⟩) he
    · exact hs
    · exact hs₁ he

theorem call_keepsMappings (a : Action) : KeepsMappings (call a) := by
  cases a with
  | request p k count preferredPos =>
    refine KeepsMappings.bind ?_ fun _ ↦ KeepsMappings.pure ()
    cases preferredPos with
    | none =>
      exact (internalRemapShm_keepsMappings.bind fun _ ↦
        requestInternal_keepsMappings count).withLock
    | some preferredPos => exact (requestInternal_keepsMappings count).withLock
  | free pos count =>
    have hfree : KeepsMappings (modify fun s ↦
        { s with pagesUsed := s.pagesUsed.setRange pos false count } : ShmM PUnit) :=
      fun s hs ↦ hs
    exact hfree.withLock
  | remap p k => exact internalRemapShm_keepsMappings

/-- **One call** keeps what the processes know about their mappings. -/
theorem MappingsKnown.step {a : Action} (h : MappingsKnown s) (hok : Orderly s a)
    (hstep : Step s a s') : MappingsKnown s' := by
  cases hstep with
  | returns hcall => exact (call_keepsMappings a s h).ok hcall
  | fails hcall => exact (call_keepsMappings a s h).error hcall (hok _ _ hcall)

end KeepsMappings

/-! ## Where a request fails -/

section Failing

variable {k : Kernel} {p q : Process} {s s' : SharedMemoryInformation} {count : ℕ}

/-- When the process has followed the segment, only enlarging it can fail, and then
`shared_size` has grown. -/
theorem enlarge_fails (pages : ℕ) (hs : s.sharedSize ≤ s.currentMappedSize p) :
    Spec (enlarge k p pages) s (fun _ s' ↦ s'.sharedSize ≤ s'.currentMappedSize p)
      fun _ s' ↦ s.sharedSize < s'.sharedSize := by
  unfold enlarge resizeSharedMemory
  refine Spec.get_bind (Spec.ite (fun hlt ↦ ?_) fun _ ↦ hs)
  rw [Nat.mul_comm] at hlt
  refine Spec.get_bind (Spec.ite (fun _ ↦ hs) fun _ ↦ Spec.set_bind ?_)
  refine Spec.bind (P := fun _ s' ↦ s'.sharedSize = dlPagesize * pages) ?_ fun _ s₁ hs₁ ↦ ?_
  · by_cases h : k.ftruncate (dlPagesize * pages) = true
    · exact Spec.of_ok (if_pos h) rfl
    · exact Spec.of_error (if_neg h) hlt
  · refine Spec.bind
      (P := fun _ s' ↦ s'.sharedSize ≤ s'.currentMappedSize p) ?_ fun _ s₂ hs₂ ↦ hs₂
    simp only [Spec, remapSharedMemory]
    cases k.mremap (s.currentMappedSize p) s₁.sharedSize with
    | mapFailed =>
      rw [← hs₁] at hlt
      exact hlt
    | moved =>
      rw [← hs₁] at hlt
      exact hlt
    | inPlace =>
      simp only [Function.update_self]
      exact le_refl _

theorem requestInternal_fails (hs : s.sharedSize ≤ s.currentMappedSize p) :
    Spec (requestContinousFreePagesInternal k p count) s (fun _ _ ↦ True) fun e s' ↦
      findContinousFreePages s.pagesUsed s.bitsetSize count = none ∧ e = tooMuchMemory ∧ s' = s ∨
        findContinousFreePages s.pagesUsed s.bitsetSize count ≠ none ∧
          s.sharedSize < s'.sharedSize := by
  unfold requestContinousFreePagesInternal
  cases hfind : findContinousFreePages s.pagesUsed s.bitsetSize count with
  | none =>
    refine Spec.bind (P := fun _ _ ↦ False) ?_ fun _ _ h ↦ h.elim
    exact Spec.of_error (by simp only [searchPages, hfind]; rfl) (Or.inl ⟨rfl, rfl, rfl⟩)
  | some pos =>
    have hsearch : searchPages count s = .ok pos s := by
      simp only [searchPages, hfind]
    refine Spec.bind (P := fun _ s' ↦ s' = s) (Spec.of_ok hsearch rfl) ?_
    rintro pos s₁ rfl
    refine Spec.bind ((enlarge_fails (pos + count) hs).mono (fun _ _ h ↦ h)
      fun _ _ h ↦ Or.inr ⟨Option.some_ne_none _, h⟩) ?_
    intro _ s₂ hs₂
    -- the mapping is large enough by now
    have hfollow : followResize k p s₂ = .ok () s₂ := by
      change (if s₂.sharedSize > s₂.currentMappedSize p then _ else _ : ShmM Unit) s₂ = _
      rw [if_neg (Nat.not_lt.mpr hs₂)]
      rfl
    refine Spec.bind (P := fun _ _ ↦ True) (Spec.of_ok hfollow trivial) fun _ s₃ _ ↦ ?_
    refine Spec.bind (P := fun _ _ ↦ True) ?_ fun _ _ _ ↦ trivial
    by_cases h : pos < s₃.firstUnusedPageIndex
    · exact Spec.of_ok (if_pos h) trivial
    · exact Spec.of_ok (if_neg h) trivial

variable (p count) in
/-- The two ways in which a request raises an exception: it has found no pages, and at most the
process has followed the segment, or the segment has grown. -/
def Raised (s s' : SharedMemoryInformation) : Prop :=
  findContinousFreePages s.pagesUsed s.bitsetSize count = none ∧
      (s.sharedSize ≤ s.currentMappedSize p ∧ s' = s ∨
        s.sharedSize > s.currentMappedSize p ∧ s' = follow p s) ∨
    findContinousFreePages s.pagesUsed s.bitsetSize count ≠ none ∧ s.sharedSize < s'.sharedSize

theorem withLock_raises {α : Type} {x : ShmM α} {what : String}
    (h : withLock x s = .error (.runtimeError what) s') :
    s.mtx ≠ 0 ∧ ∃ s₁, x { s with mtx := s.mtx - 1 } = .error (.runtimeError what) s₁ ∧
      s' = { s₁ with mtx := s₁.mtx + 1 } := by
  unfold withLock at h
  by_cases hm : s.mtx = 0
  · rw [if_pos hm] at h
    cases h
  · rw [if_neg hm] at h
    refine ⟨hm, ?_⟩
    cases hx : x { s with mtx := s.mtx - 1 } with
    | ok a s₁ =>
      rw [hx] at h
      cases h
    | error e s₁ =>
      rw [hx] at h
      cases e with
      | runtimeError what' =>
        cases h
        exact ⟨s₁, rfl, rfl⟩
      | exit status => cases h
      | blocked => cases h

theorem withLock_of_error {α : Type} {x : ShmM α} {what : String} (s' : SharedMemoryInformation)
    (hm : s.mtx ≠ 0) (h : x { s with mtx := s.mtx - 1 } =
      .error (.runtimeError what) { s' with mtx := s.mtx - 1 }) :
    withLock x s = .error (.runtimeError what) { s' with mtx := s.mtx } := by
  have hmtx : s.mtx - 1 + 1 = s.mtx := Nat.sub_add_cancel (Nat.one_le_iff_ne_zero.mpr hm)
  unfold withLock
  rw [if_neg hm, h]
  simp only [hmtx]

theorem body_raises :
    Spec (do internalRemapShm k p; requestContinousFreePagesInternal k p count) s
      (fun _ _ ↦ True) fun e s' ↦ ∀ what, e = .runtimeError what → Raised p count s s' := by
  by_cases hlt : s.sharedSize > s.currentMappedSize p
  · refine Spec.bind (P := fun _ s₁ ↦ s₁ = follow p s) ?_ ?_
    · simp only [Spec, internalRemapShm, hlt, ↓reduceIte]
      cases k.mremap (s.currentMappedSize p) s.sharedSize with
      | mapFailed =>
        intro what h
        cases h
      | moved =>
        intro what h
        cases h
      | inPlace => rfl
    · rintro - s₁ rfl
      refine (requestInternal_fails (sharedSize_follow_le p s)).mono (fun _ _ h ↦ h) ?_
      rintro e s' (⟨hfind, -, rfl⟩ | ⟨hfind, hgrown⟩) what -
      · exact Or.inl ⟨hfind, Or.inr ⟨hlt, rfl⟩⟩
      · exact Or.inr ⟨hfind, hgrown⟩
  · have hle := Nat.not_lt.mp hlt
    refine Spec.bind (P := fun _ s₁ ↦ s₁ = s) (Spec.of_ok (internalRemapShm_of_le hle) rfl) ?_
    rintro - s₁ rfl
    refine (requestInternal_fails hle).mono (fun _ _ h ↦ h) ?_
    rintro e s' (⟨hfind, -, rfl⟩ | ⟨hfind, hgrown⟩) what -
    · exact Or.inl ⟨hfind, Or.inl ⟨hle, rfl⟩⟩
    · exact Or.inr ⟨hfind, hgrown⟩

/-- **Where a request fails.** -/
theorem request_raises {what : String}
    (hfail : requestContinousFreePages k p count s = .error (.runtimeError what) s') :
    Raised p count s s' ∧ s.mtx ≠ 0 := by
  obtain ⟨hm, s₁, hbody, rfl⟩ := withLock_raises hfail
  have hmtx : s.mtx - 1 + 1 = s.mtx := Nat.sub_add_cancel (Nat.one_le_iff_ne_zero.mpr hm)
  refine ⟨?_, hm⟩
  rcases body_raises.error hbody what rfl with ⟨hfind, ⟨hle, rfl⟩ | ⟨hlt, rfl⟩⟩ | ⟨hfind, hgrown⟩
  · refine Or.inl ⟨hfind, Or.inl ⟨hle, ?_⟩⟩
    simp only [hmtx]
  · refine Or.inl ⟨hfind, Or.inr ⟨hlt, ?_⟩⟩
    simp only [follow, hmtx]
  · exact Or.inr ⟨hfind, hgrown⟩

/-! ## Later requests -/

/-- Other sizes for the mapping of the process `p`. -/
def setMapped (p : Process) (mapping current : ℕ) (s : SharedMemoryInformation) :
    SharedMemoryInformation :=
  { s with
    mapping := Function.update s.mapping p mapping
    currentMappedSize := Function.update s.currentMappedSize p current }

variable {mapping current : ℕ}

theorem currentMappedSize_setMapped (hq : q ≠ p) :
    (setMapped p mapping current s).currentMappedSize q = s.currentMappedSize q :=
  Function.update_of_ne hq _ _

theorem remapSharedMemory_ignores (hq : q ≠ p) (old : ℕ) :
    Ignores (setMapped p mapping current) (remapSharedMemory k q old) := by
  intro s
  simp only [remapSharedMemory, setMapped]
  cases k.mremap old s.sharedSize with
  | mapFailed => rfl
  | moved => simp only [mapState, setMapped, Function.update_comm hq]
  | inPlace => simp only [mapState, setMapped, Function.update_comm hq]

theorem internalRemapShm_ignores (hq : q ≠ p) :
    Ignores (setMapped p mapping current) (internalRemapShm k q) := by
  intro s
  simp only [internalRemapShm, setMapped, Function.update_of_ne hq]
  rw [apply_ite (mapState _)]
  refine if_congr Iff.rfl ?_ rfl
  cases k.mremap (s.currentMappedSize q) s.sharedSize with
  | mapFailed => rfl
  | moved => simp only [mapState, setMapped, Function.update_comm hq]
  | inPlace => simp only [mapState, setMapped, Function.update_comm hq]

theorem setFDsize_ignores : Ignores (setMapped p mapping current) (setFDsize k) := by
  intro s
  unfold setFDsize
  rw [apply_ite (mapState (setMapped p mapping current))]
  rfl

theorem resizeSharedMemory_ignores (hq : q ≠ p) (pages : ℕ) :
    Ignores (setMapped p mapping current) (resizeSharedMemory k q pages) := by
  refine Ignores.get_bind fun s ↦ ?_
  rw [currentMappedSize_setMapped hq]
  by_cases h : pages * dlPagesize = s.sharedSize
  · have h' : pages * dlPagesize = (setMapped p mapping current s).sharedSize := h
    rw [if_pos h, if_pos h']
    rfl
  · have h' : pages * dlPagesize ≠ (setMapped p mapping current s).sharedSize := h
    rw [if_neg h, if_neg h']
    have hrest : Ignores (setMapped p mapping current) (do
        setFDsize k
        remapSharedMemory k q (s.currentMappedSize q)
        modify fun s ↦ { s with firstUnusedPageIndex := min s.firstUnusedPageIndex pages }) :=
      setFDsize_ignores.bind fun _ ↦ (remapSharedMemory_ignores hq _).bind fun _ _ ↦ rfl
    exact hrest { s with sharedSize := dlPagesize * pages }

theorem enlarge_ignores (hq : q ≠ p) (pages : ℕ) :
    Ignores (setMapped p mapping current) (enlarge k q pages) :=
  Ignores.get_bind fun s ↦
    ((resizeSharedMemory_ignores hq pages).ite (Ignores.pure ())) s

theorem followResize_ignores (hq : q ≠ p) :
    Ignores (setMapped p mapping current) (followResize k q) := by
  refine Ignores.get_bind fun s ↦ ?_
  rw [currentMappedSize_setMapped hq]
  exact ((remapSharedMemory_ignores hq _).ite (Ignores.pure ())) s

theorem clearReused_ignores (pos : ℕ) :
    Ignores (setMapped p mapping current) (clearReused pos count) := by
  intro s
  unfold clearReused
  rw [apply_ite (mapState (setMapped p mapping current))]
  rfl

theorem searchPages_ignores : Ignores (setMapped p mapping current) (searchPages count) := by
  intro s
  simp only [searchPages, setMapped]
  cases findContinousFreePages s.pagesUsed s.bitsetSize count with
  | none => rfl
  | some pos => rfl

theorem withLock_ignores {α : Type} {x : ShmM α} (hx : Ignores (setMapped p mapping current) x) :
    Ignores (setMapped p mapping current) (withLock x) := by
  intro s
  have hx := hx { s with mtx := s.mtx - 1 }
  unfold withLock
  rw [apply_ite (mapState (setMapped p mapping current))]
  refine if_congr Iff.rfl rfl ?_
  simp only [setMapped] at hx ⊢
  rw [hx]
  cases x { s with mtx := s.mtx - 1 } with
  | ok a s₁ => rfl
  | error e s₁ =>
    cases e with
    | runtimeError what => rfl
    | exit status => rfl
    | blocked => rfl

/-- **A request does not depend on the mapping of the other process.** -/
theorem request_ignores (hq : q ≠ p) :
    Ignores (setMapped p mapping current) (requestContinousFreePages k q count) :=
  withLock_ignores ((internalRemapShm_ignores hq).bind fun _ ↦ searchPages_ignores.bind fun pos ↦
    (enlarge_ignores hq _).bind fun _ ↦ (followResize_ignores hq).bind fun _ ↦
      (clearReused_ignores pos).bind fun _ ↦ Ignores.bind (fun _ ↦ rfl) fun _ ↦ Ignores.pure pos)

/-- A request of the process itself follows the segment first, so it makes no difference if that
has been done already. -/
theorem request_follow (hm : s.mtx ≠ 0) (hlt : s.sharedSize > s.currentMappedSize p)
    (hk : k.mremap (s.currentMappedSize p) s.sharedSize = .inPlace) :
    requestContinousFreePages k p count (follow p s) = requestContinousFreePages k p count s := by
  have hfollow : internalRemapShm k p { s with mtx := s.mtx - 1 } =
      .ok () (follow p { s with mtx := s.mtx - 1 }) := internalRemapShm_of_lt hlt hk
  have hagain : internalRemapShm k p (follow p { s with mtx := s.mtx - 1 }) =
      .ok () (follow p { s with mtx := s.mtx - 1 }) :=
    internalRemapShm_of_le (sharedSize_follow_le p _)
  have hbody : (do internalRemapShm k p; requestContinousFreePagesInternal k p count)
      (follow p { s with mtx := s.mtx - 1 }) =
      (do internalRemapShm k p; requestContinousFreePagesInternal k p count)
        { s with mtx := s.mtx - 1 } := by
    simp only [Bind.bind, EStateM.bind, hfollow, hagain]
  have hm' : (follow p s).mtx ≠ 0 := hm
  unfold requestContinousFreePages withLock
  rw [if_neg hm, if_neg hm', ← hbody]
  rfl

/-! ## What a failed request leaves behind -/

/-- The request of the process `p` that led from `s` to `s'` has changed nothing: neither the
bits, the size nor the high-water mark; the process knows its mapping; the mutex is as before;
and later requests behave as if it had not happened.  A kernel that has let `p` follow the
segment once lets it do so again. -/
structure Untouched (p : Process) (s s' : SharedMemoryInformation) : Prop where
  pagesUsed : s'.pagesUsed = s.pagesUsed
  sharedSize : s'.sharedSize = s.sharedSize
  firstUnusedPageIndex : s'.firstUnusedPageIndex = s.firstUnusedPageIndex
  mapped : s'.currentMappedSize p = s'.mapping p ∧ s'.currentMappedSize p ≤ s'.sharedSize
  mtx : s'.mtx = s.mtx ∧ s'.mtx ≠ 0
  /-- The requests of `p` itself. -/
  own : ∀ k count, (s.sharedSize > s.currentMappedSize p →
      k.mremap (s.currentMappedSize p) s.sharedSize = .inPlace) →
    requestContinousFreePages k p count s' = requestContinousFreePages k p count s
  /-- The requests of the other process: only the sizes of the mapping of `p` may differ. -/
  other : ∀ q, q ≠ p → ∀ k count, ∃ mapping current,
    requestContinousFreePages k q count s' =
      mapState (setMapped p mapping current) (requestContinousFreePages k q count s)

theorem Untouched.refl (hs : MappingsKnown s) (hm : s.mtx ≠ 0) : Untouched p s s where
  pagesUsed := rfl
  sharedSize := rfl
  firstUnusedPageIndex := rfl
  mapped := ⟨(hs p).1, (hs p).1.le.trans (hs p).2⟩
  mtx := ⟨rfl, hm⟩
  own := fun _ _ _ ↦ rfl
  other := by
    intro q hq k count
    have hself : setMapped p (s.mapping p) (s.currentMappedSize p) s = s := by
      simp only [setMapped, Function.update_eq_self]
    refine ⟨s.mapping p, s.currentMappedSize p, ?_⟩
    rw [← request_ignores hq, hself]

theorem Untouched.follow (hs : MappingsKnown s) (hm : s.mtx ≠ 0)
    (hlt : s.sharedSize > s.currentMappedSize p) : Untouched p s (follow p s) where
  pagesUsed := rfl
  sharedSize := rfl
  firstUnusedPageIndex := rfl
  mapped := ⟨(hs.follow p p).1, (hs.follow p p).1.le.trans (hs.follow p p).2⟩
  mtx := ⟨rfl, hm⟩
  own := fun _ _ hk ↦ request_follow hm hlt (hk hlt)
  other := fun _ hq _ _ ↦ ⟨s.sharedSize, s.sharedSize, request_ignores hq s⟩

theorem Raised.untouched_iff (h : Raised p count s s') (hs : MappingsKnown s) (hm : s.mtx ≠ 0) :
    Untouched p s s' ↔ findContinousFreePages s.pagesUsed s.bitsetSize count = none := by
  constructor
  · intro hsame
    rcases h with ⟨hfind, -⟩ | ⟨-, hgrown⟩
    · exact hfind
    · exact absurd hsame.sharedSize hgrown.ne'
  · intro hfind
    rcases h with ⟨-, ⟨-, rfl⟩ | ⟨hlt, rfl⟩⟩ | ⟨hfound, -⟩
    · exact Untouched.refl hs hm
    · exact Untouched.follow hs hm hlt
    · exact absurd hfind hfound

end Failing

theorem mappingsKnown_sharedMemoryInit (sizeofInfo : ℕ) :
    MappingsKnown (sharedMemoryInit sizeofInfo) :=
  fun _ ↦ ⟨rfl, le_refl _⟩

/-! ## A file that cannot grow -/

/-- A kernel that does not enlarge the file. -/
def fullDisk : Kernel := ⟨fun _ ↦ false, fun _ _ ↦ .inPlace⟩

theorem request_fullDisk {p : Process} {s : SharedMemoryInformation} {count pos : ℕ}
    (hm : s.mtx ≠ 0) (hmapped : s.sharedSize ≤ s.currentMappedSize p)
    (hfind : findContinousFreePages s.pagesUsed s.bitsetSize count = some pos)
    (hlt : s.sharedSize < (pos + count) * dlPagesize) :
    requestContinousFreePages fullDisk p count s =
      .error (.runtimeError "ftruncate failed")
        { s with sharedSize := dlPagesize * (pos + count) } := by
  have hremap : internalRemapShm fullDisk p { s with mtx := s.mtx - 1 } =
      .ok () { s with mtx := s.mtx - 1 } := internalRemapShm_of_le hmapped
  have hsearch : searchPages count { s with mtx := s.mtx - 1 } =
      .ok pos { s with mtx := s.mtx - 1 } := by
    simp only [searchPages, hfind]
  have henlarge : enlarge fullDisk p (pos + count) { s with mtx := s.mtx - 1 } =
      .error (.runtimeError "ftruncate failed")
        { s with sharedSize := dlPagesize * (pos + count), mtx := s.mtx - 1 } := by
    change (if s.sharedSize < (pos + count) * dlPagesize then
      resizeSharedMemory fullDisk p (pos + count) else pure () : ShmM Unit) _ = _
    rw [if_pos hlt]
    change (if (pos + count) * dlPagesize = s.sharedSize then pure () else _ : ShmM Unit) _ = _
    rw [if_neg hlt.ne']
    rfl
  refine withLock_of_error { s with sharedSize := dlPagesize * (pos + count) } hm ?_
  simp only [requestContinousFreePagesInternal, Bind.bind, EStateM.bind, hremap, hsearch, henlarge]

theorem request_tooMuchMemory {k : Kernel} {p : Process} {s : SharedMemoryInformation}
    {count : ℕ} (hm : s.mtx ≠ 0) (hlt : s.sharedSize > s.currentMappedSize p)
    (hk : k.mremap (s.currentMappedSize p) s.sharedSize = .inPlace)
    (hfind : findContinousFreePages s.pagesUsed s.bitsetSize count = none) :
    requestContinousFreePages k p count s = .error tooMuchMemory (follow p s) := by
  have hremap : internalRemapShm k p { s with mtx := s.mtx - 1 } =
      .ok () (follow p { s with mtx := s.mtx - 1 }) := internalRemapShm_of_lt hlt hk
  have hsearch : searchPages count (follow p { s with mtx := s.mtx - 1 }) =
      .error tooMuchMemory (follow p { s with mtx := s.mtx - 1 }) := by
    simp only [searchPages, follow, hfind]
    rfl
  refine withLock_of_error (follow p s) hm ?_
  simp only [requestContinousFreePagesInternal, Bind.bind, EStateM.bind, hremap, hsearch]
  rfl

theorem sharedSize_sharedMemoryInit (sizeofInfo : ℕ) :
    (sharedMemoryInit sizeofInfo).sharedSize = dlPagesize * initialPages sizeofInfo := rfl

theorem currentMappedSize_sharedMemoryInit (sizeofInfo : ℕ) (p : Process) :
    (sharedMemoryInit sizeofInfo).currentMappedSize p = dlPagesize * initialPages sizeofInfo := rfl

theorem find_sharedMemoryInit :
    findContinousFreePages (sharedMemoryInit 2500).pagesUsed (sharedMemoryInit 2500).bitsetSize 1 =
      some 514 := by
  obtain ⟨-, -, hfit, -⟩ := exists_step_mmapPage_init
  exact findContinousFreePages_eq_some_iff.mpr ⟨513, hfit, rfl⟩

/-- The state after a request for one page that the disk has no room for. -/
def afterFullDisk : SharedMemoryInformation :=
  { sharedMemoryInit 2500 with sharedSize := dlPagesize * 515 }

theorem request_fullDisk_init :
    requestContinousFreePages fullDisk .main 1 (sharedMemoryInit 2500) =
      .error (.runtimeError "ftruncate failed") afterFullDisk := by
  refine request_fullDisk (by decide) (le_refl _) find_sharedMemoryInit ?_
  rw [sharedSize_sharedMemoryInit, initialPages_2500]
  decide

theorem find_afterFullDisk :
    findContinousFreePages afterFullDisk.pagesUsed afterFullDisk.bitsetSize 16777217 = none := by
  refine findContinousFreePages_eq_none_iff.mpr fun start hgap ↦ ?_
  have hlimit : 8 * afterFullDisk.bitsetSize = 16777216 := rfl
  have hend := hgap.1
  rw [hlimit] at hend
  omega

/-- **A failed request changes nothing exactly if it has found no pages.**  In every state that
the calls of the two processes reach without the loss of a mapping, a request that raises an
exception leaves no trace if the search has found nothing, and it does leave one if `ftruncate`
or `mremap` has failed. -/
theorem failedRequest_untouched_iff {sizeofInfo : ℕ} {t : List (Action × SharedMemoryInformation)}
    (hrun : IsRun Step (sharedMemoryInit sizeofInfo) t)
    (hok : RunOk Orderly (sharedMemoryInit sizeofInfo) t) {s s' : SharedMemoryInformation}
    (hs : s ∈ runStates (sharedMemoryInit sizeofInfo) t) {k : Kernel} {p : Process} {count : ℕ}
    {what : String}
    (hfail : requestContinousFreePages k p count s = .error (.runtimeError what) s') :
    Untouched p s s' ↔ findContinousFreePages s.pagesUsed s.bitsetSize count = none := by
  have hinv := hrun.invariant (I := MappingsKnown) (fun _ _ _ h hok hstep ↦ h.step hok hstep)
    (mappingsKnown_sharedMemoryInit sizeofInfo) hok
  obtain ⟨hraised, hm⟩ := request_raises hfail
  exact hraised.untouched_iff (hinv s hs) hm

theorem call_request_of_error {k : Kernel} {p : Process} {count : ℕ} {e : Failure}
    {s s' : SharedMemoryInformation} (h : requestContinousFreePages k p count s = .error e s') :
    call (.request p k count none) s = .error e s' := by
  simp only [call, request, Bind.bind, EStateM.bind, h]

/-- A run to which the theorem applies.  The first request fails for want of disk space, and the
second one, for more pages than there are, follows the size that the first one has left. -/
theorem failedRequest_untouched_afterFullDisk :
    ∃ t : List (Action × SharedMemoryInformation), IsRun Step (sharedMemoryInit 2500) t ∧
      RunOk Orderly (sharedMemoryInit 2500) t ∧
      afterFullDisk ∈ runStates (sharedMemoryInit 2500) t ∧
      ∃ s', requestContinousFreePages fullDisk .main 16777217 afterFullDisk =
          .error tooMuchMemory s' ∧ Untouched .main afterFullDisk s' := by
  have hcall : call (.request .main fullDisk 1 none) (sharedMemoryInit 2500) =
      .error (.runtimeError "ftruncate failed") afterFullDisk :=
    call_request_of_error request_fullDisk_init
  have hrun : IsRun Step (sharedMemoryInit 2500)
      [(.request .main fullDisk 1 none, afterFullDisk)] := ⟨.fails hcall, trivial⟩
  have hok : RunOk Orderly (sharedMemoryInit 2500)
      [(.request .main fullDisk 1 none, afterFullDisk)] := by
    refine ⟨fun e s' he ↦ ?_, trivial⟩
    rw [hcall] at he
    cases he
    change "ftruncate failed" ≠ "Remap failed (memory moved)"
    decide
  have hmem : afterFullDisk ∈ runStates (sharedMemoryInit 2500)
      [(Action.request .main fullDisk 1 none, afterFullDisk)] :=
    List.mem_cons_of_mem _ List.mem_cons_self
  have hlt : afterFullDisk.sharedSize > afterFullDisk.currentMappedSize .main := by
    have hmapped := currentMappedSize_sharedMemoryInit 2500 .main
    rw [initialPages_2500] at hmapped
    exact hmapped.trans_lt (by decide)
  have hfail := request_tooMuchMemory (k := fullDisk) (by decide) hlt rfl find_afterFullDisk
  exact ⟨_, hrun, hok, hmem, _, hfail,
    (failedRequest_untouched_iff hrun hok hmem hfail).mpr find_afterFullDisk⟩

/-- The first request fails for want of disk space: `shared_size` keeps the size that the file
does not have. -/
theorem not_untouched_fullDisk :
    ¬ ∀ (k : Kernel) (p : Process) (count : ℕ) (what : String) (s' : SharedMemoryInformation),
      requestContinousFreePages k p count (sharedMemoryInit 2500) =
        .error (.runtimeError what) s' → Untouched p (sharedMemoryInit 2500) s' := by
  intro hall
  have hsame := (hall fullDisk .main 1 _ _ request_fullDisk_init).sharedSize
  rw [sharedSize_sharedMemoryInit, initialPages_2500] at hsame
  revert hsame
  decide

end Cali.Shm.Requests
