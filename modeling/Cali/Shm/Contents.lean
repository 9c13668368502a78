import Cali.Shm.Allocation

/-!
# What the pages contain

A client expects two things of the bytes behind a run of pages: a fresh run reads as
zero, and a run that is moved keeps its contents.  `first_unused_page_index` is the
manager's argument for the first: above this mark nothing was ever handed out, so
nothing was written, and a run that starts below it is cleared.  For the second,
`shm_mremap` copies as many pages as the old run has.
-/

namespace Cali.Shm

open Cali.Lib

variable {k : Kernel} {p : Process} {s s' s'' : SharedMemoryInformation} {pos count pages : ℕ}

/-- The offset belongs to one of the `count` pages from `pos` on. -/
def InPages (pos count o : ℕ) : Prop := pos ≤ o / dlPagesize ∧ o / dlPagesize < pos + count

theorem inPages_iff {o : ℕ} :
    InPages pos count o ↔
      pos * dlPagesize ≤ o ∧ o < pos * dlPagesize + count * dlPagesize := by
  unfold InPages dlPagesize
  omega

/-! ## What the operations do to the bytes -/

/-- The segment was enlarged, or the attempt failed on the way: bytes change only beyond the end of
the file, where they become zero. -/
structure Grown (k : Kernel) (s s' : SharedMemoryInformation) : Prop where
  bytes : ∀ o, s'.bytes o = s.bytes o ∨ s'.bytes o = 0 ∧ s.fileSize ≤ o
  sharedSize_le : s.sharedSize ≤ s'.sharedSize
  mark : s.firstUnusedPageIndex * dlPagesize ≤ s.sharedSize →
    s'.firstUnusedPageIndex = s.firstUnusedPageIndex
  file : (∀ size, k.ftruncate size = true) → s.fileSize = s.sharedSize →
    s'.fileSize = s'.sharedSize

theorem Grown.refl (s : SharedMemoryInformation) : Grown k s s :=
  ⟨fun _ ↦ Or.inl rfl, le_rfl, fun _ ↦ rfl, fun _ h ↦ h⟩

/-- Bytes, size and mark are the same. -/
structure SameContents (s s' : SharedMemoryInformation) : Prop where
  bytes : s'.bytes = s.bytes
  sharedSize : s'.sharedSize = s.sharedSize
  mark : s'.firstUnusedPageIndex = s.firstUnusedPageIndex
  fileSize : s'.fileSize = s.fileSize

theorem SameContents.refl (s : SharedMemoryInformation) : SameContents s s := ⟨rfl, rfl, rfl, rfl⟩

theorem Grown.trans_same (h : Grown k s s') (h' : SameContents s' s'') : Grown k s s'' where
  bytes o := by
    rw [h'.bytes]
    exact h.bytes o
  sharedSize_le := h.sharedSize_le.trans_eq h'.sharedSize.symm
  mark hmark := h'.mark.trans (h.mark hmark)
  file hk heq := h'.fileSize.trans ((h.file hk heq).trans h'.sharedSize.symm)

theorem SameContents.trans_grown (h : SameContents s s') (h' : Grown k s' s'') :
    Grown k s s'' where
  bytes o := by
    rw [← h.bytes, ← h.fileSize]
    exact h'.bytes o
  sharedSize_le := h.sharedSize.symm.trans_le h'.sharedSize_le
  mark hmark := by
    rw [← h.mark, ← h.sharedSize] at hmark
    exact (h'.mark hmark).trans h.mark
  file hk heq := h'.file hk (h.fileSize.trans (heq.trans h.sharedSize.symm))

theorem remapSharedMemory_contents (old : ℕ) (s : SharedMemoryInformation) :
    Spec (remapSharedMemory k p old) s (fun _ s' ↦ SameContents s s')
      fun _ s' ↦ SameContents s s' := by
  simp only [Spec, remapSharedMemory]
  cases k.mremap old s.sharedSize <;> exact ⟨rfl, rfl, rfl, rfl⟩

theorem internalRemapShm_contents (s : SharedMemoryInformation) :
    Spec (internalRemapShm k p) s (fun _ s' ↦ SameContents s s')
      fun _ s' ↦ SameContents s s' := by
  by_cases hlt : s.sharedSize > s.currentMappedSize p
  · simp only [Spec, internalRemapShm, hlt, ↓reduceIte]
    cases k.mremap (s.currentMappedSize p) s.sharedSize <;> exact ⟨rfl, rfl, rfl, rfl⟩
  · simp only [Spec, internalRemapShm, hlt, ↓reduceIte]
    exact SameContents.refl s

theorem followResize_contents (s : SharedMemoryInformation) :
    Spec (followResize k p) s (fun _ s' ↦ SameContents s s') fun _ s' ↦ SameContents s s' := by
  unfold followResize
  exact Spec.get_bind (Spec.ite (fun _ ↦ remapSharedMemory_contents _ s)
    fun _ ↦ SameContents.refl s)

theorem setFDsize_contents (s : SharedMemoryInformation) :
    Spec (setFDsize k) s
      (fun _ s' ↦ (∀ o, s'.bytes o = s.bytes o ∨ s'.bytes o = 0 ∧ s.fileSize ≤ o) ∧
        s'.sharedSize = s.sharedSize ∧ s'.firstUnusedPageIndex = s.firstUnusedPageIndex ∧
        s'.fileSize = s'.sharedSize)
      fun _ s' ↦ s' = s ∧ k.ftruncate s.sharedSize = false := by
  cases h : k.ftruncate s.sharedSize with
  | true =>
    simp only [Spec, setFDsize, h, ↓reduceIte]
    refine ⟨fun o ↦ ?_, trivial, trivial, trivial⟩
    by_cases ho : s.fileSize ≤ o ∧ o < s.sharedSize
    · exact Or.inr ⟨if_pos ho, ho.1⟩
    · exact Or.inl (if_neg ho)
  | false =>
    simp only [Spec, setFDsize, h, Bool.false_eq_true, ↓reduceIte]
    exact ⟨trivial, trivial⟩

theorem resizeSharedMemory_contents (hlt : s.sharedSize < pages * dlPagesize) :
    Spec (resizeSharedMemory k p pages) s
      (fun _ s' ↦ Grown k s s' ∧ pages * dlPagesize ≤ s'.sharedSize) fun _ s' ↦ Grown k s s' := by
  have hsize : s.sharedSize ≤ dlPagesize * pages := by
    rw [Nat.mul_comm]
    exact hlt.le
  unfold resizeSharedMemory
  refine Spec.get_bind (Spec.ite (fun heq ↦ absurd heq hlt.ne') fun _ ↦ Spec.set_bind ?_)
  refine Spec.bind ((setFDsize_contents _).mono (fun _ _ h ↦ h) ?_) ?_
  · rintro _ s₁ ⟨rfl, hfails⟩
    refine ⟨fun _ ↦ Or.inl rfl, hsize, fun _ ↦ rfl, fun hk _ ↦ ?_⟩
    rw [hk] at hfails
    cases hfails
  · rintro - s₁ ⟨hbytes, hshared, hmark, hfile⟩
    have h₁ : Grown k s s₁ :=
      ⟨hbytes, hsize.trans_eq hshared.symm, fun _ ↦ hmark, fun _ _ ↦ hfile⟩
    refine Spec.bind ((remapSharedMemory_contents _ s₁).mono (fun _ _ h ↦ h)
      fun _ _ h ↦ h₁.trans_same h) ?_
    intro _ s₂ h₂
    have h₂' := h₁.trans_same h₂
    refine ⟨⟨h₂'.bytes, h₂'.sharedSize_le, fun hle ↦ ?_, h₂'.file⟩, ?_⟩
    · -- the mark is inside the old segment, so that the minimum does not lower it
      change min s₂.firstUnusedPageIndex pages = s.firstUnusedPageIndex
      rw [h₂'.mark hle]
      exact Nat.min_eq_left (Nat.le_of_mul_le_mul_right (hle.trans hlt.le) (by decide))
    · change pages * dlPagesize ≤ s₂.sharedSize
      rw [h₂.sharedSize, hshared, Nat.mul_comm]

theorem enlarge_contents (s : SharedMemoryInformation) :
    Spec (enlarge k p pages) s
      (fun _ s' ↦ Grown k s s' ∧ pages * dlPagesize ≤ s'.sharedSize) fun _ s' ↦ Grown k s s' := by
  unfold enlarge
  exact Spec.get_bind (Spec.ite (fun hlt ↦ resizeSharedMemory_contents hlt)
    fun hlt ↦ ⟨Grown.refl s, not_lt.mp hlt⟩)

/-- A request for `count` pages was answered with `pos`. -/
structure Served (k : Kernel) (s : SharedMemoryInformation) (count pos : ℕ)
    (s' : SharedMemoryInformation) : Prop where
  bytes : ∀ o, s'.bytes o = s.bytes o ∨ s'.bytes o = 0 ∧ (s.fileSize ≤ o ∨ InPages pos count o)
  size_le : (pos + count) * dlPagesize ≤ s'.sharedSize
  sharedSize_le : s.sharedSize ≤ s'.sharedSize
  mark : s.firstUnusedPageIndex * dlPagesize ≤ s.sharedSize →
    s'.firstUnusedPageIndex = max s.firstUnusedPageIndex (pos + count)
  cleared : s.firstUnusedPageIndex * dlPagesize ≤ s.sharedSize →
    pos < s.firstUnusedPageIndex → ∀ o, InPages pos count o → s'.bytes o = 0
  file : (∀ size, k.ftruncate size = true) → s.fileSize = s.sharedSize →
    s'.fileSize = s'.sharedSize

/-- The bytes after `clearReused`. -/
def clearedBytes (pos count : ℕ) (s : SharedMemoryInformation) (o : ℕ) : BitVec 8 :=
  if pos < s.firstUnusedPageIndex ∧ pos * dlPagesize ≤ o ∧
    o < pos * dlPagesize + count * dlPagesize then 0 else s.bytes o

theorem clearReused_contents (pos count : ℕ) (s : SharedMemoryInformation) :
    Spec (clearReused pos count) s (fun _ s' ↦ s' = { s with bytes := clearedBytes pos count s })
      fun _ _ ↦ False := by
  unfold clearReused clearedBytes
  by_cases h : pos < s.firstUnusedPageIndex
  · simp only [Spec, h, ↓reduceIte, true_and]
  · simp only [Spec, h, ↓reduceIte, false_and]

theorem searchPages_contents (s : SharedMemoryInformation) :
    Spec (searchPages count) s (fun _ s' ↦ s' = s) fun _ s' ↦ s' = s := by
  unfold Spec searchPages
  cases findContinousFreePages s.pagesUsed s.bitsetSize count <;> rfl

theorem Grown.served (h : Grown k s s') (hsize : (pos + count) * dlPagesize ≤ s'.sharedSize) :
    Spec (do clearReused pos count; blockPages pos count; return pos) s'
      (fun r s'' ↦ r = pos ∧ Served k s count pos s'') fun _ _ ↦ False := by
  refine Spec.bind (clearReused_contents pos count s') ?_
  rintro - s₁ rfl
  refine ⟨rfl, fun o ↦ ?_, hsize, h.sharedSize_le, fun hle ↦ ?_, fun hle hlt o ho ↦ ?_, h.file⟩
  · by_cases hin : pos < s'.firstUnusedPageIndex ∧ pos * dlPagesize ≤ o ∧
        o < pos * dlPagesize + count * dlPagesize
    · exact Or.inr ⟨if_pos hin, Or.inr (inPages_iff.mpr hin.2)⟩
    · rcases h.bytes o with heq | ⟨hzero, hfile⟩
      · exact Or.inl ((if_neg hin).trans heq)
      · exact Or.inr ⟨(if_neg hin).trans hzero, Or.inl hfile⟩
  · exact congrArg (max · (pos + count)) (h.mark hle)
  · exact if_pos ⟨(h.mark hle).symm ▸ hlt, inPages_iff.mp ho⟩

theorem requestInternal_contents (s : SharedMemoryInformation) (count : ℕ) :
    Spec (requestContinousFreePagesInternal k p count) s (Served k s count)
      fun _ s' ↦ Grown k s s' := by
  unfold requestContinousFreePagesInternal
  refine Spec.bind ((searchPages_contents s).mono (fun _ _ h ↦ h) ?_) ?_
  · rintro _ _ rfl
    exact Grown.refl _
  · rintro pos s₁ rfl
    refine Spec.bind (enlarge_contents s₁) ?_
    rintro - s₂ ⟨h₂, hsize⟩
    refine Spec.bind ((followResize_contents s₂).mono (fun _ _ h ↦ h)
      fun _ _ h ↦ h₂.trans_same h) ?_
    intro _ s₃ h₃
    refine ((h₂.trans_same h₃).served (hsize.trans_eq h₃.sharedSize.symm)).mono ?_ ?_
    · rintro _ _ ⟨rfl, h⟩
      exact h
    · exact fun _ _ h ↦ h.elim

/-! ### The entry points -/

theorem SameContents.trans_served (h : SameContents s s') (h' : Served k s' count pos s'') :
    Served k s count pos s'' where
  bytes o := by
    rw [← h.bytes, ← h.fileSize]
    exact h'.bytes o
  size_le := h'.size_le
  sharedSize_le := h.sharedSize.symm.trans_le h'.sharedSize_le
  mark hmark := by
    rw [← h.mark, ← h.sharedSize] at hmark
    exact (h'.mark hmark).trans (by rw [h.mark])
  cleared hmark := by
    rw [← h.mark, ← h.sharedSize] at hmark
    rw [← h.mark]
    exact h'.cleared hmark
  file hk heq := h'.file hk (h.fileSize.trans (heq.trans h.sharedSize.symm))

theorem Served.trans_same (h : Served k s count pos s') (h' : SameContents s' s'') :
    Served k s count pos s'' where
  bytes o := by
    rw [h'.bytes]
    exact h.bytes o
  size_le := h.size_le.trans_eq h'.sharedSize.symm
  sharedSize_le := h.sharedSize_le.trans_eq h'.sharedSize.symm
  mark hmark := h'.mark.trans (h.mark hmark)
  cleared hmark := by
    rw [h'.bytes]
    exact h.cleared hmark
  file hk heq := h'.fileSize.trans ((h.file hk heq).trans h'.sharedSize.symm)

theorem sameContents_mtx (s : SharedMemoryInformation) (n : ℕ) :
    SameContents s { s with mtx := n } := ⟨rfl, rfl, rfl, rfl⟩

theorem withLock_served {x : ShmM ℕ}
    (hx : ∀ s, Spec x s (Served k s count) fun _ s' ↦ Grown k s s') (s : SharedMemoryInformation) :
    Spec (withLock x) s (Served k s count) fun _ s' ↦ Grown k s s' := by
  refine (withLock_spec (hx _)).mono ?_ ?_
  · rintro pos s' ⟨-, s₁, n, h₁, rfl⟩
    exact ((sameContents_mtx s _).trans_served h₁).trans_same (sameContents_mtx s₁ n)
  · rintro e s' (⟨-, rfl⟩ | ⟨-, s₁, n, h₁, rfl⟩)
    · exact Grown.refl _
    · exact ((sameContents_mtx s _).trans_grown h₁).trans_same (sameContents_mtx s₁ n)

theorem requestForMove_contents (count preferredPos : ℕ) (s : SharedMemoryInformation) :
    Spec (requestContinousFreePagesForMove k p count preferredPos) s (Served k s count)
      fun _ s' ↦ Grown k s s' :=
  withLock_served (fun s ↦ requestInternal_contents s count) s

theorem shmMmap_contents {length : BitVec 64} {fd offset : ℤ} (hfd : fd < 0) (hoffset : offset ≤ 0)
    (s : SharedMemoryInformation) :
    Spec (shmMmap k p 0 length fd offset) s
      (fun r s' ↦ ∃ pos, r = .address (pageIndexToAddress pos) ∧
        Served k s (pageCount length) pos s')
      fun _ s' ↦ Grown k s s' := by
  have hbody : ∀ s, Spec (do
      internalRemapShm k p
      requestContinousFreePagesInternal k p (pageCount length)) s (Served k s (pageCount length))
      fun _ s' ↦ Grown k s s' := by
    intro s
    refine Spec.bind ((internalRemapShm_contents s).mono (fun _ _ h ↦ h)
      fun _ _ h ↦ (Grown.refl s).trans_same h) fun _ s₁ h₁ ↦ ?_
    exact (requestInternal_contents s₁ _).mono (fun _ _ h ↦ h₁.trans_served h)
      fun _ _ h ↦ h₁.trans_grown h
  unfold shmMmap
  rw [if_neg (by omega)]
  exact Spec.bind (withLock_served hbody s) fun pos s' h ↦ ⟨pos, rfl, h⟩

theorem freePages_contents (pos count : ℕ) (s : SharedMemoryInformation) :
    Spec (freePages pos count) s (fun _ s' ↦ SameContents s s') fun _ s' ↦ SameContents s s' := by
  refine (freePages_spec s pos count).mono ?_ ?_
  · rintro - _ rfl
    exact ⟨rfl, rfl, rfl, rfl⟩
  · rintro - _ ⟨-, rfl⟩
    exact SameContents.refl _

/-! ## Fresh mappings -/

/-- What the clients do: they call the manager, or they write a byte. -/
inductive ClientEvent where
  | call (e : Event)
  | write (offset : ℕ) (value : BitVec 8)

/-- One call of `shm_mmap` or `shm_munmap` after which the live runs lie inside the
bitset, or a write to a page of a live run. -/
inductive ClientStep : World → ClientEvent → World → Prop
  | call {w w' : World} {e : Event} (h : Step w e w')
      (hmove : ∀ r newSize, e.call ≠ .mremap r newSize)
      (hlimit : ∀ r ∈ w'.live, r.start + r.count ≤ 8 * w'.shm.bitsetSize) :
      ClientStep w (.call e) w'
  | write {w : World} {r : PageRun} {o : ℕ} {value : BitVec 8} (hr : r ∈ w.live)
      (ho : r.Covers (o / dlPagesize)) :
      ClientStep w (.write o value)
        ⟨{ w.shm with bytes := Function.update w.shm.bytes o value }, w.live⟩

/-- Nothing above the mark was ever written: the live runs are below it, and the bytes
above it are zero. -/
structure Fresh (w : World) : Prop where
  zero : ∀ o, w.shm.firstUnusedPageIndex * dlPagesize ≤ o → w.shm.bytes o = 0
  mark_le : w.shm.firstUnusedPageIndex * dlPagesize ≤ w.shm.sharedSize
  live_le : ∀ r ∈ w.live, r.start + r.count ≤ w.shm.firstUnusedPageIndex

variable {w w' : World}

theorem Fresh.grown (h : Fresh w) (hg : Grown k w.shm s') : Fresh ⟨s', w.live⟩ where
  zero o ho := by
    rw [hg.mark h.mark_le] at ho
    rcases hg.bytes o with heq | ⟨hzero, -⟩
    · exact heq.trans (h.zero o ho)
    · exact hzero
  mark_le := by
    rw [hg.mark h.mark_le]
    exact h.mark_le.trans hg.sharedSize_le
  live_le r hr := by
    rw [hg.mark h.mark_le]
    exact h.live_le r hr

/-- The pages of a run that is handed out are zero: a run that starts below the mark was
cleared, and above the mark there is nothing to clear. -/
theorem Fresh.served_zero (h : Fresh w) (hs : Served k w.shm count pos s') {o : ℕ}
    (ho : InPages pos count o) : s'.bytes o = 0 := by
  rcases Nat.lt_or_ge pos w.shm.firstUnusedPageIndex with hlt | hge
  · exact hs.cleared h.mark_le hlt o ho
  · have habove : w.shm.firstUnusedPageIndex * dlPagesize ≤ o :=
      (Nat.mul_le_mul_right _ hge).trans (inPages_iff.mp ho).1
    rcases hs.bytes o with heq | ⟨hzero, -⟩
    · exact heq.trans (h.zero o habove)
    · exact hzero

theorem Fresh.served (h : Fresh w) (hs : Served k w.shm count pos s') {r : PageRun}
    (hstart : r.start = pos) (hcount : r.count = count) : Fresh ⟨s', r :: w.live⟩ := by
  have hmark := hs.mark h.mark_le
  refine ⟨fun o ho ↦ ?_, ?_, fun r' hr' ↦ ?_⟩
  · rw [hmark] at ho
    have habove : w.shm.firstUnusedPageIndex * dlPagesize ≤ o :=
      (Nat.mul_le_mul_right _ (le_max_left _ _)).trans ho
    rcases hs.bytes o with heq | ⟨hzero, -⟩
    · exact heq.trans (h.zero o habove)
    · exact hzero
  · rw [hmark]
    rcases max_choice w.shm.firstUnusedPageIndex (pos + count) with heq | heq
    · rw [heq]
      exact h.mark_le.trans hs.sharedSize_le
    · rw [heq]
      exact hs.size_le
  · rw [hmark]
    rcases List.mem_cons.mp hr' with rfl | hr'
    · rw [hstart, hcount]
      exact le_max_right _ _
    · exact (h.live_le r' hr').trans (le_max_left _ _)

theorem Fresh.freed (h : Fresh w) (hs : SameContents w.shm s') {live : List PageRun}
    (hlive : live ⊆ w.live) : Fresh ⟨s', live⟩ where
  zero o ho := by
    rw [hs.mark] at ho
    rw [hs.bytes]
    exact h.zero o ho
  mark_le := by
    rw [hs.mark, hs.sharedSize]
    exact h.mark_le
  live_le r hr := by
    rw [hs.mark]
    exact h.live_le r (hlive hr)

theorem Fresh.write (h : Fresh w) {r : PageRun} (hr : r ∈ w.live) {o : ℕ}
    (ho : r.Covers (o / dlPagesize)) (value : BitVec 8) :
    Fresh ⟨{ w.shm with bytes := Function.update w.shm.bytes o value }, w.live⟩ where
  zero o' ho' := by
    have hbelow : o / dlPagesize < w.shm.firstUnusedPageIndex :=
      Nat.lt_of_lt_of_le ho.2 (h.live_le r hr)
    have hne : o' ≠ o := by
      rintro rfl
      exact absurd ((Nat.div_lt_iff_lt_mul (by decide)).mp hbelow) (not_lt.mpr ho')
    change Function.update w.shm.bytes o value o' = 0
    rw [Function.update_of_ne hne]
    exact h.zero o' ho'
  mark_le := h.mark_le
  live_le := h.live_le

theorem ClientStep.fresh {e : ClientEvent} (h : Fresh w) (hstep : ClientStep w e w') :
    Fresh w' := by
  cases hstep with
  | write hr ho => exact h.write hr ho _
  | call hcall hmove hlimit =>
    cases hcall with
    | mmap hfd hoffset hrun =>
      obtain ⟨pos, ha, hs⟩ := (shmMmap_contents hfd hoffset w.shm).ok hrun
      cases ha
      exact h.served hs (addressToPageIndex_pageIndexToAddress pos) rfl
    | mmapFails hfd hoffset hrun =>
      exact h.grown ((shmMmap_contents hfd hoffset w.shm).error hrun)
    | munmap hr hrun => exact h.freed ((freePages_contents _ _ w.shm).ok hrun) List.erase_subset
    | munmapFails hr hrun =>
      exact h.freed ((freePages_contents _ _ w.shm).error hrun) (List.Subset.refl _)
    | mremap hr hrun => exact absurd rfl (hmove _ _)
    | mremapFails hr hrun => exact absurd rfl (hmove _ _)

theorem fresh_init (sizeofInfo : ℕ) : Fresh ⟨sharedMemoryInit sizeofInfo, []⟩ where
  zero _ _ := rfl
  mark_le := (Nat.mul_comm _ _).le
  live_le _ hr := absurd hr List.not_mem_nil

/-! ## Moves -/

/-- The bytes after `copyBytes`. -/
def copiedBytes (newOffset oldOffset size : ℕ) (bytes : ℕ → BitVec 8) (o : ℕ) : BitVec 8 :=
  if newOffset ≤ o ∧ o < newOffset + size then bytes (oldOffset + (o - newOffset)) else bytes o

theorem copyBytes_contents (newOffset oldOffset size : ℕ) (s : SharedMemoryInformation) :
    Spec (copyBytes newOffset oldOffset size) s
      (fun _ s' ↦ s' = { s with bytes := copiedBytes newOffset oldOffset size s.bytes })
      fun _ _ ↦ False :=
  Spec.of_ok rfl rfl

/-- The state after the new pages of a move, from the page `pos` on, were filled with the `count`
old ones, and these were freed. -/
def moveTo (pos oldAddress count : ℕ) (s : SharedMemoryInformation) : SharedMemoryInformation :=
  { s with
    pagesUsed := s.pagesUsed.setRange (addressToPageIndex oldAddress) false count
    bytes := copiedBytes (pos * dlPagesize) (oldAddress - shmSharedMemoryBase)
      (count * dlPagesize) s.bytes }

/-- A move asks for the new pages, which clears them, and copies the old ones there. -/
theorem shmMremap_contents (s : SharedMemoryInformation) (oldAddress : ℕ)
    (oldSize newSize : BitVec 64) :
    Spec (shmMremap k p oldAddress oldSize newSize) s
      (fun a s' ↦ ∃ pos s₁, Granted s (pageCount newSize) pos s₁ ∧
        Served k s (pageCount newSize) pos s₁ ∧
        (pos = addressToPageIndex oldAddress ∧ a = oldAddress ∧ s' = s₁ ∨
          pos ≠ addressToPageIndex oldAddress ∧ a = pageIndexToAddress pos ∧
            s' = moveTo pos oldAddress (pageCount oldSize) s₁))
      fun _ s' ↦ Grown k s s' := by
  unfold shmMremap
  refine Spec.bind (((requestContinousFreePagesForMove_spec s _ _).and
    (requestForMove_contents _ _ s)).mono (fun _ _ h ↦ h) fun _ _ h ↦ h.2) ?_
  rintro pos s₁ ⟨⟨hg, hm⟩, hs⟩
  refine Spec.ite (fun heq ↦ ?_) fun hne ↦ ?_
  · exact ⟨pos, s₁, hg, hs, Or.inl ⟨heq, rfl, rfl⟩⟩
  · refine Spec.bind ((copyBytes_contents _ _ _ s₁).mono (fun _ _ h ↦ h) fun _ _ h ↦ h.elim) ?_
    rintro - s₂ rfl
    refine Spec.bind (P := fun _ s₃ ↦ s₃ = moveTo pos oldAddress (pageCount oldSize) s₁)
      (Spec.of_ok (freePages_eq_ok _ (by exact hm) _ _) rfl) ?_
    rintro - s₃ rfl
    exact ⟨pos, s₁, hg, hs, Or.inr ⟨hne, rfl, rfl⟩⟩

/-- What the manager knows about the runs that are live: they are exclusive, they start
at pages of the segment, and the file reaches as far as they do. -/
structure AllocatorState (usedPages : ℕ) (w : World) : Prop where
  exclusive : PagesExclusive w.shm.bitsetSize usedPages w
  aligned : ∀ r ∈ w.live, r.address = pageIndexToAddress r.start
  inFile : ∀ r ∈ w.live, ∀ o, r.Covers (o / dlPagesize) → o < w.shm.fileSize

/-- The run `r` was moved to the address `a` and has `newSize` bytes there.  `memcpy` writes to
pages of the segment, and not to those that it reads. -/
structure Moved (w : World) (r : PageRun) (newSize : BitVec 64) (a : ℕ)
    (s' : SharedMemoryInformation) : Prop where
  contents : ∀ i < min r.count (pageCount newSize) * dlPagesize,
    s'.bytes (a - shmSharedMemoryBase + i) = w.shm.bytes (r.address - shmSharedMemoryBase + i)
  reserved : ∀ i < newSize.toNat, addressToPageIndex (a + i) < 8 * s'.bitsetSize ∧
    s'.pagesUsed.Used (addressToPageIndex (a + i))
  freed : ∀ page, r.Covers page → ¬ PageRun.Covers ⟨a, newSize⟩ page → ¬ s'.pagesUsed.Used page
  others : ∀ r' ∈ w.live.erase r, ∀ o, r'.Covers (o / dlPagesize) → s'.bytes o = w.shm.bytes o
  copied : a ≠ r.address → ∀ page, PageRun.Covers ⟨a, r.length⟩ page →
    page < 8 * s'.bitsetSize ∧ ¬ r.Covers page

/-- If there is a fit, rounding `newSize` up to pages does not overflow, and all the pages the
move writes to are free: as many from the answer of the search on as the new and the old run
have. -/
def MoveFits (w : World) (r : PageRun) (newSize : BitVec 64) : Prop :=
  ∀ start, FirstFit w.shm (pageCount newSize) start → newSize.toNat + dlPagesize ≤ 2 ^ 64 ∧
    ∀ page, start + 1 ≤ page → page < start + 1 + max r.count (pageCount newSize) →
      page < 8 * w.shm.bitsetSize ∧ ¬ w.shm.pagesUsed.Used page

/-- The same runs with other contents -/
def World.withBytes (w : World) (bytes : ℕ → BitVec 8) : World := ⟨{ w.shm with bytes }, w.live⟩

/-- Whatever the runs contain and the kernel does, a move that returns has moved the run. -/
def Moves (w : World) (r : PageRun) (newSize : BitVec 64) : Prop :=
  ∀ bytes k p a s', Fresh (w.withBytes bytes) →
    shmMremap k p r.address r.length newSize (w.withBytes bytes).shm = .ok a s' →
      Moved (w.withBytes bytes) r newSize a s'

theorem pageCount_eq {size : BitVec 64} (h : size.toNat + dlPagesize ≤ 2 ^ 64) :
    pageCount size = (size.toNat + 4095) / dlPagesize := by
  have hmask : (-BitVec.ofNat 64 dlPagesize).toNat >>> 12 = 2 ^ 52 - 1 := by decide
  have hsum : (size + BitVec.ofNat 64 dlPagesize - 1).toNat = size.toNat + 4095 := by
    unfold dlPagesize at h ⊢
    bv_omega
  have hlt : (size.toNat + 4095) / 2 ^ 12 < 2 ^ 52 := by
    unfold dlPagesize at h
    omega
  unfold pageCount alignUp alignDown
  rw [BitVec.toNat_and, hsum, show dlPagesize = 2 ^ 12 from rfl, ← Nat.shiftRight_eq_div_pow,
    Nat.shiftRight_and_distrib]
  rw [show (2 : ℕ) ^ 12 = dlPagesize from rfl, hmask, Nat.and_two_pow_sub_one_eq_mod,
    Nat.shiftRight_eq_div_pow, Nat.mod_eq_of_lt hlt]
  rfl

/-- The page of a byte of a run that starts at the page `pos`. -/
theorem addressToPageIndex_add (pos i : ℕ) :
    addressToPageIndex (pageIndexToAddress pos + i) = pos + i / dlPagesize := by
  unfold addressToPageIndex pageIndexToAddress dlPagesize
  omega

theorem pageIndexToAddress_sub (pos : ℕ) :
    pageIndexToAddress pos - shmSharedMemoryBase = pos * dlPagesize :=
  Nat.add_sub_cancel_left _ _

variable {usedPages a : ℕ} {r : PageRun} {newSize : BitVec 64} {s₁ : SharedMemoryInformation}

theorem AllocatorState.used_of_covers (h : AllocatorState usedPages w) (hr : r ∈ w.live) {page : ℕ}
    (hpage : r.Covers page) : w.shm.pagesUsed.Used page :=
  (h.exclusive.used_iff page (h.exclusive.inside r hr page hpage)).mpr (Or.inr ⟨r, hr, hpage⟩)

theorem AllocatorState.not_inPages (h : AllocatorState usedPages w) (hr : r ∈ w.live) {n : ℕ}
    (hfree : ∀ page, pos ≤ page → page < pos + n → ¬ w.shm.pagesUsed.Used page) {o : ℕ}
    (ho : r.Covers (o / dlPagesize)) : ¬ InPages pos n o :=
  fun hin ↦ hfree _ hin.1 hin.2 (h.used_of_covers hr ho)

/-- Serving a request for free pages leaves the contents of the live runs alone. -/
theorem AllocatorState.served_bytes (h : AllocatorState usedPages w)
    (hs : Served k w.shm count pos s') (hr : r ∈ w.live)
    (hfree : ∀ page, pos ≤ page → page < pos + count → ¬ w.shm.pagesUsed.Used page) {o : ℕ}
    (ho : r.Covers (o / dlPagesize)) : s'.bytes o = w.shm.bytes o := by
  rcases hs.bytes o with heq | ⟨-, hfile | hin⟩
  · exact heq
  · exact absurd (h.inFile r hr o ho) (not_lt.mpr hfile)
  · exact absurd hin (h.not_inPages hr hfree ho)

theorem div_of_page (pos i : ℕ) : (pos * dlPagesize + i) / dlPagesize = pos + i / dlPagesize := by
  unfold dlPagesize
  omega

theorem AllocatorState.copied_bytes (h : AllocatorState usedPages w)
    (hs : Served k w.shm count pos s₁) (hr : r ∈ w.live)
    (hfree : ∀ page, pos ≤ page → page < pos + count → ¬ w.shm.pagesUsed.Used page) {i : ℕ}
    (hi : i < r.count * dlPagesize) :
    copiedBytes (pos * dlPagesize) (r.start * dlPagesize) (r.count * dlPagesize) s₁.bytes
        (pos * dlPagesize + i) =
      w.shm.bytes (r.start * dlPagesize + i) := by
  have hcov : r.Covers ((r.start * dlPagesize + i) / dlPagesize) := by
    rw [div_of_page]
    exact ⟨Nat.le_add_right _ _,
      Nat.add_lt_add_left ((Nat.div_lt_iff_lt_mul (by decide)).mpr hi) _⟩
  unfold copiedBytes
  rw [if_pos ⟨Nat.le_add_right _ _, Nat.add_lt_add_left hi _⟩, Nat.add_sub_cancel_left]
  exact h.served_bytes hs hr hfree hcov

theorem copiedBytes_of_not_inPages {oldOffset o : ℕ} {bytes : ℕ → BitVec 8}
    (h : ¬ InPages pos count o) :
    copiedBytes (pos * dlPagesize) oldOffset (count * dlPagesize) bytes o = bytes o :=
  if_neg fun hin ↦ h (inPages_iff.mpr hin)

/-- A granted run is reserved as long as the pages that are freed are others. -/
theorem Granted.used (hg : Granted s count pos s₁) {page : ℕ} (h₁ : pos ≤ page)
    (h₂ : page < pos + count) : s₁.pagesUsed.Used page := by
  rw [hg.pagesUsed, used_setRange]
  exact Or.inl ⟨⟨h₁, h₂⟩, rfl⟩

theorem div_lt_pageCount (h : newSize.toNat + dlPagesize ≤ 2 ^ 64) {i : ℕ}
    (hi : i < newSize.toNat) :
    i / dlPagesize < pageCount newSize := by
  rw [pageCount_eq h]
  unfold dlPagesize
  omega

/-- What a move does, unless the run is answered with its own pages. -/
structure MovedTo (r : PageRun) (pos a : ℕ) (s₁ s' : SharedMemoryInformation) : Prop where
  address : a = pageIndexToAddress pos
  bytes : s'.bytes = copiedBytes (pos * dlPagesize) (r.start * dlPagesize)
    (r.count * dlPagesize) s₁.bytes
  used_iff : ∀ page, s'.pagesUsed.Used page ↔ ¬ r.Covers page ∧ s₁.pagesUsed.Used page
  bitsetSize : s'.bitsetSize = s₁.bitsetSize

theorem movedTo_of_ne (haddress : r.address = pageIndexToAddress r.start)
    (hpos : pos = r.start → r.count = 0)
    (hcase : pos = r.start ∧ a = r.address ∧ s' = s₁ ∨
      pos ≠ r.start ∧ a = pageIndexToAddress pos ∧ s' = moveTo pos r.address r.count s₁) :
    MovedTo r pos a s₁ s' := by
  rcases hcase with ⟨rfl, rfl, rfl⟩ | ⟨-, rfl, rfl⟩
  · have hnone : ∀ page, ¬ r.Covers page := fun page hcov ↦ by
      have := hcov.1
      have := hcov.2
      have := hpos rfl
      omega
    refine ⟨haddress, funext fun o ↦ ?_, fun page ↦ by simp [hnone page], rfl⟩
    rw [hpos rfl, Nat.zero_mul]
    exact (if_neg (by omega)).symm
  · refine ⟨rfl, ?_, fun page ↦ used_free, rfl⟩
    unfold moveTo
    rw [haddress, pageIndexToAddress_sub]

/-! ### Reachable states -/

/-- The file is as large as the manager says, and the live runs are inside. -/
structure Backed (w : World) : Prop where
  file : w.shm.fileSize = w.shm.sharedSize
  inside : ∀ r ∈ w.live, (r.start + r.count) * dlPagesize ≤ w.shm.sharedSize
  aligned : ∀ r ∈ w.live, r.address = pageIndexToAddress r.start

theorem Backed.allocatorState {bitsetSize : ℕ} (h : Backed w) (hw : Wf bitsetSize usedPages w) :
    AllocatorState usedPages w where
  exclusive := by
    rw [hw.bitsetSize_eq]
    exact hw.exclusive
  aligned := h.aligned
  inFile r hr o ho := by
    rw [h.file]
    exact Nat.lt_of_lt_of_le ((Nat.div_lt_iff_lt_mul (by decide)).mp ho.2) (h.inside r hr)

theorem Backed.grown (h : Backed w) (hk : ∀ size, k.ftruncate size = true)
    (hg : Grown k w.shm s') : Backed ⟨s', w.live⟩ :=
  ⟨hg.file hk h.file, fun r hr ↦ (h.inside r hr).trans hg.sharedSize_le, h.aligned⟩

theorem Backed.served (h : Backed w) (hk : ∀ size, k.ftruncate size = true)
    (hs : Served k w.shm (pageCount newSize) pos s') :
    Backed ⟨s', ⟨pageIndexToAddress pos, newSize⟩ :: w.live⟩ := by
  have hstart : PageRun.start ⟨pageIndexToAddress pos, newSize⟩ = pos :=
    addressToPageIndex_pageIndexToAddress pos
  refine ⟨hs.file hk h.file, fun r hr ↦ ?_, fun r hr ↦ ?_⟩
  · rcases List.mem_cons.mp hr with rfl | hr
    · rw [hstart]
      exact hs.size_le
    · exact (h.inside r hr).trans hs.sharedSize_le
  · rcases List.mem_cons.mp hr with rfl | hr
    · rw [hstart]
    · exact h.aligned r hr

theorem Backed.drop (h : Backed w) (hfile : s'.fileSize = w.shm.fileSize)
    (hshared : s'.sharedSize = w.shm.sharedSize) {live : List PageRun} (hlive : live ⊆ w.live) :
    Backed ⟨s', live⟩ where
  file := hfile.trans (h.file.trans hshared.symm)
  inside r hr := (h.inside r (hlive hr)).trans_eq hshared.symm
  aligned r hr := h.aligned r (hlive hr)

theorem Step.backed {e : Event} (hstep : Step w e w')
    (hk : ∀ size, e.kernel.ftruncate size = true) (h : Backed w) : Backed w' := by
  cases hstep with
  | mmap hfd hoffset hrun =>
    obtain ⟨pos, ha, hs⟩ := (shmMmap_contents hfd hoffset w.shm).ok hrun
    cases ha
    exact h.served hk hs
  | mmapFails hfd hoffset hrun =>
    exact h.grown hk ((shmMmap_contents hfd hoffset w.shm).error hrun)
  | munmap hr hrun =>
    have hs := (freePages_contents _ _ w.shm).ok hrun
    exact h.drop hs.fileSize hs.sharedSize List.erase_subset
  | munmapFails hr hrun =>
    have hs := (freePages_contents _ _ w.shm).error hrun
    exact h.drop hs.fileSize hs.sharedSize (List.Subset.refl _)
  | @mremap p k r newSize a shm hr hrun =>
    obtain ⟨pos, s₁, -, hs, hcase⟩ := (shmMremap_contents w.shm _ _ _).ok hrun
    have hnew := h.served hk hs
    have hsub : ∀ run, run :: w.live.erase r ⊆ run :: w.live := fun run ↦
      List.cons_subset_cons run List.erase_subset
    rcases hcase with ⟨hpos, rfl, rfl⟩ | ⟨-, rfl, rfl⟩
    · rw [hpos] at hnew
      rw [h.aligned r hr]
      exact hnew.drop rfl rfl (hsub _)
    · have hfile : (moveTo pos r.address (pageCount r.length) s₁).fileSize = s₁.fileSize := rfl
      exact hnew.drop hfile rfl (hsub _)
  | mremapFails hr hrun => exact h.grown hk ((shmMremap_contents w.shm _ _ _).error hrun)

theorem backed_init (sizeofInfo : ℕ) : Backed ⟨sharedMemoryInit sizeofInfo, []⟩ where
  file := rfl
  inside _ hr := absurd hr List.not_mem_nil
  aligned _ hr := absurd hr List.not_mem_nil

/-- Along every run of calls that meet `CallOk`, during which the file can be enlarged, the
live runs are exclusive and in the file. -/
theorem allocatorState_of_run {sizeofInfo : ℕ} {t : List (Event × World)}
    (hrun : IsRun Step ⟨sharedMemoryInit sizeofInfo, []⟩ t)
    (hok : RunOk (fun w e ↦ CallOk w e ∧ ∀ size, e.kernel.ftruncate size = true)
      ⟨sharedMemoryInit sizeofInfo, []⟩ t) :
    ∀ w ∈ runStates ⟨sharedMemoryInit sizeofInfo, []⟩ t,
      AllocatorState (initialPages sizeofInfo) w := by
  have hinv := hrun.invariant
    (I := fun w ↦ Wf (512 * dlPagesize) (initialPages sizeofInfo) w ∧ Backed w)
    (fun _ _ _ hw hok hstep ↦ ⟨hstep.wf hok.1 hw.1, hstep.backed hok.2 hw.2⟩)
    ⟨wf_init _ _ _, backed_init sizeofInfo⟩ hok
  exact fun w hw ↦ (hinv w hw).2.allocatorState (hinv w hw).1

/-! ### One page

The runs below start with one request for a page, which the search answers with the
page 514: the page 513, which it found, stays free. -/

/-- The run of the first request. -/
def firstRun : PageRun := ⟨pageIndexToAddress 514, 4096⟩

theorem start_firstRun : firstRun.start = 514 := addressToPageIndex_pageIndexToAddress 514

theorem count_firstRun : firstRun.count = 1 := by decide

/-- What is known after the first request. -/
structure OnePage (shm : SharedMemoryInformation) : Prop where
  state : AllocatorState 513 ⟨shm, [firstRun]⟩
  fresh : Fresh ⟨shm, [firstRun]⟩
  used_iff : ∀ page, shm.pagesUsed.Used page ↔ page = 514 ∨ page < 513
  mtx : shm.mtx ≠ 0
  bitsetSize : shm.bitsetSize = 512 * dlPagesize

theorem exists_onePage :
    ∃ shm, ClientStep ⟨sharedMemoryInit 2500, []⟩ (.call mmapPage) ⟨shm, [firstRun]⟩ ∧
      OnePage shm := by
  obtain ⟨shm, hstep, -, hg, hm⟩ := exists_step_mmapPage_init
  have hclient : ClientStep ⟨sharedMemoryInit 2500, []⟩ (.call mmapPage) ⟨shm, [firstRun]⟩ := by
    refine .call hstep (fun _ _ h ↦ by cases h) fun r hr ↦ ?_
    rw [List.mem_singleton.mp hr, start_firstRun, count_firstRun, hg.bitsetSize]
    decide
  have hstate := allocatorState_of_run (t := [(mmapPage, ⟨shm, [firstRun]⟩)]) ⟨hstep, trivial⟩
    ⟨⟨roomy_init, fun _ ↦ rfl⟩, trivial⟩ _ (List.mem_cons_of_mem _ List.mem_cons_self)
  rw [initialPages_2500] at hstate
  refine ⟨shm, hclient, hstate, hclient.fresh (fresh_init 2500), fun page ↦ ?_, hm, hg.bitsetSize⟩
  rw [hg.pagesUsed, used_setRange, sharedMemoryInit_used, initialPages_2500]
  simp only [and_true]
  omega

theorem covers_firstRun : firstRun.Covers (514 * 4096 / dlPagesize) := by
  unfold PageRun.Covers
  rw [start_firstRun, count_firstRun]
  decide

/-- The state after a write to the page. -/
def wrote (shm : SharedMemoryInformation) : SharedMemoryInformation :=
  { shm with bytes := Function.update shm.bytes (514 * 4096) 7 }

theorem clientStep_write (shm : SharedMemoryInformation) :
    ClientStep ⟨shm, [firstRun]⟩ (.write (514 * 4096) 7) ⟨wrote shm, [firstRun]⟩ :=
  .write List.mem_cons_self covers_firstRun

theorem bytes_wrote (shm : SharedMemoryInformation) : (wrote shm).bytes (514 * 4096) = 7 := by
  simp only [wrote, Function.update_self]

theorem OnePage.wrote {shm : SharedMemoryInformation} (h : OnePage shm) : OnePage (wrote shm) where
  state := ⟨h.state.exclusive, h.state.aligned, h.state.inFile⟩
  fresh := (clientStep_write shm).fresh h.fresh
  used_iff := h.used_iff
  mtx := h.mtx
  bitsetSize := h.bitsetSize

/-! ## Fresh mappings read as zero -/

/-- **Fresh mappings read as zero.**  After any sequence of calls and writes, all bytes of
the pages that an anonymous `shm_mmap` returns are zero. -/
theorem bytes_eq_zero_of_mmap {sizeofInfo : ℕ} {t : List (ClientEvent × World)}
    (hrun : IsRun ClientStep ⟨sharedMemoryInit sizeofInfo, []⟩ t) {w : World}
    (hw : w ∈ runStates ⟨sharedMemoryInit sizeofInfo, []⟩ t) {p : Process} {k : Kernel}
    {length : BitVec 64} {fd offset : ℤ} {shm : SharedMemoryInformation} {a : ℕ}
    (hstep : ClientStep w (.call ⟨p, k, .mmap length fd offset⟩) ⟨shm, ⟨a, length⟩ :: w.live⟩)
    {o : ℕ} (ho : PageRun.Covers ⟨a, length⟩ (o / dlPagesize)) : shm.bytes o = 0 := by
  have hfresh := hrun.always (fun _ _ _ h hstep ↦ hstep.fresh h) (fresh_init sizeofInfo) w hw
  generalize hnew : (⟨shm, ⟨a, length⟩ :: w.live⟩ : World) = w' at hstep
  cases hstep with
  | call hcall hmove hlimit =>
    cases hcall with
    | mmap hfd hoffset hmmap =>
      cases hnew
      obtain ⟨pos, ha, hs⟩ := (shmMmap_contents hfd hoffset w.shm).ok hmmap
      cases ha
      refine hfresh.served_zero hs ?_
      unfold PageRun.Covers PageRun.start PageRun.count at ho
      rwa [addressToPageIndex_pageIndexToAddress] at ho
    | mmapFails hfd hoffset hmmap =>
      -- a call that fails adds no run
      have hlen := congrArg (fun w ↦ w.live.length) hnew
      simp at hlen

/-- The page 514 is handed out, written to, given back and handed out again. -/
theorem bytes_eq_zero_reused :
    ∃ t w shm, IsRun ClientStep ⟨sharedMemoryInit 2500, []⟩ t ∧
      w ∈ runStates ⟨sharedMemoryInit 2500, []⟩ t ∧ w.shm.bytes (514 * 4096) = 7 ∧
      ClientStep w (.call mmapPage) ⟨shm, firstRun :: w.live⟩ ∧ shm.bytes (514 * 4096) = 0 := by
  obtain ⟨shm₁, hstep₁, hone⟩ := exists_onePage
  let shm₂ := { wrote shm₁ with pagesUsed := shm₁.pagesUsed.setRange 514 false 1 }
  have hfree : shmMunmap firstRun.address firstRun.length (wrote shm₁) = .ok () shm₂ := by
    have hok := freePages_eq_ok (wrote shm₁) hone.wrote.mtx firstRun.start firstRun.count
    rw [start_firstRun, count_firstRun] at hok
    exact hok
  have hused₂ : ∀ page, shm₂.pagesUsed.Used page ↔ page < 513 := by
    intro page
    change ((shm₁.pagesUsed.setRange 514 false 1).Used page) ↔ _
    rw [used_setRange, hone.used_iff]
    simp only [Bool.false_eq_true, and_false, false_or]
    omega
  obtain ⟨shm₃, hstep₃, -, hg₃, -⟩ := exists_step_mmapPage (w := ⟨shm₂, []⟩) hone.mtx
    (by change 513 < 8 * shm₁.bitsetSize; rw [hone.bitsetSize]; decide)
    (by rw [hused₂]; decide) fun page h ↦ (hused₂ page).mpr h
  have hlast : ClientStep ⟨shm₂, []⟩ (.call mmapPage) ⟨shm₃, [firstRun]⟩ := by
    refine .call hstep₃ (fun _ _ h ↦ by cases h) fun r hr ↦ ?_
    rw [List.mem_singleton.mp hr, start_firstRun, count_firstRun, hg₃.bitsetSize]
    change 514 + 1 ≤ 8 * shm₁.bitsetSize
    rw [hone.bitsetSize]
    decide
  let t : List (ClientEvent × World) :=
    [(.call mmapPage, ⟨shm₁, [firstRun]⟩), (.write (514 * 4096) 7, ⟨wrote shm₁, [firstRun]⟩),
      (.call ⟨.main, mmapPage.kernel, .munmap firstRun⟩, ⟨shm₂, []⟩)]
  have hrun : IsRun ClientStep ⟨sharedMemoryInit 2500, []⟩ t := by
    refine ⟨hstep₁, clientStep_write shm₁, .call ?_ (fun _ _ h ↦ by cases h) ?_, trivial⟩
    · have hmunmap := Step.munmap (w := ⟨wrote shm₁, [firstRun]⟩) (p := .main)
        (k := mmapPage.kernel) List.mem_cons_self hfree
      rwa [List.erase_cons_head] at hmunmap
    · exact fun r hr ↦ absurd hr List.not_mem_nil
  have hmem : (⟨shm₂, []⟩ : World) ∈ runStates ⟨sharedMemoryInit 2500, []⟩ t := by
    simp [t, runStates]
  exact ⟨t, ⟨shm₂, []⟩, shm₃, hrun, hmem, bytes_wrote shm₁, hlast,
    bytes_eq_zero_of_mmap hrun hmem hlast covers_firstRun⟩

/-! ## Moves keep the contents -/

theorem MoveFits.moved (hw : AllocatorState usedPages w) (hr : r ∈ w.live)
    (hfits : MoveFits w r newSize)
    (hrun : shmMremap k p r.address r.length newSize w.shm = .ok a s') :
    Moved w r newSize a s' := by
  obtain ⟨pos, s₁, hg, hs, hcase⟩ := (shmMremap_contents w.shm _ _ _).ok hrun
  obtain ⟨start, hfit, hstart⟩ := hg.firstFit
  obtain ⟨hrounds, hpages⟩ := hfits start hfit
  rw [← hstart] at hpages
  have hnew : ∀ page, pos ≤ page → page < pos + pageCount newSize →
      ¬ w.shm.pagesUsed.Used page := fun page h₁ h₂ ↦ (hpages page h₁ (by omega)).2
  -- the old place is not free unless the old run has no pages
  have hcount : pos = r.start → r.count = 0 := fun hpos ↦ by
    by_contra hcount
    refine (hpages pos le_rfl (by omega)).2 (hw.used_of_covers hr ?_)
    rw [hpos]
    exact ⟨le_rfl, Nat.lt_add_of_pos_right (Nat.pos_of_ne_zero hcount)⟩
  have haddress := hw.aligned r hr
  obtain ⟨rfl, hbytes, hused, hsize⟩ := movedTo_of_ne haddress hcount hcase
  have hsize : s'.bitsetSize = w.shm.bitsetSize := hsize.trans hg.bitsetSize
  refine ⟨fun i hi ↦ ?_, fun i hi ↦ ?_, fun page hcov _ h ↦ ((hused page).mp h).1 hcov,
    fun r' hr' o ho ↦ ?_, fun _ page hcov ↦ ?_⟩
  · rw [pageIndexToAddress_sub, haddress, pageIndexToAddress_sub, hbytes]
    exact hw.copied_bytes hs hr hnew
      (Nat.lt_of_lt_of_le hi (Nat.mul_le_mul_right _ (Nat.min_le_left _ _)))
  · have hpage := Nat.add_lt_add_left (div_lt_pageCount hrounds hi) pos
    rw [addressToPageIndex_add, hsize, hused]
    refine ⟨(hpages _ (Nat.le_add_right _ _) (by omega)).1, fun hcov ↦ ?_,
      hg.used (Nat.le_add_right _ _) hpage⟩
    exact hnew _ (Nat.le_add_right _ _) hpage (hw.used_of_covers hr hcov)
  · have hin := hw.not_inPages (List.mem_of_mem_erase hr') (n := r.count)
      (fun page h₁ h₂ ↦ (hpages page h₁ (by omega)).2) ho
    rw [hbytes, copiedBytes_of_not_inPages hin]
    exact hw.served_bytes hs (List.mem_of_mem_erase hr') hnew ho
  · have hcov' : pos ≤ page ∧ page < pos + r.count := by
      rw [← addressToPageIndex_pageIndexToAddress pos]
      exact hcov
    obtain ⟨hlt, hfree⟩ := hpages page hcov'.1 (by omega)
    exact ⟨hsize ▸ hlt, fun hcov ↦ hfree (hw.used_of_covers hr hcov)⟩

/-- Contents by which the run `r` is told from the other ones. -/
def markedBytes (w : World) (r : PageRun) (o : ℕ) : BitVec 8 :=
  if w.shm.firstUnusedPageIndex * dlPagesize ≤ o then 0
  else if r.start ≤ o / dlPagesize ∧ o / dlPagesize < r.start + r.count then 1 else 2

theorem fresh_markedBytes (hfresh : Fresh w) (r : PageRun) :
    Fresh (w.withBytes (markedBytes w r)) :=
  ⟨fun _ ho ↦ if_pos ho, hfresh.mark_le, hfresh.live_le⟩

theorem markedBytes_of_covers (hfresh : Fresh w) {r' : PageRun} (hr' : r' ∈ w.live) {o : ℕ}
    (ho : r'.Covers (o / dlPagesize)) :
    markedBytes w r o = if r.start ≤ o / dlPagesize ∧ o / dlPagesize < r.start + r.count
      then 1 else 2 := by
  have hle := hfresh.live_le r' hr'
  have hlt := ho.2
  refine if_neg ?_
  unfold dlPagesize at hlt ⊢
  omega

theorem Moved.reserved_page (h : Moved w r newSize a s') (ha : a = pageIndexToAddress pos) {i : ℕ}
    (hi : i < newSize.toNat) : pos + i / dlPagesize < 8 * s'.bitsetSize ∧
      s'.pagesUsed.Used (pos + i / dlPagesize) := by
  rw [← addressToPageIndex_add, ← ha]
  exact h.reserved i hi

/-- As the pages of the new size are in the bitset, it can be rounded up. -/
theorem Moved.rounds (h : Moved w r newSize a s') (ha : a = pageIndexToAddress pos)
    (hbitset : s'.bitsetSize < 2 ^ 49) : newSize.toNat + dlPagesize ≤ 2 ^ 64 := by
  by_contra hover
  have hlt := (h.reserved_page ha (i := 8 * s'.bitsetSize * dlPagesize) (by
    unfold dlPagesize at hover ⊢
    omega)).1
  rw [Nat.mul_div_cancel _ (by decide)] at hlt
  omega

/-- A page of the new run is not one of the old run, and neither is one that `memcpy` writes to. -/
theorem Moved.not_covers (h : Moved w r newSize a s') (hto : MovedTo r pos a s₁ s')
    (hrounds : newSize.toNat + dlPagesize ≤ 2 ^ 64) (hzero : pos = r.start → r.count = 0)
    {page : ℕ} (h₁ : pos ≤ page) (h₂ : page < pos + max r.count (pageCount newSize)) :
    page < 8 * s'.bitsetSize ∧ ¬ r.Covers page := by
  rcases Nat.lt_or_ge page (pos + pageCount newSize) with hnew | hold
  · have hi : (page - pos) * dlPagesize < newSize.toNat := by
      rw [pageCount_eq hrounds] at hnew
      unfold dlPagesize at hnew ⊢
      omega
    have hpage := h.reserved_page hto.address hi
    rw [Nat.mul_div_cancel _ (by decide), Nat.add_sub_of_le h₁, hto.used_iff] at hpage
    exact ⟨hpage.1, hpage.2.1⟩
  · have hne : a ≠ r.address := fun heq ↦ by
      have hstart : pos = r.start := by
        rw [← addressToPageIndex_pageIndexToAddress pos, ← hto.address, heq]
        rfl
      have := hzero hstart
      omega
    refine h.copied hne page ?_
    unfold PageRun.Covers PageRun.start
    rw [hto.address, addressToPageIndex_pageIndexToAddress]
    exact ⟨h₁, show page < pos + r.count by omega⟩

section Converse

variable {start : ℕ} (hw : AllocatorState usedPages w) (hfresh : Fresh w) (hr : r ∈ w.live)
  (hfit : FirstFit w.shm (pageCount newSize) start)
  (hmoved : Moved (w.withBytes (markedBytes w r)) r newSize a s')
  (hg : Granted w.shm (pageCount newSize) (start + 1) s₁)
  (hs : Served k (w.withBytes (markedBytes w r)).shm (pageCount newSize) (start + 1) s₁)

include hw hfresh hr hfit hmoved hg hs in
/-- A run with pages is not answered with its own place: there its pages stay blocked, or its one
page was cleared. -/
theorem count_eq_zero_of_moved (hpos : start + 1 = r.start) (ha : a = r.address) (hs' : s' = s₁)
    (hcount : 0 < pageCount newSize) : r.count = 0 := by
  subst ha hs'
  by_contra hzero
  have hcov : r.Covers (start + 1) := ⟨hpos.ge, by omega⟩
  have hone : pageCount newSize = 1 := by
    by_contra hne
    exact hfit.1.not_used (by omega) (by omega) (hw.used_of_covers hr hcov)
  have hcov' : ∀ page, PageRun.Covers ⟨r.address, newSize⟩ page → page = start + 1 := by
    rintro page ⟨h₁, h₂⟩
    change r.start ≤ page at h₁
    change page < r.start + pageCount newSize at h₂
    omega
  rcases Nat.lt_or_ge 1 r.count with htwo | hle
  · have hnext : r.Covers (start + 1 + 1) := ⟨by omega, by omega⟩
    refine hmoved.freed _ hnext (fun h ↦ absurd (hcov' _ h) (by omega)) ?_
    rw [hg.pagesUsed, used_setRange]
    exact Or.inr ⟨by omega, hw.used_of_covers hr hnext⟩
  · have hpage : ((start + 1) * dlPagesize) / dlPagesize = start + 1 :=
      Nat.mul_div_cancel _ (by decide)
    have hkept := hmoved.contents 0 (by
      rw [show r.count = 1 by omega, hone]
      decide)
    rw [hw.aligned r hr, pageIndexToAddress_sub, Nat.add_zero, ← hpos] at hkept
    have hcleared : s'.bytes ((start + 1) * dlPagesize) = 0 := by
      refine hs.cleared hfresh.mark_le ?_ _ ⟨hpage.ge, by omega⟩
      have := hfresh.live_le r hr
      change start + 1 < w.shm.firstUnusedPageIndex
      omega
    rw [hcleared] at hkept
    have hmark := markedBytes_of_covers hfresh (r := r) hr (hpage.symm ▸ hcov)
    rw [if_pos (hpage.symm ▸ hcov)] at hmark
    exact absurd (hkept.trans hmark) (by decide)

include hfresh hr hmoved hs in
/-- No page that is written to belongs to another run: it would be cleared, or filled with the
contents of `r`. -/
theorem not_covers_of_moved (hto : MovedTo r (start + 1) a s₁ s') {r' : PageRun}
    (hr' : r' ∈ w.live.erase r) {page : ℕ} (hnot : ¬ r.Covers page) (h₁ : start + 1 ≤ page)
    (h₂ : page < start + 1 + max r.count (pageCount newSize)) : ¬ r'.Covers page := by
  intro hcov
  have hpage : (page * dlPagesize) / dlPagesize = page := Nat.mul_div_cancel _ (by decide)
  have hmem := List.mem_of_mem_erase hr'
  have hkept := hmoved.others r' hr' (page * dlPagesize) (hpage.symm ▸ hcov)
  have hmark := markedBytes_of_covers hfresh (r := r) hmem (hpage.symm ▸ hcov)
  rw [hpage, if_neg (show ¬ (r.start ≤ page ∧ page < r.start + r.count) from hnot)] at hmark
  replace hkept : s'.bytes (page * dlPagesize) = 2 := hkept.trans hmark
  rw [hto.bytes] at hkept
  unfold copiedBytes at hkept
  split at hkept
  · next hin =>
      -- the byte comes from the run `r`
      set o := r.start * dlPagesize + (page * dlPagesize - (start + 1) * dlPagesize) with ho
      have hsource : r.Covers (o / dlPagesize) := by
        unfold PageRun.Covers
        unfold dlPagesize at hin ho ⊢
        omega
      have hone := markedBytes_of_covers hfresh (r := r) hr hsource
      rw [if_pos (show _ ∧ _ from hsource)] at hone
      rcases hs.bytes o with heq | ⟨hzero, -⟩
      · exact absurd (hkept.symm.trans (heq.trans hone)) (by decide)
      · exact absurd (hkept.symm.trans hzero) (by decide)
  · next hin =>
      have hcleared : s₁.bytes (page * dlPagesize) = 0 := by
        refine hs.cleared hfresh.mark_le ?_ _ ⟨hpage.symm ▸ h₁, ?_⟩
        · have hle := hfresh.live_le r' hmem
          have hlt := hcov.2
          change start + 1 < w.shm.firstUnusedPageIndex
          omega
        · rw [hpage]
          unfold dlPagesize at hin
          omega
      exact absurd (hkept.symm.trans hcleared) (by decide)

end Converse

end Cali.Shm
