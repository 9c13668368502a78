import Cali.Shm.Contents

/-!
# The length of a mapping

`shm_mmap` rounds the length up to pages before it asks for them.  The sum in `ALIGN_UP` is
one of 64-bit numbers, and for a length in the last page below `2^64` it wraps around: the
length becomes zero, no page is asked for, and an address is returned all the same.  The sums
and products that the request itself computes stay far below the limit, because the bitset
bounds the answer of the search.
-/

namespace Cali.Shm

open Cali.Lib

/-- The answer is the address of a run of blocked pages with at least `length` bytes. -/
def LongEnough (length : BitVec 64) (r : MmapResult) (s' : SharedMemoryInformation) : Prop :=
  ∃ pos count, r = .address (pageIndexToAddress pos) ∧ length.toNat ≤ count * dlPagesize ∧
    ∀ page, pos ≤ page → page < pos + count →
      page < 8 * s'.bitsetSize ∧ s'.pagesUsed.Used page

/-- `(pos + count) * _dl_pagesize`, as it is computed. -/
def sizeUpTo (pos count : ℕ) : BitVec 64 :=
  (BitVec.ofNat 64 pos + BitVec.ofNat 64 count) * BitVec.ofNat 64 dlPagesize

/-- Whatever the kernel does, a mapping that is returned is long enough. -/
def MapsLongEnough (s : SharedMemoryInformation) (length : BitVec 64) : Prop :=
  ∀ k p fd offset r s', fd < 0 → offset ≤ 0 → shmMmap k p 0 length fd offset s = .ok r s' →
    LongEnough length r s'

/-- If there is a fit, rounding `length` up does not overflow, and the fit is not at the very end
of the bitset: the answer of the search is one page above it. -/
def MmapFits (s : SharedMemoryInformation) (length : BitVec 64) : Prop :=
  ∀ start, FirstFit s (pageCount length) start →
    length.toNat + dlPagesize ≤ 2 ^ 64 ∧ start + pageCount length < 8 * s.bitsetSize

variable {s s' : SharedMemoryInformation} {pos count : ℕ} {length : BitVec 64}

theorem length_le_of_rounds (h : length.toNat + dlPagesize ≤ 2 ^ 64) :
    length.toNat ≤ pageCount length * dlPagesize := by
  rw [pageCount_eq h]
  unfold dlPagesize
  omega

theorem toNat_sizeUpTo (h : (pos + count) * dlPagesize < 2 ^ 64) :
    (sizeUpTo pos count).toNat = (pos + count) * dlPagesize := by
  unfold sizeUpTo
  rw [← BitVec.ofNat_add, ← BitVec.ofNat_mul, BitVec.toNat_ofNat, Nat.mod_eq_of_lt h]

/-- What the search finds lies in the bitset, and so the size it leads to is below the limit. -/
theorem size_lt_of_find (hbitset : s.bitsetSize < 2 ^ 49)
    (hfind : findContinousFreePages s.pagesUsed s.bitsetSize count = some pos) :
    (pos + count) * dlPagesize < 2 ^ 64 := by
  obtain ⟨start, hfit, rfl⟩ := findContinousFreePages_eq_some_iff.mp hfind
  have hle : start + max count 1 ≤ 8 * s.bitsetSize := hfit.1.1
  unfold dlPagesize
  omega

theorem pageIndexToAddress_injective : Function.Injective pageIndexToAddress :=
  Function.LeftInverse.injective addressToPageIndex_pageIndexToAddress

theorem Granted.longEnough (hg : Granted s (pageCount length) pos s') (hfits : MmapFits s length) :
    LongEnough length (.address (pageIndexToAddress pos)) s' := by
  obtain ⟨start, hfit, rfl⟩ := hg.firstFit
  obtain ⟨hrounds, hbelow⟩ := hfits start hfit
  refine ⟨start + 1, pageCount length, rfl, length_le_of_rounds hrounds, fun page h₁ h₂ ↦ ⟨?_, ?_⟩⟩
  · rw [hg.bitsetSize]
    omega
  · rw [hg.pagesUsed, used_setRange]
    exact Or.inl ⟨⟨h₁, h₂⟩, rfl⟩

/-- A run of pages that is long enough and starts behind a fit is in the bitset, so the length
can be rounded up and the pages end before the bitset does. -/
theorem LongEnough.fits {start : ℕ} (hbitset : s.bitsetSize < 2 ^ 49) (hlength : 0 < length.toNat)
    (h : LongEnough length (.address (pageIndexToAddress (start + 1))) s') (hsize : s'.bitsetSize =
      s.bitsetSize) :
    length.toNat + dlPagesize ≤ 2 ^ 64 ∧ start + pageCount length < 8 * s.bitsetSize := by
  obtain ⟨pos, count, hpos, hle, hblocked⟩ := h
  cases pageIndexToAddress_injective (MmapResult.address.inj hpos)
  unfold dlPagesize at hle
  obtain ⟨hlast, -⟩ := hblocked (start + count) (by omega) (by omega)
  rw [hsize] at hlast
  have hrounds : length.toNat + dlPagesize ≤ 2 ^ 64 := by
    unfold dlPagesize
    omega
  rw [pageCount_eq hrounds]
  unfold dlPagesize at hrounds ⊢
  omega

/-- **A mapping is as long as requested exactly if** its length can be rounded up and the fit is
not at the very end.  The sizes are computed without an overflow for every length. -/
theorem longEnough_iff_mmapFits (hbitset : s.bitsetSize < 2 ^ 49) (hmtx : s.mtx ≠ 0)
    (hlength : 0 < length.toNat) :
    (MapsLongEnough s length ↔ MmapFits s length) ∧
    ∀ pos, findContinousFreePages s.pagesUsed s.bitsetSize (pageCount length) = some pos →
      (sizeUpTo pos (pageCount length)).toNat = (pos + pageCount length) * dlPagesize := by
  refine ⟨⟨fun h start hfit ↦ ?_, fun hfits k p fd offset r s' hfd hoffset hrun ↦ ?_⟩,
    fun pos hfind ↦ toNat_sizeUpTo (size_lt_of_find hbitset hfind)⟩
  · -- with a kernel that refuses nothing the fit is answered
    obtain ⟨s', hrun, hg, -⟩ := shmMmap_eq_ok (k := mmapPage.kernel) .main
      ⟨fun _ ↦ rfl, fun _ _ ↦ rfl⟩ hmtx hfit
    exact (h _ _ _ _ _ s' (by decide) le_rfl hrun).fits hbitset hlength hg.bitsetSize
  · obtain ⟨pos, rfl, hg, -⟩ := (shmMmap_spec s length hfd hoffset).ok hrun
    exact hg.longEnough hfits

theorem firstFit_init {count : ℕ} (hcount : count ≤ 1) :
    FirstFit (sharedMemoryInit 2500) count 513 := by
  obtain ⟨-, -, hfit, -⟩ := exists_step_mmapPage_init
  unfold FirstFit at hfit ⊢
  rwa [Nat.max_eq_right hcount]

/-- One page after the initialisation -/
theorem longEnough_first_page : MmapFits (sharedMemoryInit 2500) 4096 ∧
    MapsLongEnough (sharedMemoryInit 2500) 4096 ∧ (sizeUpTo 514 1).toNat = 515 * dlPagesize := by
  have hfit : FirstFit (sharedMemoryInit 2500) (pageCount 4096) 513 := firstFit_init (by decide)
  have hfits : MmapFits (sharedMemoryInit 2500) 4096 := fun start hfit' ↦ by
    cases hfit.unique hfit'
    decide
  have hspec : (MapsLongEnough (sharedMemoryInit 2500) 4096 ↔ _) ∧ _ :=
    longEnough_iff_mmapFits (by decide) (by decide) (by decide)
  exact ⟨hfits, hspec.1.mpr hfits,
    hspec.2 514 (findContinousFreePages_eq_some_iff.mpr ⟨513, hfit, rfl⟩)⟩

/-- The largest length is rounded up to nothing: an address is returned, and no page is
blocked for it. -/
theorem not_longEnough_largest_length :
    pageCount (-1) = 0 ∧
      ∃ s', shmMmap mmapPage.kernel .main 0 (-1) (-1) 0 (sharedMemoryInit 2500) =
          .ok (.address (pageIndexToAddress 514)) s' ∧
        ¬ LongEnough (-1) (.address (pageIndexToAddress 514)) s' := by
  have hcount : pageCount (-1) = 0 := by decide
  obtain ⟨s', hrun, hg, -⟩ := shmMmap_eq_ok (k := mmapPage.kernel) .main
    ⟨fun _ ↦ rfl, fun _ _ ↦ rfl⟩ (by decide) (firstFit_init (hcount.trans_le (Nat.zero_le 1)))
  refine ⟨hcount, s', hrun, fun hlong ↦ ?_⟩
  exact absurd (hlong.fits (by decide) (by decide) hg.bitsetSize).1 (by decide)

end Cali.Shm
