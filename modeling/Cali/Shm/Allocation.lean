import Cali.Lib.Ownership
import Cali.Lib.Run
import Cali.Shm.Manager

/-!
# Who owns which page

The clients of the manager hold *page runs*: an address that `shm_mmap` or
`shm_mremap` returned together with the length asked for.  `World` records the runs
that are still live next to the manager's state, and `Step` is one call of one
process.  The intended contract is `Lib.Exclusive`; because the search answers one
page too high, it holds along the runs in which the page after the first fit is
free as well.
-/

namespace Cali.Shm

open Cali.Lib

/-- A run of pages as its owner knows it. -/
structure PageRun where
  address : ℕ
  length : BitVec 64
deriving DecidableEq, Repr

namespace PageRun

/-- The first page of the run. -/
def start (r : PageRun) : ℕ := addressToPageIndex r.address

/-- The number of pages of the run. -/
def count (r : PageRun) : ℕ := pageCount r.length

/-- The page belongs to the run. -/
def Covers (r : PageRun) (page : ℕ) : Prop := r.start ≤ page ∧ page < r.start + r.count

end PageRun

/-- The manager and the runs that are live. -/
structure World where
  shm : SharedMemoryInformation
  live : List PageRun

/-- The calls of the clients; an anonymous `mmap` has no descriptor and no offset. -/
inductive Call where
  | mmap (length : BitVec 64) (fd offset : ℤ)
  | munmap (r : PageRun)
  | mremap (r : PageRun) (newSize : BitVec 64)

/-- A call of the process `process`, with the answers the kernel gives during it. -/
structure Event where
  process : Process
  kernel : Kernel
  call : Call

/-- One call.  A run is added when it is returned and dropped when it is given
back; a call that fails changes nothing for the clients. -/
inductive Step : World → Event → World → Prop
  | mmap {w : World} {p : Process} {k : Kernel} {length : BitVec 64} {fd offset : ℤ} {a : ℕ}
      {shm : SharedMemoryInformation} (hfd : fd < 0) (hoffset : offset ≤ 0)
      (h : shmMmap k p 0 length fd offset w.shm = .ok (.address a) shm) :
      Step w ⟨p, k, .mmap length fd offset⟩ ⟨shm, ⟨a, length⟩ :: w.live⟩
  | mmapFails {w : World} {p : Process} {k : Kernel} {length : BitVec 64} {fd offset : ℤ}
      {e : Failure} {shm : SharedMemoryInformation} (hfd : fd < 0) (hoffset : offset ≤ 0)
      (h : shmMmap k p 0 length fd offset w.shm = .error e shm) :
      Step w ⟨p, k, .mmap length fd offset⟩ ⟨shm, w.live⟩
  | munmap {w : World} {p : Process} {k : Kernel} {r : PageRun} {shm : SharedMemoryInformation}
      (hr : r ∈ w.live) (h : shmMunmap r.address r.length w.shm = .ok () shm) :
      Step w ⟨p, k, .munmap r⟩ ⟨shm, w.live.erase r⟩
  | munmapFails {w : World} {p : Process} {k : Kernel} {r : PageRun} {e : Failure}
      {shm : SharedMemoryInformation} (hr : r ∈ w.live)
      (h : shmMunmap r.address r.length w.shm = .error e shm) :
      Step w ⟨p, k, .munmap r⟩ ⟨shm, w.live⟩
  | mremap {w : World} {p : Process} {k : Kernel} {r : PageRun} {newSize : BitVec 64} {a : ℕ}
      {shm : SharedMemoryInformation} (hr : r ∈ w.live)
      (h : shmMremap k p r.address r.length newSize w.shm = .ok a shm) :
      Step w ⟨p, k, .mremap r newSize⟩ ⟨shm, ⟨a, newSize⟩ :: w.live.erase r⟩
  | mremapFails {w : World} {p : Process} {k : Kernel} {r : PageRun} {newSize : BitVec 64}
      {e : Failure} {shm : SharedMemoryInformation} (hr : r ∈ w.live)
      (h : shmMremap k p r.address r.length newSize w.shm = .error e shm) :
      Step w ⟨p, k, .mremap r newSize⟩ ⟨shm, w.live⟩

/-! ## The contract -/

/-- No two live runs share a page, none contains one of the first `usedPages`
pages, all lie below `8 * bitsetSize`, and there a bit is set exactly when its page
is one of the first `usedPages` or belongs to a live run. -/
def PagesExclusive (bitsetSize usedPages : ℕ) (w : World) : Prop :=
  Exclusive PageRun.Covers (· < 8 * bitsetSize) (· < usedPages) w.shm.pagesUsed.Used w.live

/-- The page after the first fit for `count` pages exists and is free. -/
def Roomy (s : SharedMemoryInformation) (count : ℕ) : Prop :=
  count = 0 ∨ ∀ start, FirstFit s count start →
    start + count < 8 * s.bitsetSize ∧ ¬ s.pagesUsed.Used (start + count)

/-- What a call needs: the request it makes is roomy, and a move to no pages is not
answered with the place of a run that has some. -/
def CallOk (w : World) (e : Event) : Prop :=
  match e.call with
  | .mmap length _ _ => Roomy w.shm (pageCount length)
  | .munmap _ => True
  | .mremap r newSize =>
    Roomy w.shm (pageCount newSize) ∧
      (pageCount newSize = 0 →
        r.count = 0 ∨ ∀ start, FirstFit w.shm 0 start → start + 1 ≠ r.start)

variable {s s' : SharedMemoryInformation} {bitsetSize usedPages count pos : ℕ}

theorem Granted.free_of_roomy (hg : Granted s count pos s') (hroom : Roomy s count) {page : ℕ}
    (h₁ : pos ≤ page) (h₂ : page < pos + count) :
    page < 8 * s.bitsetSize ∧ ¬ s.pagesUsed.Used page := by
  obtain ⟨start, hfit, rfl⟩ := hg.firstFit
  rcases hroom with h0 | hroom
  · omega
  obtain ⟨hlt, hfree⟩ := hroom start hfit
  rcases Nat.lt_or_ge page (start + count) with hp | hp
  · exact ⟨by omega, hfit.1.not_used (by omega) (by omega)⟩
  · have : page = start + count := by omega
    exact this ▸ ⟨hlt, hfree⟩

theorem used_setRange {m : PagesUsed} {bit : Bool} {page : ℕ} :
    (m.setRange pos bit count).Used page ↔
      (pos ≤ page ∧ page < pos + count) ∧ bit = true ∨
        ¬ (pos ≤ page ∧ page < pos + count) ∧ m.Used page := by
  unfold PagesUsed.Used
  rw [PagesUsed.get_setRange]
  split
  · next h => simp [h]
  · next h => simp only [h, false_and, not_false_eq_true, true_and, false_or]

theorem Granted.exclusive (hg : Granted s count pos s') (hroom : Roomy s count)
    {live : List PageRun} {a : ℕ} {length : BitVec 64} (hcount : pageCount length = count)
    (ha : addressToPageIndex a = pos)
    (h : Exclusive PageRun.Covers (· < 8 * s.bitsetSize) (· < usedPages) s.pagesUsed.Used live) :
    Exclusive PageRun.Covers (· < 8 * s.bitsetSize) (· < usedPages) s'.pagesUsed.Used
      (⟨a, length⟩ :: live) := by
  subst hcount ha
  refine h.alloc (fun page hp ↦ hg.free_of_roomy hroom hp.1 hp.2) fun page _ ↦ ?_
  rw [hg.pagesUsed, used_setRange]
  unfold PageRun.Covers PageRun.start PageRun.count
  simp only
  tauto

theorem used_free {m : PagesUsed} {r : PageRun} {page : ℕ} :
    (m.setRange (addressToPageIndex r.address) false (pageCount r.length)).Used page ↔
      ¬ r.Covers page ∧ m.Used page := by
  rw [used_setRange]
  simp [PageRun.Covers, PageRun.start, PageRun.count]

/-- A roomy move that is answered with the place the run already has is the move of
an empty run. -/
theorem not_covers_of_moved_in_place {w : World} {r : PageRun} {newSize : BitVec 64}
    (h : Exclusive PageRun.Covers (· < 8 * w.shm.bitsetSize) (· < usedPages)
      w.shm.pagesUsed.Used w.live)
    (hr : r ∈ w.live) (hg : Granted w.shm (pageCount newSize) r.start s')
    (hroom : Roomy w.shm (pageCount newSize))
    (hzero : pageCount newSize = 0 →
      r.count = 0 ∨ ∀ start, FirstFit w.shm 0 start → start + 1 ≠ r.start) (page : ℕ) :
    ¬ r.Covers page := by
  suffices hcount : r.count = 0 by
    rintro ⟨h₁, h₂⟩
    omega
  rcases Nat.eq_zero_or_pos (pageCount newSize) with h0 | hpos
  · rcases hzero h0 with hcount | hne
    · exact hcount
    · obtain ⟨start, hfit, hstart⟩ := hg.firstFit
      rw [h0] at hfit
      exact absurd hstart.symm (hne start hfit)
  · -- the first page of the run would be both free and used
    by_contra hcount
    obtain ⟨hin, hfree⟩ := hg.free_of_roomy hroom le_rfl (by omega)
    exact hfree ((h.used_iff r.start hin).mpr
      (Or.inr ⟨r, hr, le_rfl, by omega⟩))

/-- The contract together with the size of the bitset, which no call changes. -/
structure Wf (bitsetSize usedPages : ℕ) (w : World) : Prop where
  bitsetSize_eq : w.shm.bitsetSize = bitsetSize
  exclusive : PagesExclusive bitsetSize usedPages w

theorem Wf.of_same {w : World} (h : Wf bitsetSize usedPages w) (hsame : SameBitset w.shm s') :
    Wf bitsetSize usedPages ⟨s', w.live⟩ := by
  refine ⟨hsame.bitsetSize.trans h.bitsetSize_eq, ?_⟩
  have hex := h.exclusive
  unfold PagesExclusive at hex ⊢
  rwa [hsame.pagesUsed]

theorem Step.wf {w w' : World} {e : Event} (hstep : Step w e w') (hok : CallOk w e)
    (h : Wf bitsetSize usedPages w) : Wf bitsetSize usedPages w' := by
  obtain ⟨rfl, hex⟩ := h
  have hw : Wf w.shm.bitsetSize usedPages w := ⟨rfl, hex⟩
  cases hstep with
  | mmap hfd hoffset hrun =>
    obtain ⟨pos, ha, hg, -⟩ := (shmMmap_spec w.shm _ hfd hoffset).ok hrun
    cases ha
    exact ⟨hg.bitsetSize, hg.exclusive hok rfl (by simp) hex⟩
  | mmapFails hfd hoffset hrun =>
    exact hw.of_same ((shmMmap_spec w.shm _ hfd hoffset).error hrun).same
  | munmap hr hrun =>
    obtain ⟨hp, hb⟩ := (shmMunmap_spec w.shm _ _).ok hrun
    refine ⟨hb, hex.erase hr fun page _ ↦ ?_⟩
    simp only [hp, used_free]
  | munmapFails hr hrun =>
    have heq := (shmMunmap_spec w.shm _ _).error hrun
    exact hw.of_same (heq ▸ SameBitset.refl _)
  | @mremap p k r newSize a shm hr hrun =>
    obtain ⟨hroom, hzero⟩ := hok
    obtain ⟨pos, s₁, hg, hb, hcase⟩ := (shmMremap_spec w.shm _ _ _).ok hrun
    refine ⟨hb, ?_⟩
    rcases hcase with ⟨rfl, rfl, hp⟩ | ⟨hne, rfl, hp⟩
    · have hnone := not_covers_of_moved_in_place hex hr hg hroom hzero
      refine (hg.exclusive hroom rfl rfl hex).replace hr fun page _ ↦ ?_
      simp only [hp, hnone page, not_false_eq_true, true_and]
    · refine (hg.exclusive hroom rfl (by simp) hex).replace hr fun page _ ↦ ?_
      simp only [hp, used_free]
  | mremapFails hr hrun =>
    exact hw.of_same ((shmMremap_spec w.shm _ _ _).error hrun).same

/-! ## Whole runs -/

theorem used_init {size page : ℕ} :
    (SharedMemoryInformation.init size bitsetSize usedPages).pagesUsed.Used page ↔
      page < usedPages := by
  unfold SharedMemoryInformation.init
  rw [used_setRange]
  simp [PagesUsed.Used, PagesUsed.get, ByteBitset.get]

theorem wf_init (size bitsetSize usedPages : ℕ) :
    Wf bitsetSize usedPages ⟨.init size bitsetSize usedPages, []⟩ :=
  ⟨rfl, Exclusive.nil fun _ _ ↦ used_init⟩

/-- The pages `shared_memory_init` takes for itself. -/
def initialPages (sizeofInfo : ℕ) : ℕ := infoPagesLoop dlPagesize sizeofInfo 1 + 512

/-! ### The first calls

The first page above the initial ones is free, so the search answers with the page
after it, and it does so for every request for one page. -/

/-- The main process asks for one page, and the kernel refuses nothing. -/
def mmapPage : Event := ⟨.main, ⟨fun _ ↦ true, fun _ _ ↦ .inPlace⟩, .mmap 4096 (-1) 0⟩

theorem initialPages_2500 : initialPages 2500 = 513 := by
  unfold initialPages
  rw [infoPagesLoop, if_neg (by decide)]

/-- In a state whose first free page is `start`, `mmapPage` returns the page after. -/
theorem exists_step_mmapPage {w : World} {start : ℕ} (hm : w.shm.mtx ≠ 0)
    (hlt : start < 8 * w.shm.bitsetSize) (hfree : ¬ w.shm.pagesUsed.Used start)
    (hbelow : ∀ page, page < start → w.shm.pagesUsed.Used page) :
    ∃ shm, Step w mmapPage ⟨shm, ⟨pageIndexToAddress (start + 1), 4096⟩ :: w.live⟩ ∧
      FirstFit w.shm 1 start ∧ Granted w.shm 1 (start + 1) shm ∧ shm.mtx ≠ 0 := by
  have hgap : Gap w.shm.pagesUsed.Used (8 * w.shm.bitsetSize) 1 start := by
    refine ⟨hlt, fun page h₁ h₂ ↦ ?_⟩
    rwa [show page = start by omega]
  have hfit : FirstFit w.shm (pageCount 4096) start := hgap.firstGap Nat.one_pos hbelow
  obtain ⟨shm, hok, hg, hm'⟩ :=
    shmMmap_eq_ok (k := mmapPage.kernel) .main ⟨fun _ ↦ rfl, fun _ _ ↦ rfl⟩ hm hfit
  exact ⟨shm, .mmap (by omega) le_rfl hok, hfit, hg, hm'⟩

theorem sharedMemoryInit_used {sizeofInfo page : ℕ} :
    (sharedMemoryInit sizeofInfo).pagesUsed.Used page ↔ page < initialPages sizeofInfo :=
  used_init

theorem exists_step_mmapPage_init :
    ∃ shm, Step ⟨sharedMemoryInit 2500, []⟩ mmapPage ⟨shm, [⟨pageIndexToAddress 514, 4096⟩]⟩ ∧
      FirstFit (sharedMemoryInit 2500) 1 513 ∧ Granted (sharedMemoryInit 2500) 1 514 shm ∧
      shm.mtx ≠ 0 := by
  refine exists_step_mmapPage (w := ⟨sharedMemoryInit 2500, []⟩) (by decide) (by decide) ?_ ?_
  · rw [sharedMemoryInit_used, initialPages_2500]
    exact lt_irrefl 513
  · intro page hpage
    rwa [sharedMemoryInit_used, initialPages_2500]

theorem FirstFit.roomy {start : ℕ} (hfit : FirstFit s count start)
    (hlt : start + count < 8 * s.bitsetSize) (hfree : ¬ s.pagesUsed.Used (start + count)) :
    Roomy s count := by
  refine Or.inr fun start' hfit' ↦ ?_
  cases hfit.unique hfit'
  exact ⟨hlt, hfree⟩

theorem roomy_init : Roomy (sharedMemoryInit 2500) 1 := by
  obtain ⟨-, -, hfit, -⟩ := exists_step_mmapPage_init
  exact hfit.roomy (by decide) (by rw [sharedMemoryInit_used, initialPages_2500]; decide)

theorem used_mmapPage_init (hg : Granted (sharedMemoryInit 2500) 1 514 s) (page : ℕ) :
    s.pagesUsed.Used page ↔ page = 514 ∨ page < 513 := by
  rw [hg.pagesUsed, used_setRange, sharedMemoryInit_used, initialPages_2500]
  simp only [and_true]
  omega

/-! ### Every run -/

/-- **Pages are never shared as long as every request is roomy.**  From the state
`shared_memory_init` builds, along every run of calls by either process that all
meet `CallOk`, the contract holds in every state. -/
theorem pagesExclusive_of_callOk {sizeofInfo : ℕ} {t : List (Event × World)}
    (hrun : IsRun Step ⟨sharedMemoryInit sizeofInfo, []⟩ t)
    (hok : RunOk CallOk ⟨sharedMemoryInit sizeofInfo, []⟩ t) :
    ∀ w ∈ runStates ⟨sharedMemoryInit sizeofInfo, []⟩ t,
      PagesExclusive (512 * dlPagesize) (initialPages sizeofInfo) w := by
  have hinv := hrun.invariant (I := Wf (512 * dlPagesize) (initialPages sizeofInfo))
    (fun _ _ _ hw hok hstep ↦ hstep.wf hok hw) (wf_init _ _ _) hok
  exact fun w hw ↦ (hinv w hw).exclusive

/-- One page and two pages are requested, the first run is given back, and the second one is moved
to its place. -/
theorem pagesExclusive_four_calls :
    ∃ t, t.map (fun x ↦ x.2.live) = [[⟨pageIndexToAddress 514, 4096⟩],
        [⟨pageIndexToAddress 516, 8192⟩, ⟨pageIndexToAddress 514, 4096⟩],
        [⟨pageIndexToAddress 516, 8192⟩], [⟨pageIndexToAddress 514, 4096⟩]] ∧
      IsRun Step ⟨sharedMemoryInit 2500, []⟩ t ∧ RunOk CallOk ⟨sharedMemoryInit 2500, []⟩ t ∧
      ∀ w ∈ runStates ⟨sharedMemoryInit 2500, []⟩ t,
        PagesExclusive (512 * dlPagesize) (initialPages 2500) w := by
  have hk : mmapPage.kernel.Accepts := ⟨fun _ ↦ rfl, fun _ _ ↦ rfl⟩
  obtain ⟨shm₁, hstep₁, -, hg₁, hm₁⟩ := exists_step_mmapPage_init
  have hused₁ := used_mmapPage_init hg₁
  have hsize₁ : 8 * shm₁.bitsetSize = 16777216 := by rw [hg₁.bitsetSize]; rfl
  have hfit₁ : FirstFit shm₁ (pageCount 8192) 515 := by
    refine ⟨⟨by rw [hsize₁]; decide, fun page h₁ h₂ ↦ ?_⟩, fun start hstart hgap ↦ ?_⟩
    · have h₂ : page < 515 + 2 := h₂
      rw [hused₁]
      omega
    · have hgap : Gap shm₁.pagesUsed.Used (8 * shm₁.bitsetSize) 2 start := hgap
      have hfst := hgap.not_used (Nat.le_refl start) (by omega)
      have hsnd := hgap.not_used (Nat.le_succ start) (by omega)
      rw [hused₁] at hfst hsnd
      omega
  obtain ⟨shm₂, hrun₂, hg₂, hm₂⟩ := shmMmap_eq_ok .main hk hm₁ hfit₁
  have hstart₁ := addressToPageIndex_pageIndexToAddress 514
  have hrun₃ := freePages_eq_ok shm₂ hm₂ (addressToPageIndex (pageIndexToAddress 514))
    (pageCount 4096)
  rw [hstart₁] at hrun₃
  let shm₃ : SharedMemoryInformation :=
    { shm₂ with pagesUsed := shm₂.pagesUsed.setRange 514 false (pageCount 4096) }
  have hused₃ : ∀ page, shm₃.pagesUsed.Used page ↔ page < 513 ∨ page = 516 ∨ page = 517 := by
    intro page
    change (PagesUsed.setRange _ 514 false 1).Used page ↔ _
    rw [used_setRange, hg₂.pagesUsed, show pageCount 8192 = 2 from rfl, used_setRange, hused₁]
    simp only [Bool.false_eq_true, and_false, false_or, and_true]
    omega
  have hsize₃ : 8 * shm₃.bitsetSize = 16777216 := by
    rw [show shm₃.bitsetSize = shm₁.bitsetSize from hg₂.bitsetSize, hsize₁]
  have hfit₃ : FirstFit shm₃ (pageCount 4096) 513 := by
    refine Gap.firstGap Nat.one_pos ⟨by rw [hsize₃]; decide, fun page h₁ h₂ ↦ ?_⟩ fun page h ↦
      (hused₃ page).mpr (Or.inl h)
    have h₂ : page < 513 + 1 := h₂
    rw [hused₃]
    omega
  obtain ⟨a, shm₄, hrun₄⟩ :=
    exists_shmMremap (p := .library) (s := shm₃) hk hm₂ hfit₃ (pageIndexToAddress 516) 8192
  obtain rfl : a = pageIndexToAddress 514 := by
    obtain ⟨pos, _, hg, -, hcase⟩ := (shmMremap_spec _ _ _ _).ok hrun₄
    obtain ⟨start, hfit, rfl⟩ := hg.firstFit
    cases hfit.unique hfit₃
    rcases hcase with ⟨hpos, -⟩ | ⟨-, rfl, -⟩
    · rw [addressToPageIndex_pageIndexToAddress] at hpos
      cases hpos
    · rfl
  let t : List (Event × World) :=
    [(mmapPage, ⟨shm₁, [⟨pageIndexToAddress 514, 4096⟩]⟩),
      (⟨.main, mmapPage.kernel, .mmap 8192 (-1) 0⟩,
        ⟨shm₂, [⟨pageIndexToAddress 516, 8192⟩, ⟨pageIndexToAddress 514, 4096⟩]⟩),
      (⟨.main, mmapPage.kernel, .munmap ⟨pageIndexToAddress 514, 4096⟩⟩,
        ⟨shm₃, [⟨pageIndexToAddress 516, 8192⟩]⟩),
      (⟨.library, mmapPage.kernel, .mremap ⟨pageIndexToAddress 516, 8192⟩ 4096⟩,
        ⟨shm₄, [⟨pageIndexToAddress 514, 4096⟩]⟩)]
  have hrun : IsRun Step ⟨sharedMemoryInit 2500, []⟩ t := by
    refine ⟨hstep₁, .mmap (by omega) le_rfl hrun₂, ?_, ?_, trivial⟩
    · exact .munmap (List.mem_cons_of_mem _ List.mem_cons_self) (hstart₁.symm ▸ hrun₃)
    · exact .mremap List.mem_cons_self hrun₄
  have hok : RunOk CallOk ⟨sharedMemoryInit 2500, []⟩ t :=
    ⟨roomy_init, hfit₁.roomy (by rw [hsize₁]; decide) (by rw [hused₁]; decide), trivial,
      ⟨hfit₃.roomy (by rw [hsize₃]; decide) (by rw [hused₃]; decide), fun h ↦ by cases h⟩, trivial⟩
  exact ⟨t, rfl, hrun, hok, pagesExclusive_of_callOk hrun hok⟩

/-- Two requests for one page each are answered with the same page. -/
theorem not_pagesExclusive_two_mmaps :
    ¬ ∀ t, IsRun Step ⟨sharedMemoryInit 2500, []⟩ t →
      ∀ w ∈ runStates ⟨sharedMemoryInit 2500, []⟩ t,
        PagesExclusive (512 * dlPagesize) (initialPages 2500) w := by
  intro hall
  obtain ⟨shm₁, hstep₁, -, hg₁, hm₁⟩ := exists_step_mmapPage_init
  have hused₁ := used_mmapPage_init hg₁
  obtain ⟨shm₂, hstep₂, -⟩ := exists_step_mmapPage
    (w := ⟨shm₁, [⟨pageIndexToAddress 514, 4096⟩]⟩) hm₁
    (by simp only [hg₁.bitsetSize]; decide : 513 < _) (by simp [hused₁])
    fun page h ↦ (hused₁ page).mpr (Or.inr h)
  have hbad := hall [(mmapPage, _), (mmapPage, _)] ⟨hstep₁, hstep₂, trivial⟩ _
    (by simp [runStates]; exact Or.inr (Or.inr rfl))
  have hcov : (⟨pageIndexToAddress 514, 4096⟩ : PageRun).Covers 514 := by
    simp [PageRun.Covers, PageRun.start, PageRun.count]
    decide
  exact (List.pairwise_cons.mp hbad.disjoint).1 _ List.mem_cons_self 514 hcov hcov

end Cali.Shm
