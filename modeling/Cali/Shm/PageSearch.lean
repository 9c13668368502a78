import Mathlib.Logic.Function.Basic
import Cali.Lib.Gap
import Cali.Shm.ByteBitset

/-!
# The page bitset and the search for free pages

`SharedMemoryInformation` keeps one bit per page of the shared memory, eight to a
byte, behind the pointer `pages_used`.  `findContinousFreePages` looks for a run
of clear bits by walking over the bytes, with a fast path for bytes that are
entirely used or entirely free.

The walk starts at `i = 1` and reads byte `i / 8`, so that the bit `j` of that
byte is the page `i - 1 + j`; the page the source remembers is `i + j`.  The
specification `findContinousFreePages_eq_some_iff` states what that amounts to:
the search is an exact first fit whose answer is one page too high.
-/

namespace Cali.Shm

open Cali.Lib

/-- `ByteBitset *pages_used`: the bytes from the pointer on.  Like the pointer of
the source it can be indexed past the end of the bitset. -/
abbrev PagesUsed := ℕ → ByteBitset

namespace PagesUsed

/-- `pages_used[page / 8][page % 8]`. -/
def get (m : PagesUsed) (page : ℕ) : Bool := (m (page / 8)).get (page % 8)

/-- `pages_used[page / 8].set(page % 8, bit)`. -/
def set (m : PagesUsed) (page : ℕ) (bit : Bool) : PagesUsed :=
  Function.update m (page / 8) ((m (page / 8)).set (page % 8) bit)

/-- `for (long i = pos; i < pos + count; i++) pages_used[i / 8].set(i % 8, bit)`. -/
def setRange (m : PagesUsed) (pos : ℕ) (bit : Bool) : ℕ → PagesUsed
  | 0 => m
  | count + 1 => setRange (m.set pos bit) (pos + 1) bit count

theorem get_set (m : PagesUsed) (page : ℕ) (bit : Bool) (p : ℕ) :
    (m.set page bit).get p = if p = page then bit else m.get p := by
  unfold get set
  by_cases hbyte : p / 8 = page / 8
  · rw [hbyte, Function.update_self, ByteBitset.get_set _ _ (by omega) (by omega)]
    by_cases hp : p = page
    · simp [hp]
    · have : p % 8 ≠ page % 8 := by omega
      simp [hp, this]
  · rw [Function.update_of_ne hbyte]
    have : p ≠ page := fun h ↦ hbyte (by rw [h])
    simp [this]

theorem get_setRange (m : PagesUsed) (pos : ℕ) (bit : Bool) (count p : ℕ) :
    (m.setRange pos bit count).get p =
      if pos ≤ p ∧ p < pos + count then bit else m.get p := by
  induction count generalizing m pos with
  | zero =>
    simp [setRange]
  | succ count ih =>
    rw [setRange, ih, get_set]
    by_cases h : pos + 1 ≤ p ∧ p < pos + 1 + count
    · have hin : pos ≤ p ∧ p < pos + (count + 1) := by omega
      rw [if_pos h, if_pos hin]
    · rw [if_neg h]
      by_cases hp : p = pos
      · have hin : pos ≤ p ∧ p < pos + (count + 1) := by omega
        rw [if_pos hp, if_pos hin]
      · have hout : ¬ (pos ≤ p ∧ p < pos + (count + 1)) := by omega
        rw [if_neg hp, if_neg hout]

/-- The page has its bit set. -/
def Used (m : PagesUsed) (page : ℕ) : Prop := m.get page = true

instance (m : PagesUsed) (page : ℕ) : Decidable (m.Used page) :=
  inferInstanceAs (Decidable (m.get page = true))

theorem not_used_iff {m : PagesUsed} {page : ℕ} : ¬ m.Used page ↔ m.get page = false := by
  simp [Used]

end PagesUsed

/-! ## The search -/

/-- What the bit loop over one byte leaves behind: it returns from the function,
or it falls through with new values of `c` and `last_start`. -/
inductive ScanResult where
  | found (start : ℕ)
  | more (c lastStart : ℕ)
deriving DecidableEq, Repr

/-- The loop `for (int j = 0; j < 8; j++)` over a byte that is neither full nor
empty, from the bits `js` on. -/
def scanBits (b : ByteBitset) (i count : ℕ) : List ℕ → ℕ → ℕ → ScanResult
  | [], c, lastStart => .more c lastStart
  | j :: js, c, lastStart =>
    if b.get j then
      scanBits b i count js 0 lastStart
    else
      let lastStart := if c = 0 then i + j else lastStart
      if c + 1 ≥ count then .found lastStart else scanBits b i count js (c + 1) lastStart

/-- The loop `while (i / 8 < bitset_size)`. -/
def findLoop (pagesUsed : PagesUsed) (bitsetSize count : ℕ) (i c lastStart : ℕ) : Option ℕ :=
  if i / 8 < bitsetSize then
    if (pagesUsed (i / 8)).all then
      findLoop pagesUsed bitsetSize count (i + 8) 0 lastStart
    else if (pagesUsed (i / 8)).none then
      let lastStart := if c = 0 then i else lastStart
      if c + 8 ≥ count then
        some lastStart
      else
        findLoop pagesUsed bitsetSize count (i + 8) (c + 8) lastStart
    else
      match scanBits (pagesUsed (i / 8)) i count (List.range 8) c lastStart with
      | .found start => some start
      | .more c lastStart => findLoop pagesUsed bitsetSize count (i + 8) c lastStart
  else
    none
termination_by bitsetSize - i / 8
decreasing_by all_goals omega

/-- `findContinousFreePages(count)`; `none` where the source throws
`Too much memory used! (NOT IMPLEMENTED)`. -/
def findContinousFreePages (pagesUsed : PagesUsed) (bitsetSize count : ℕ) : Option ℕ :=
  findLoop pagesUsed bitsetSize count 1 0 0

/-! ## What has been seen so far

The search keeps the number `c` of free pages immediately below the page `pos` it
is about to look at.  It has found nothing yet, and the free stretch it is in
cannot be extended downwards. -/

/-- The state of a first fit for `n` numbers that has looked at everything below
`pos` and is inside a free stretch of length `c`. -/
structure Scanned (used : ℕ → Prop) (n pos c : ℕ) : Prop where
  le : c ≤ pos
  free : ∀ p, pos - c ≤ p → p < pos → ¬ used p
  maximal : c < pos → used (pos - c - 1)
  noGap : ∀ s, ¬ Gap used pos n s

namespace Scanned

variable {used : ℕ → Prop} {n pos c : ℕ}

theorem zero (hn : 0 < n) : Scanned used n 0 0 :=
  ⟨le_rfl, fun p _ h ↦ absurd h (by omega), fun h ↦ absurd h (by omega),
    fun s h ↦ absurd h.1 (by omega)⟩

theorem lt (h : Scanned used n pos c) : c < n := by
  by_contra hc
  refine h.noGap (pos - c) ⟨?_, fun p h₁ h₂ ↦ h.free p h₁ ?_⟩ <;> have := h.le <;> omega

theorem used_step (h : Scanned used n pos c) (hn : 0 < n) (hu : used pos) :
    Scanned used n (pos + 1) 0 := by
  refine ⟨by omega, fun p h₁ h₂ ↦ absurd h₂ (by omega), fun _ ↦ by simpa using hu,
    fun s hg ↦ ?_⟩
  rcases Nat.lt_or_ge pos (s + n) with hs | hs
  · exact hg.2 pos (by have := hg.1; omega) hs hu
  · exact h.noGap s ⟨hs, hg.2⟩

theorem used_run (h : Scanned used n pos c) (hn : 0 < n) {k : ℕ}
    (hused : ∀ p, pos ≤ p → p < pos + (k + 1) → used p) : Scanned used n (pos + (k + 1)) 0 := by
  induction k with
  | zero => exact h.used_step hn (hused pos (Nat.le_refl _) (by omega))
  | succ k ih =>
    have hrun := ih fun p h₁ h₂ ↦ hused p h₁ (by omega)
    exact hrun.used_step hn (hused _ (by omega) (by omega))

/-- A stretch of free pages extends the current one, and as soon as it is long
enough its start is the first fit. -/
theorem free_run (limit : ℕ) (h : Scanned used n pos c) {k : ℕ} (hk : pos + k ≤ limit)
    (hfree : ∀ p, pos ≤ p → p < pos + k → ¬ used p) :
    if n ≤ c + k then FirstGap used limit n (pos - c) else Scanned used n (pos + k) (c + k) := by
  have hle := h.le
  have hall : ∀ p, pos - c ≤ p → p < pos + k → ¬ used p := fun p h₁ h₂ ↦ by
    rcases Nat.lt_or_ge p pos with hp | hp
    · exact h.free p h₁ hp
    · exact hfree p hp h₂
  -- a gap that starts below the stretch would have to contain the used page under it
  have hbelow : ∀ l s, s < pos - c → ¬ Gap used l n s := fun l s hs hg ↦ by
    rcases Nat.lt_or_ge pos (s + n) with hsn | hsn
    · exact hg.2 (pos - c - 1) (by omega) (by omega) (h.maximal (by omega))
    · exact h.noGap s ⟨hsn, hg.2⟩
  split
  · next hn =>
      have := h.lt
      exact ⟨⟨by omega, fun p h₁ h₂ ↦ hall p h₁ (by omega)⟩, fun s hs ↦ hbelow limit s hs⟩
  · next hn =>
      refine ⟨by omega, fun p h₁ h₂ ↦ hall p (by omega) h₂, fun hlt ↦ ?_, fun s hg ↦ ?_⟩
      · have : pos + k - (c + k) - 1 = pos - c - 1 := by omega
        rw [this]
        exact h.maximal (by omega)
      · rcases Nat.lt_or_ge s (pos - c) with hs | hs
        · exact hbelow _ s hs hg
        · have := hg.1
          omega

end Scanned

/-! ## Correctness of the search -/

variable {pagesUsed : PagesUsed} {bitsetSize count : ℕ}

/-- The value the source keeps in `last_start` while it is inside a stretch of
`c` free pages below `pos`: one more than the first page of the stretch. -/
def LastStart (pos c lastStart : ℕ) : Prop := c ≠ 0 → lastStart = pos - c + 1

/-- The value after a free page has been seen at `pos`. -/
theorem LastStart.update {pos c lastStart : ℕ} (h : LastStart pos c lastStart) :
    (if c = 0 then pos + 1 else lastStart) = pos - c + 1 := by
  split
  next hc => rw [hc, Nat.sub_zero]
  next hc => exact h hc

/-- The bits of the byte `k` are the pages from `8 * k` on. -/
theorem get_of_byte {k p : ℕ} (h₁ : 8 * k ≤ p) (h₂ : p < 8 * k + 8) :
    pagesUsed.get p = (pagesUsed k).get (p - 8 * k) := by
  unfold PagesUsed.get
  rw [show p / 8 = k by omega, show p % 8 = p - 8 * k by omega]

/-- The bit loop over the byte that holds the pages `8 * k, …, 8 * k + 7`. -/
theorem scanBits_spec {k : ℕ} (hk : k < bitsetSize) (len j c lastStart : ℕ) (hj : j + len = 8)
    (hs : Scanned pagesUsed.Used (max count 1) (8 * k + j) c)
    (hl : LastStart (8 * k + j) c lastStart) :
    match scanBits (pagesUsed k) (8 * k + 1) count (List.range' j len) c lastStart with
    | .found start =>
      ∃ s, FirstGap pagesUsed.Used (8 * bitsetSize) (max count 1) s ∧ start = s + 1
    | .more c' lastStart' =>
      Scanned pagesUsed.Used (max count 1) (8 * k + 8) c' ∧
        LastStart (8 * k + 8) c' lastStart' := by
  induction len generalizing j c lastStart with
  | zero =>
    have : j = 8 := by omega
    subst this
    exact ⟨hs, hl⟩
  | succ len ih =>
    have hbit : (pagesUsed k).get j = pagesUsed.get (8 * k + j) := by
      rw [get_of_byte (k := k) (by omega) (by omega), Nat.add_sub_cancel_left]
    rw [List.range'_succ, scanBits, hbit]
    cases hu : pagesUsed.get (8 * k + j) with
    | true =>
      simp only [↓reduceIte]
      exact ih (j + 1) 0 lastStart (by omega) (hs.used_step (by omega) hu)
        fun h ↦ absurd rfl h
    | false =>
      simp only [Bool.false_eq_true, ↓reduceIte]
      have hlast : (if c = 0 then 8 * k + 1 + j else lastStart) = 8 * k + j - c + 1 := by
        rw [Nat.add_right_comm]
        exact hl.update
      have hrun := hs.free_run (8 * bitsetSize) (k := 1) (by omega) fun p h₁ h₂ ↦ by
        have : p = 8 * k + j := by omega
        subst this
        exact PagesUsed.not_used_iff.mpr hu
      by_cases hc : c + 1 ≥ count
      · rw [if_pos (by omega)] at hrun
        simp only [hc, ↓reduceIte]
        exact ⟨_, hrun, hlast⟩
      · rw [if_neg (by omega)] at hrun
        simp only [hc, ↓reduceIte]
        refine ih (j + 1) (c + 1) _ (by omega) hrun fun _ ↦ ?_
        rw [hlast]
        omega

/-- From byte `k` on, the loop finds the first fit if there is one. -/
theorem findLoop_spec (k c lastStart : ℕ) (hk : k ≤ bitsetSize)
    (hs : Scanned pagesUsed.Used (max count 1) (8 * k) c) (hl : LastStart (8 * k) c lastStart) :
    match findLoop pagesUsed bitsetSize count (8 * k + 1) c lastStart with
    | some start =>
      ∃ s, FirstGap pagesUsed.Used (8 * bitsetSize) (max count 1) s ∧ start = s + 1
    | none => ∀ s, ¬ Gap pagesUsed.Used (8 * bitsetSize) (max count 1) s := by
  induction hd : bitsetSize - k generalizing k c lastStart with
  | zero =>
    have : k = bitsetSize := by omega
    subst this
    rw [findLoop, if_neg (by omega)]
    exact hs.noGap
  | succ d ih =>
    have hlt : k < bitsetSize := by omega
    have hdiv : (8 * k + 1) / 8 = k := by omega
    have hnext : 8 * k + 1 + 8 = 8 * (k + 1) + 1 := by omega
    rw [findLoop, if_pos (by omega), hdiv, hnext]
    by_cases hall : (pagesUsed k).all = true
    · -- every page of the byte is used, in particular its last one
      rw [if_pos hall]
      have hused : ∀ p, 8 * k ≤ p → p < 8 * k + (7 + 1) → pagesUsed.Used p := fun p h₁ h₂ ↦ by
        unfold PagesUsed.Used
        rw [get_of_byte h₁ h₂]
        exact (ByteBitset.all_iff _).mp hall _ (by omega)
      exact ih (k + 1) 0 lastStart (by omega) (hs.used_run (by omega) hused)
        (fun h ↦ absurd rfl h) (by omega)
    · rw [if_neg hall]
      by_cases hnone : (pagesUsed k).none = true
      · rw [if_pos hnone]
        have hlast : (if c = 0 then 8 * k + 1 else lastStart) = 8 * k - c + 1 := hl.update
        have hrun := hs.free_run (8 * bitsetSize) (k := 8) (by omega) fun p h₁ h₂ ↦ by
          rw [PagesUsed.not_used_iff, get_of_byte h₁ h₂]
          exact (ByteBitset.none_iff _).mp hnone _ (by omega)
        by_cases hc : c + 8 ≥ count
        · rw [if_pos (by omega)] at hrun
          simp only [hc, ↓reduceIte]
          exact ⟨_, hrun, hlast⟩
        · rw [if_neg (by omega)] at hrun
          simp only [hc, ↓reduceIte]
          refine ih (k + 1) (c + 8) _ (by omega) hrun (fun _ ↦ ?_) (by omega)
          rw [hlast]
          omega
      · rw [if_neg hnone]
        have hscan := scanBits_spec hlt 8 0 c lastStart (by omega) hs hl
        rw [← List.range_eq_range'] at hscan
        cases hr : scanBits (pagesUsed k) (8 * k + 1) count (List.range 8) c lastStart with
        | found start =>
          rw [hr] at hscan
          exact hscan
        | more c' lastStart' =>
          rw [hr] at hscan
          exact ih (k + 1) c' lastStart' (by omega) hscan.1 hscan.2 (by omega)

/-- **The search is a first fit whose answer is one page too high.**  A request
for no pages is searched for like a request for one. -/
theorem findContinousFreePages_eq_some_iff {r : ℕ} :
    findContinousFreePages pagesUsed bitsetSize count = some r ↔
      ∃ s, FirstGap pagesUsed.Used (8 * bitsetSize) (max count 1) s ∧ r = s + 1 := by
  have h := @findLoop_spec pagesUsed bitsetSize count 0 0 0 (by omega)
    (Scanned.zero (by omega)) fun h ↦ absurd rfl h
  unfold findContinousFreePages
  simp only [Nat.mul_zero, Nat.zero_add] at h
  cases hr : findLoop pagesUsed bitsetSize count 1 0 0 with
  | some start =>
    rw [hr] at h
    obtain ⟨s, hs, rfl⟩ := h
    constructor
    · intro heq
      exact ⟨s, hs, (Option.some.inj heq).symm⟩
    · rintro ⟨s', hs', rfl⟩
      rw [hs.unique hs']
  | none =>
    rw [hr] at h
    constructor
    · intro heq
      cases heq
    · rintro ⟨s, hs, -⟩
      exact absurd hs.1 (h s)

theorem findContinousFreePages_eq_none_iff :
    findContinousFreePages pagesUsed bitsetSize count = none ↔
      ∀ s, ¬ Gap pagesUsed.Used (8 * bitsetSize) (max count 1) s := by
  constructor
  · intro hnone s hg
    obtain ⟨s', hs'⟩ := exists_firstGap hg
    have := findContinousFreePages_eq_some_iff.mpr ⟨s', hs', rfl⟩
    rw [hnone] at this
    cases this
  · intro h
    cases hr : findContinousFreePages pagesUsed bitsetSize count with
    | none => rfl
    | some r =>
      obtain ⟨s, hs, -⟩ := findContinousFreePages_eq_some_iff.mp hr
      exact absurd hs.1 (h s)

end Cali.Shm
