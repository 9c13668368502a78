import Cali.Shm.Manager

/-!
# The bytes the page search reads

`findContinousFreePages` follows the pointer `pages_used` without a check.  Here it
is written down once more with every byte it reads on record, together with what it
does before it throws: it goes through the bitset again to count the free pages for
a message.  The search itself is the one of `PageSearch`.
-/

namespace Cali.Shm

open Cali.Lib

/-- A program that reads the bitset; its state is the list of the bytes read so far. -/
abbrev ReadM := EStateM Failure (List ℕ)

/-- `pages_used[k]` -/
def readByte (pagesUsed : PagesUsed) (k : ℕ) : ReadM ByteBitset := fun reads ↦
  .ok (pagesUsed k) (k :: reads)

/-- The loop `for (int j = 0; j < 8; j++)`, which reads `pages_used[i / 8]` for each bit. -/
def readBits (pagesUsed : PagesUsed) (i count : ℕ) : List ℕ → ℕ → ℕ → ReadM ScanResult
  | [], c, lastStart => return .more c lastStart
  | j :: js, c, lastStart => do
      let b ← readByte pagesUsed (i / 8)
      if b.get j then
        readBits pagesUsed i count js 0 lastStart
      else
        let lastStart := if c = 0 then i + j else lastStart
        if c + 1 ≥ count then return .found lastStart
        else readBits pagesUsed i count js (c + 1) lastStart

/-- The loop `while (i / 8 < bitset_size)`. -/
def readLoop (pagesUsed : PagesUsed) (bitsetSize count : ℕ) (i c lastStart : ℕ) :
    ReadM (Option ℕ) :=
  if i / 8 < bitsetSize then do
    let b ← readByte pagesUsed (i / 8)
    if b.all then
      readLoop pagesUsed bitsetSize count (i + 8) 0 lastStart
    else
      let b ← readByte pagesUsed (i / 8)
      if b.none then
        let lastStart := if c = 0 then i else lastStart
        if c + 8 ≥ count then return some lastStart
        else readLoop pagesUsed bitsetSize count (i + 8) (c + 8) lastStart
      else
        match ← readBits pagesUsed i count (List.range 8) c lastStart with
        | .found start => return some start
        | .more c lastStart => readLoop pagesUsed bitsetSize count (i + 8) c lastStart
  else
    return none
termination_by bitsetSize - i / 8
decreasing_by all_goals omega

/-- The loop that adds up `freepages` over the bytes of a list.  Its message about a
negative sum reads the byte two more times. -/
def countFreePages (pagesUsed : PagesUsed) : List ℕ → ℤ → ReadM ℤ
  | [], freepages => return freepages
  | j :: js, freepages => do
      let b ← readByte pagesUsed j
      let freepages := freepages + (8 - b.count)
      if freepages < 0 then
        let _ ← readByte pagesUsed j
        let _ ← readByte pagesUsed j
        countFreePages pagesUsed js freepages
      else
        countFreePages pagesUsed js freepages

/-- `findContinousFreePages` with its reads and its exception. -/
def readContinousFreePages (pagesUsed : PagesUsed) (bitsetSize count : ℕ) : ReadM ℕ := do
  match ← readLoop pagesUsed bitsetSize count 1 0 0 with
  | some start => return start
  | none =>
    let _ ← countFreePages pagesUsed (List.range bitsetSize) 0
    throw (.runtimeError "Too much memory used! (NOT IMPLEMENTED)")

/-! ## All reads are inside -/

/-- Every byte read so far is one of the bitset. -/
def ReadsInside (bitsetSize : ℕ) (reads : List ℕ) : Prop := ∀ k ∈ reads, k < bitsetSize

/-- The program returns `a`, and it reads inside of the bitset only. -/
def Reads {α : Type} (bitsetSize : ℕ) (x : ReadM α) (a : α) : Prop :=
  ∀ reads, ReadsInside bitsetSize reads →
    Spec x reads (fun a' reads' ↦ a' = a ∧ ReadsInside bitsetSize reads') fun _ _ ↦ False

variable {α β : Type} {pagesUsed : PagesUsed} {bitsetSize count : ℕ}

theorem Reads.pure (a : α) : Reads bitsetSize (Pure.pure a) a := fun _ h ↦ ⟨rfl, h⟩

theorem Reads.bind {x : ReadM α} {f : α → ReadM β} {a : α} {b : β} (hx : Reads bitsetSize x a)
    (hf : Reads bitsetSize (f a) b) : Reads bitsetSize (x >>= f) b := by
  intro reads hreads
  refine Spec.bind (hx reads hreads) ?_
  rintro _ reads' ⟨rfl, hreads'⟩
  exact hf reads' hreads'

theorem reads_readByte {k : ℕ} (hk : k < bitsetSize) :
    Reads bitsetSize (readByte pagesUsed k) (pagesUsed k) :=
  fun _ hreads ↦ ⟨rfl, List.forall_mem_cons.mpr ⟨hk, hreads⟩⟩

theorem reads_readBits {i : ℕ} (hi : i / 8 < bitsetSize) (js : List ℕ) (c lastStart : ℕ) :
    Reads bitsetSize (readBits pagesUsed i count js c lastStart)
      (scanBits (pagesUsed (i / 8)) i count js c lastStart) := by
  induction js generalizing c lastStart with
  | nil => exact .pure _
  | cons j js ih =>
    refine (reads_readByte hi).bind ?_
    rw [scanBits]
    split
    · exact ih _ _
    · dsimp only
      split
      · exact .pure _
      · exact ih _ _

theorem reads_readLoop (i c lastStart : ℕ) :
    Reads bitsetSize (readLoop pagesUsed bitsetSize count i c lastStart)
      (findLoop pagesUsed bitsetSize count i c lastStart) := by
  induction hd : bitsetSize - i / 8 using Nat.strong_induction_on generalizing i c lastStart with
  | _ d ih =>
    rw [readLoop, findLoop]
    split
    · next hi =>
        have hnext : bitsetSize - (i + 8) / 8 < d := by omega
        refine (reads_readByte hi).bind ?_
        split
        · exact ih _ hnext _ _ _ rfl
        · refine (reads_readByte hi).bind ?_
          split
          · dsimp only
            split
            · exact .pure _
            · exact ih _ hnext _ _ _ rfl
          · refine (reads_readBits hi (List.range 8) c lastStart).bind ?_
            cases scanBits (pagesUsed (i / 8)) i count (List.range 8) c lastStart with
            | found start => exact .pure _
            | more c' lastStart' => exact ih _ hnext _ _ _ rfl
    · exact .pure _

theorem reads_countFreePages {js : List ℕ} (hjs : ∀ j ∈ js, j < bitsetSize) (freepages : ℤ) :
    ∃ total, Reads bitsetSize (countFreePages pagesUsed js freepages) total := by
  induction js generalizing freepages with
  | nil => exact ⟨freepages, .pure _⟩
  | cons j js ih =>
    obtain ⟨hj, hjs⟩ := List.forall_mem_cons.mp hjs
    obtain ⟨total, htotal⟩ := ih hjs (freepages + (8 - (pagesUsed j).count))
    refine ⟨total, (reads_readByte hj).bind ?_⟩
    dsimp only
    split
    · exact (reads_readByte hj).bind ((reads_readByte hj).bind htotal)
    · exact htotal

/-- The search returns what `findContinousFreePages` returns, it throws where that is
`none`, and it reads inside of the bitset only. -/
theorem readContinousFreePages_spec (pagesUsed : PagesUsed) (bitsetSize count : ℕ) :
    Spec (readContinousFreePages pagesUsed bitsetSize count) []
      (fun start reads ↦ findContinousFreePages pagesUsed bitsetSize count = some start ∧
        ReadsInside bitsetSize reads)
      fun e reads ↦ e = .runtimeError "Too much memory used! (NOT IMPLEMENTED)" ∧
        findContinousFreePages pagesUsed bitsetSize count = none ∧
        ReadsInside bitsetSize reads := by
  unfold readContinousFreePages
  have hloop := @reads_readLoop pagesUsed bitsetSize count 1 0 0 [] fun _ h ↦
    absurd h List.not_mem_nil
  refine Spec.bind (hloop.mono (fun _ _ h ↦ h) fun _ _ h ↦ h.elim) ?_
  rintro r reads ⟨hr, hreads⟩
  cases r with
  | some start => exact ⟨hr.symm, hreads⟩
  | none =>
    obtain ⟨total, htotal⟩ := @reads_countFreePages pagesUsed bitsetSize (List.range bitsetSize)
      (fun _ ↦ List.mem_range.mp) 0
    refine Spec.bind ((htotal reads hreads).mono (fun _ _ h ↦ h) fun _ _ h ↦ h.elim) ?_
    rintro _ reads' ⟨-, hreads'⟩
    exact ⟨rfl, hr.symm, hreads'⟩

/-- The bytes a search has read when it is over. -/
def bytesRead (pagesUsed : PagesUsed) (bitsetSize count : ℕ) : List ℕ :=
  match readContinousFreePages pagesUsed bitsetSize count [] with
  | .ok _ reads => reads
  | .error _ reads => reads

/-- The search throws the exception about too much memory. -/
def RaisesTooMuchMemory (pagesUsed : PagesUsed) (bitsetSize count : ℕ) : Prop :=
  readContinousFreePages pagesUsed bitsetSize count [] =
    .error (.runtimeError "Too much memory used! (NOT IMPLEMENTED)")
      (bytesRead pagesUsed bitsetSize count)

/-- **The search gives up only when it must.**  It throws exactly when no `count`
consecutive bits of the bitset are clear, and it reads no byte outside of the bitset. -/
theorem raisesTooMuchMemory_iff (pagesUsed : PagesUsed) (bitsetSize : ℕ) {count : ℕ}
    (hcount : 1 ≤ count) :
    (RaisesTooMuchMemory pagesUsed bitsetSize count ↔
        ∀ start, ¬ Gap pagesUsed.Used (8 * bitsetSize) count start) ∧
      ∀ k ∈ bytesRead pagesUsed bitsetSize count, k < bitsetSize := by
  have hspec := readContinousFreePages_spec pagesUsed bitsetSize count
  have hnone := @findContinousFreePages_eq_none_iff pagesUsed bitsetSize count
  rw [Nat.max_eq_left hcount] at hnone
  unfold RaisesTooMuchMemory bytesRead
  cases hrun : readContinousFreePages pagesUsed bitsetSize count [] with
  | ok start reads =>
    obtain ⟨hsome, hreads⟩ := hspec.ok hrun
    constructor
    · constructor
      · intro h
        cases h
      · intro h
        rw [hnone.mpr h] at hsome
        cases hsome
    · exact hreads
  | error e reads =>
    obtain ⟨rfl, hfind, hreads⟩ := hspec.error hrun
    exact ⟨⟨fun _ ↦ hnone.mp hfind, fun _ ↦ rfl⟩, hreads⟩

/-- A bitset of two bytes whose first and last page are used has no room for fifteen
pages. -/
theorem raisesTooMuchMemory_fifteen :
    1 ≤ 15 ∧ RaisesTooMuchMemory (fun k ↦ if k = 0 then ⟨1⟩ else ⟨128⟩) 2 15 ∧
      ∀ k ∈ bytesRead (fun k ↦ if k = 0 then ⟨1⟩ else ⟨128⟩) 2 15, k < 2 := by
  obtain ⟨hiff, hreads⟩ := raisesTooMuchMemory_iff (fun k ↦ if k = 0 then ⟨1⟩ else ⟨128⟩) 2
    (by decide : 1 ≤ 15)
  refine ⟨by decide, hiff.mpr fun start hgap ↦ ?_, hreads⟩
  have hle := hgap.1
  rcases Nat.eq_zero_or_pos start with rfl | hpos
  · exact hgap.not_used (p := 0) (by omega) (by omega) (by decide)
  · exact hgap.not_used (p := 15) (by omega) (by omega) (by decide)

end Cali.Shm
