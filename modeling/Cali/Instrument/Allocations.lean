import Cali.Instrument.IntervalMap
import Cali.Instrument.Marker
import Cali.Lib.Run

/-!
# The bookkeeping of allocations

The instrumented program reports each allocation and each `free`.  `insAlloc` records the range of
an allocation as an interval and clears its usage marks; `insFree` looks for the interval around
the address, counts its usage and removes it.  As long as the live allocations have no byte in
common, the intervals of the map are the live allocations, in every state that is reached.

A `MemoryInfo *` is known by the id of the object, which stays in `nodes` under that id.  A result
of `none` stands for a null pointer or an empty `optional` that is dereferenced, and for an access
outside a bitmap.
-/

namespace Cali.Instrument

open Cali.Lib

/-- The counters of `MemoryInfo` -/
structure MemoryInfo where
  allocations : BitVec 64 := 0
  deallocations : BitVec 64 := 0
  usedAllocations : BitVec 64 := 0
  size : BitVec 64 := 0
deriving DecidableEq

/-- The global variables; `nodes` is null before `insInit`. -/
structure Instrumentation where
  nodes : Option (ℕ → Option MemoryInfo)
  intervals : IntervalMap ℕ ℕ
  heapMarker : MemoryRangeMarker
  globalMarker : MemoryRangeMarker
  startShmData : ℕ
  lastShmDataVariable : ℕ

/-- `shm_is_shared_memory_pointer` -/
def isSharedMemoryPointer (p : ℕ) : Bool :=
  BitVec.ofNat 64 p &&& 0xffffff0000000000#64 == 0x3f0000000000#64

namespace Instrumentation

/-- `insInit`, with the addresses of the two symbols; a page has 4096 bytes. -/
def insInit (startShmData lastShmDataVariable : ℕ) : Instrumentation where
  nodes := some fun _ ↦ none
  intervals := .empty
  heapMarker := .ofSize 0x3f0000000000 4096
  globalMarker := .ofSize (startShmData / 4096 * 4096) 128
  startShmData := startShmData
  lastShmDataVariable := lastShmDataVariable

/-- `shm_is_global_variable` -/
def isGlobalVariable (s : Instrumentation) (addr : ℕ) : Bool :=
  s.startShmData ≤ addr && addr < s.lastShmDataVariable

/-- Assign to the object that an id stands for. -/
def modifyNode (s : Instrumentation) (id : ℕ) (f : MemoryInfo → MemoryInfo) :
    Option Instrumentation :=
  s.nodes.bind fun nodes ↦ (nodes id).map fun info ↦
    { s with nodes := some (Function.update nodes id (some (f info))) }

/-- `insAddMemoryNode` -/
def insAddMemoryNode (s : Instrumentation) (id : ℕ) : Option Instrumentation :=
  s.nodes.map fun nodes ↦
    { s with nodes := some (if (nodes id).isSome then nodes
        else Function.update nodes id (some {})) }

/-- The end of `insAlloc`: earlier usages of the range are forgotten. -/
def unsetMarks (s : Instrumentation) (start size : ℕ) : Option Instrumentation :=
  if isSharedMemoryPointer start then
    (s.heapMarker.unset start size).map fun marker ↦ { s with heapMarker := marker }
  else if s.isGlobalVariable start then
    (s.globalMarker.unset start size).map fun marker ↦ { s with globalMarker := marker }
  else some s

/-- The part of `insAlloc` that registers the region -/
def register (s : Instrumentation) (id start size : ℕ) : Instrumentation :=
  if (s.intervals.get start).isSome then s
  else { s with intervals := s.intervals.insert start ((start + size) % 2 ^ 64) id }

/-- `insAlloc` -/
def insAlloc (s : Instrumentation) (id start size : ℕ) : Option Instrumentation :=
  if s.nodes.isNone then some s
  else do
    let s ← s.modifyNode id fun info ↦ { info with
      allocations := info.allocations + 1
      size := info.size + BitVec.ofNat 64 size }
    (s.register id start size).unsetMarks start size

/-- The condition of `checkAndReportUsage`: a mark of the range is set. -/
def used (s : Instrumentation) (start size : ℕ) : Option Bool := do
  if ← if isSharedMemoryPointer start then s.heapMarker.check start size else some false then
    return true
  if s.isGlobalVariable start then s.globalMarker.check start size else return false

/-- `checkAndReportUsage` -/
def checkAndReportUsage (s : Instrumentation) (addr : ℕ) : Option Instrumentation :=
  match s.intervals.intervalStart addr with
  | ⊤ => some s
  | (start : ℕ) =>
    match s.intervals.map.value start, s.intervals.map.upperBound start with
    | none, _ => some s
    | some _, ⊤ => none
    | some info, (stop : ℕ) => do
        if ← s.used start (stop - start) then
          s.modifyNode info fun i ↦ { i with usedAllocations := i.usedAllocations + 1 }
        else return s

/-- `insFree` -/
def insFree (s : Instrumentation) (addr : ℕ) : Option Instrumentation :=
  if s.nodes.isNone then some s
  else match s.intervals.intervalStart addr with
    | ⊤ => some s
    | (start : ℕ) => do
        let s ← s.checkAndReportUsage start
        let info ← s.intervals.map.value start
        let s ← s.modifyNode info fun i ↦ { i with deallocations := i.deallocations + 1 }
        return { s with intervals := s.intervals.remove start }

variable {s s' : Instrumentation} {id start size addr : ℕ} {f : MemoryInfo → MemoryInfo}

/-! ## What is written besides the intervals -/

/-- The two states have the same intervals, and `nodes` is not null. -/
structure SameIntervals (s s' : Instrumentation) : Prop where
  intervals : s'.intervals = s.intervals
  nodes : s'.nodes.isSome = s.nodes.isSome

theorem SameIntervals.refl (s : Instrumentation) : SameIntervals s s := ⟨rfl, rfl⟩

theorem sameIntervals_modifyNode (h : s.modifyNode id f = some s') : SameIntervals s s' := by
  obtain ⟨nodes, hnodes, h⟩ := Option.bind_eq_some_iff.mp h
  obtain ⟨info, -, rfl⟩ := Option.map_eq_some_iff.mp h
  exact ⟨rfl, by rw [hnodes]; rfl⟩

theorem sameIntervals_insAddMemoryNode (h : s.insAddMemoryNode id = some s') :
    SameIntervals s s' := by
  obtain ⟨nodes, hnodes, rfl⟩ := Option.map_eq_some_iff.mp h
  exact ⟨rfl, by rw [hnodes]; rfl⟩

theorem sameIntervals_unsetMarks (h : s.unsetMarks start size = some s') : SameIntervals s s' := by
  unfold unsetMarks at h
  split at h
  · obtain ⟨marker, -, rfl⟩ := Option.map_eq_some_iff.mp h
    exact ⟨rfl, rfl⟩
  · split at h
    · obtain ⟨marker, -, rfl⟩ := Option.map_eq_some_iff.mp h
      exact ⟨rfl, rfl⟩
    · cases h
      exact .refl s

theorem sameIntervals_checkAndReportUsage (h : s.checkAndReportUsage addr = some s') :
    SameIntervals s s' := by
  unfold checkAndReportUsage at h
  split at h
  · cases h
    exact .refl s
  · split at h
    · cases h
      exact .refl s
    · cases h
    · obtain ⟨used, -, h⟩ := Option.bind_eq_some_iff.mp h
      split at h
      · exact sameIntervals_modifyNode h
      · cases h
        exact .refl s

theorem intervals_insAlloc (hnodes : s.nodes.isSome = true)
    (h : s.insAlloc id start size = some s') :
    s'.nodes.isSome = true ∧ s'.intervals =
      if (s.intervals.get start).isSome then s.intervals
      else s.intervals.insert start ((start + size) % 2 ^ 64) id := by
  unfold insAlloc at h
  rw [if_neg (by rw [Option.isNone_eq_false_iff.mpr hnodes]; exact Bool.false_ne_true)] at h
  obtain ⟨s₁, h₁, h₂⟩ := Option.bind_eq_some_iff.mp h
  have hsame₁ := sameIntervals_modifyNode h₁
  have hsame₂ := sameIntervals_unsetMarks h₂
  rw [hsame₂.nodes, hsame₂.intervals]
  unfold register
  rw [hsame₁.intervals]
  split
  · exact ⟨hsame₁.nodes.trans hnodes, hsame₁.intervals⟩
  · exact ⟨hsame₁.nodes.trans hnodes, rfl⟩

theorem intervals_insFree (hnodes : s.nodes.isSome = true) (h : s.insFree addr = some s') :
    s'.nodes.isSome = true ∧ s'.intervals =
      match s.intervals.intervalStart addr with
      | ⊤ => s.intervals
      | (start : ℕ) => s.intervals.remove start := by
  unfold insFree at h
  rw [if_neg (by rw [Option.isNone_eq_false_iff.mpr hnodes]; exact Bool.false_ne_true)] at h
  split at h
  next hstart =>
    cases h
    exact ⟨hnodes, rfl⟩
  next start hstart =>
    obtain ⟨s₁, h₁, h⟩ := Option.bind_eq_some_iff.mp h
    obtain ⟨info, -, h⟩ := Option.bind_eq_some_iff.mp h
    obtain ⟨s₂, h₂, h⟩ := Option.bind_eq_some_iff.mp h
    cases h
    have hsame₁ := sameIntervals_checkAndReportUsage h₁
    have hsame₂ := sameIntervals_modifyNode h₂
    refine ⟨hsame₂.nodes.trans (hsame₁.nodes.trans hnodes), ?_⟩
    show s₂.intervals.remove start = _
    rw [hsame₂.intervals, hsame₁.intervals]

/-! ## Runs -/

/-- The calls of the instrumented program. -/
inductive Call
  | addMemoryNode (id : ℕ)
  | alloc (id start size : ℕ)
  | free (addr : ℕ)

def exec (s : Instrumentation) : Call → Option Instrumentation
  | .addMemoryNode id => s.insAddMemoryNode id
  | .alloc id start size => s.insAlloc id start size
  | .free addr => s.insFree addr

instance (a : Interval ℕ ℕ) (addr : ℕ) : Decidable (a.Contains addr) :=
  inferInstanceAs (Decidable (_ ∧ _))

instance (a b : Interval ℕ ℕ) : Decidable (a.Apart b) := inferInstanceAs (Decidable (_ ∨ _))

/-- The live allocations after a call: `free` ends the one around the address. -/
def Call.live (live : List (Interval ℕ ℕ)) : Call → List (Interval ℕ ℕ)
  | .addMemoryNode _ => live
  | .alloc id start size => ⟨start, start + size, id⟩ :: live
  | .free addr => live.filter fun a ↦ ¬ a.Contains addr

/-- A new allocation is not empty, ends inside the address space and has no byte in common with a
live one. -/
def Call.Ok (live : List (Interval ℕ ℕ)) : Call → Prop
  | .alloc id start size => 0 < size ∧ start + size < 2 ^ 64 ∧
      ∀ a ∈ live, a.Apart ⟨start, start + size, id⟩
  | _ => True

/-- A call, together with the live allocations. -/
def Step (x : Instrumentation × List (Interval ℕ ℕ)) (c : Call)
    (x' : Instrumentation × List (Interval ℕ ℕ)) : Prop :=
  c.Ok x.2 ∧ x.1.exec c = some x'.1 ∧ x'.2 = c.live x.2

/-- The intervals of the map are the live allocations. -/
structure Tracked (s : Instrumentation) (live : List (Interval ℕ ℕ)) : Prop where
  nodes : s.nodes.isSome = true
  closed : s.intervals.Closed
  mem_iff : ∀ a, a ∈ s.intervals.pieces ↔ a ∈ live

variable {live : List (Interval ℕ ℕ)}

theorem SameIntervals.tracked (h : SameIntervals s s') (hs : Tracked s live) : Tracked s' live := by
  obtain ⟨hintervals, hnodes⟩ := h
  exact ⟨hnodes.trans hs.nodes, hintervals ▸ hs.closed, hintervals ▸ hs.mem_iff⟩

theorem Tracked.insAlloc (hs : Tracked s live) (hok : (Call.alloc id start size).Ok live)
    (h : s.insAlloc id start size = some s') :
    Tracked s' (⟨start, start + size, id⟩ :: live) := by
  obtain ⟨hpos, hwrap, hapart⟩ := hok
  obtain ⟨hnodes, hintervals⟩ := intervals_insAlloc hs.nodes h
  have hlt : start < start + size := Nat.lt_add_of_pos_right hpos
  have hapart' : ∀ a ∈ s.intervals.pieces, a.Apart ⟨start, start + size, id⟩ :=
    fun a ha ↦ hapart a ((hs.mem_iff a).mp ha)
  -- an interval around the start would have the first byte in common
  have hget : s.intervals.get start = none := by
    by_contra hget
    obtain ⟨value, hvalue⟩ := Option.ne_none_iff_exists'.mp hget
    obtain ⟨a, ha, hle, hgt⟩ := hs.closed.exists_of_get hvalue
    rcases hapart' a ha with h' | h'
    · exact Nat.not_lt.mpr h' hgt
    · exact Nat.not_lt.mpr (Nat.le_trans h' hle) hlt
  rw [hget, Nat.mod_eq_of_lt hwrap] at hintervals
  refine ⟨hnodes, ?_, fun a ↦ ?_⟩
  · rw [hintervals]
    exact IntervalMap.closed_insert hs.closed hlt hapart'
  · rw [hintervals]
    show a ∈ (s.intervals.insert start (start + size) id).pieces ↔ _
    rw [IntervalMap.pieces_insert hs.closed hlt hapart', Set.mem_insert_iff, hs.mem_iff,
      List.mem_cons]

theorem Tracked.insFree (hs : Tracked s live) (h : s.insFree addr = some s') :
    Tracked s' (live.filter fun a ↦ ¬ a.Contains addr) := by
  obtain ⟨hnodes, hintervals⟩ := intervals_insFree hs.nodes h
  by_cases hnone : ∀ a ∈ s.intervals.pieces, ¬ a.Contains addr
  · rw [hs.closed.intervalStart_eq_top hnone] at hintervals
    refine ⟨hnodes, hintervals ▸ hs.closed, fun a ↦ ?_⟩
    rw [hintervals, List.mem_filter, decide_eq_true_eq, ← hs.mem_iff]
    exact (and_iff_left_of_imp (hnone a)).symm
  · push Not at hnone
    obtain ⟨b, hb, hcontains⟩ := hnone
    rw [IntervalMap.intervalStart_of_contains hb hcontains] at hintervals
    refine ⟨hnodes, hintervals ▸ hs.closed.remove hb.1, fun a ↦ ?_⟩
    rw [hintervals, List.mem_filter, decide_eq_true_eq, ← hs.mem_iff]
    show a ∈ (s.intervals.remove b.lower).pieces ↔ _
    rw [hs.closed.pieces_remove hb.1]
    refine and_congr_right fun ha ↦ not_congr ?_
    constructor
    · intro hlower
      rw [IntervalMap.eq_of_lower_eq ha hb hlower]
      exact hcontains
    · intro ha'
      rw [IntervalMap.eq_of_contains ha hb ha' hcontains]

/-- **The step lemma.** -/
theorem Tracked.step {c : Call} {live' : List (Interval ℕ ℕ)} (hs : Tracked s live)
    (hstep : Step (s, live) c (s', live')) : Tracked s' live' := by
  obtain ⟨hok, hexec, rfl⟩ := hstep
  cases c with
  | addMemoryNode id => exact (sameIntervals_insAddMemoryNode hexec).tracked hs
  | alloc id start size => exact hs.insAlloc hok hexec
  | free addr => exact hs.insFree hexec

/-- What `interval_start` says about the live allocations: for an address of one of them the entry
of that allocation, followed by its end, and `end()` for any other address. -/
structure Locates (intervals : IntervalMap ℕ ℕ) (live : List (Interval ℕ ℕ)) : Prop where
  unique : ∀ addr, ∀ a ∈ live, ∀ b ∈ live, a.Contains addr → b.Contains addr → a = b
  inside : ∀ addr, ∀ a ∈ live, a.Contains addr →
    intervals.intervalStart addr = WithTop.some a.lower ∧
      intervals.map.value a.lower = some a.value ∧
      intervals.map.upperBound a.lower = WithTop.some a.upper
  outside : ∀ addr, (∀ a ∈ live, ¬ a.Contains addr) → intervals.intervalStart addr = ⊤

theorem Tracked.locates (hs : Tracked s live) : Locates s.intervals live where
  unique addr a ha b hb hacontains hbcontains :=
    IntervalMap.eq_of_contains ((hs.mem_iff a).mpr ha) ((hs.mem_iff b).mpr hb) hacontains hbcontains
  inside addr a ha hcontains := by
    have hpiece := (hs.mem_iff a).mpr ha
    exact ⟨IntervalMap.intervalStart_of_contains hpiece hcontains, hpiece.2.1, hpiece.2.2⟩
  outside addr hnone :=
    hs.closed.intervalStart_eq_top fun a ha ↦ hnone a ((hs.mem_iff a).mp ha)

theorem tracked_empty (hnodes : s.nodes.isSome = true) (hempty : s.intervals = .empty) :
    Tracked s [] := by
  refine ⟨hnodes, ?_, fun a ↦ ?_⟩
  · rw [hempty]
    exact fun k hk ↦ absurd hk (Finset.notMem_empty k)
  · rw [hempty]
    exact iff_of_false (fun h ↦ Finset.notMem_empty _ h.1) List.not_mem_nil

/-- **The interval map tracks the live allocations** in every state of a run that starts without
any. -/
theorem locates_of_run {t : List (Call × Instrumentation × List (Interval ℕ ℕ))}
    (hnodes : s.nodes.isSome = true) (hempty : s.intervals = .empty)
    (hrun : IsRun Step (s, []) t) : ∀ x ∈ runStates (s, []) t, Locates x.1.intervals x.2 := by
  intro x hx
  have htracked : Tracked x.1 x.2 :=
    hrun.always (fun _ _ _ hs hstep ↦ Tracked.step hs hstep) (tracked_empty hnodes hempty) x hx
  exact htracked.locates

instance (live : List (Interval ℕ ℕ)) (c : Call) : Decidable (c.Ok live) :=
  match c with
  | .addMemoryNode _ => isTrue trivial
  | .alloc .. => inferInstanceAs (Decidable (_ ∧ _ ∧ _))
  | .free _ => isTrue trivial

/-- The state after a call that has a result. -/
def next (x : Instrumentation × List (Interval ℕ ℕ)) (c : Call) :
    Instrumentation × List (Interval ℕ ℕ) := ((x.1.exec c).getD x.1, c.live x.2)

theorem step_next {x : Instrumentation × List (Interval ℕ ℕ)} {c : Call}
    (h : c.Ok x.2 ∧ (x.1.exec c).isSome = true) : Step x c (next x c) := by
  obtain ⟨hok, hsome⟩ := h
  obtain ⟨s', hs'⟩ := Option.isSome_iff_exists.mp hsome
  refine ⟨hok, ?_, rfl⟩
  show x.1.exec c = some ((x.1.exec c).getD x.1)
  rw [hs', Option.getD_some]

/-- Two allocations side by side; the first one is freed and half of its range is used again, and
then the second one is freed through an address in the middle of it. -/
theorem locates_side_by_side :
    let t := trace next (insInit 0x601000 0x602000, [])
      [.addMemoryNode 1, .addMemoryNode 2, .alloc 1 0x1000 16, .alloc 2 0x1010 16, .free 0x1000,
        .alloc 1 0x1008 8, .free 0x1018]
    IsRun Step (insInit 0x601000 0x602000, []) t ∧
      (∃ x ∈ runStates (insInit 0x601000 0x602000, []) t, x.2.length = 1 ∧
        x.1.intervals.intervalStart 0x100a = WithTop.some 0x1008 ∧
        x.1.intervals.intervalStart 0x1010 = ⊤) ∧
      ∀ x ∈ runStates (insInit 0x601000 0x602000, []) t, Locates x.1.intervals x.2 := by
  intro t
  have hok : RunOk (fun x c ↦ c.Ok x.2 ∧ (x.1.exec c).isSome = true)
      (insInit 0x601000 0x602000, []) t := by decide
  have hrun : IsRun Step (insInit 0x601000 0x602000, []) t :=
    isRun_trace (hok.mono fun _ _ ↦ step_next)
  exact ⟨hrun, by decide, locates_of_run rfl rfl hrun⟩

end Instrumentation

end Cali.Instrument
