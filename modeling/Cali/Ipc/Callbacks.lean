import Mathlib.Logic.Function.Basic
import Cali.Ipc.Token
import Cali.Lib.Arena
import Cali.Lib.Run
import Cali.Lib.X86

/-!
# Callbacks

A function pointer that leaves a process is replaced by a number.  `wrap_outgoing_callback`
enters the pointer into a table of the process, together with the wrapper that unpacks the
arguments, and the index is what is sent.  In the other process `wrap_incoming_callback` makes
a trampoline for the number: code that loads the number into `r11` and jumps to a replacement,
which asks the first process to `execute` what `r11` holds.

A process is its callback manager, its memory, and the pages that `mmap` has returned for
trampolines.  The address that `mmap` chooses is part of a call; all that is known about it is
that the page fits into the address space and is apart from those mapped before.
-/

namespace Cali.Ipc.Callbacks

open Cali.Lib

abbrev Pointer := BitVec 64

/-- `CALLBACK_MAX_RESERVED`. -/
def callbackMaxReserved : Pointer := 5

/-- `getpagesize()` on x86-64. -/
def pageSize : ℕ := 4096

/-- `sizeof(trampoline)`. -/
def trampolineSize : ℕ := 24

/-- `callback_functions.max_size()`: the entries have 16 bytes. -/
def maxSize : ℕ := (2 ^ 63 - 1) / 16

structure CallbackEntry where
  callback : Pointer
  wrapper : Pointer
deriving DecidableEq, Repr

/-- The constructor of `CallbackEntry` for reserved numbers. -/
def CallbackEntry.ofNumber (number : Pointer) : CallbackEntry := ⟨number, number⟩

structure CallbackManager where
  callbackNumbers : List (Pointer × Pointer)
  callbackFunctions : List CallbackEntry
  trampolines : Pointer
  remainingTrampolinBytes : BitVec 32
deriving DecidableEq, Repr

/-- The constructor of `CallbackManager`. -/
def CallbackManager.init : CallbackManager :=
  ⟨[], ⟨0, 0⟩ :: (List.range' 1 callbackMaxReserved.toNat).map fun i ↦ .ofNumber (.ofNat 64 i),
    0, 0⟩

def callbackNeedsWrapping (callback : Pointer) : Bool :=
  callback != 0 && callback != -1 && decide (callbackMaxReserved < callback)

namespace CallbackManager

/-- `wrap_outgoing_callback`.  The result is `none` if the table cannot grow: `emplace_back`
throws. -/
def wrapOutgoingCallback (m : CallbackManager) (callback wrapper : Pointer) :
    Option (Pointer × CallbackManager) :=
  if !callbackNeedsWrapping callback then some (callback, m)
  else
    match m.callbackNumbers.lookup callback with
    | some number => some (number, m)
    | none =>
      if m.callbackFunctions.length < maxSize then
        let callbackFunctions := m.callbackFunctions ++ [⟨callback, wrapper⟩]
        some (.ofNat 64 (callbackFunctions.length - 1), { m with callbackFunctions })
      else none

/-- The entry whose wrapper `execute` calls on the callback of the entry; `at` throws for a
number that is not in the table. -/
def execute (m : CallbackManager) (callback : Pointer) : Option CallbackEntry :=
  m.callbackFunctions[callback.toNat]?

end CallbackManager

/-- The bytes of the packed structure `trampoline`. -/
def trampoline (callback replacement : Pointer) : List (BitVec 8) :=
  [0x49, 0xbb] ++ leBytes 8 callback.toNat ++
    [0xff, 0x25, 0x00, 0x00, 0x00, 0x00] ++ leBytes 8 replacement.toNat

/-- A call of `wrap_outgoing_callback` and what it returned. -/
structure Outgoing where
  callback : Pointer
  wrapper : Pointer
  result : Pointer
deriving DecidableEq, Repr

/-- A call of `wrap_incoming_callback` and what it returned. -/
structure Incoming where
  callback : Pointer
  replacement : Pointer
  result : Pointer
deriving DecidableEq, Repr

/-- A process, with the calls it has made so far, the last one first. -/
structure Process where
  manager : CallbackManager
  memory : ℕ → BitVec 8
  pages : List Pointer
  outgoing : List Outgoing
  incoming : List Incoming

namespace Process

def init (memory : ℕ → BitVec 8) : Process := ⟨.init, memory, [], [], []⟩

/-- The test for a new page.  The comparison with `sizeof(trampoline)` converts the counter
from `int` to `size_t`. -/
def needsPage (p : Process) : Bool :=
  p.manager.trampolines == 0 ||
    decide ((p.manager.remainingTrampolinBytes.signExtend 64).toNat < trampolineSize)

/-- `mmap` has returned the page, which is filled with zeros. -/
def mapPage (p : Process) (page : Pointer) : Process :=
  { p with
    manager := { p.manager with
      trampolines := page
      remainingTrampolinBytes := .ofNat 32 pageSize }
    memory := write p.memory page.toNat (List.replicate pageSize 0)
    pages := page :: p.pages }

/-- Writes a trampoline and moves on to the next one. -/
def writeTrampoline (p : Process) (callback replacement : Pointer) : Process :=
  { p with
    manager := { p.manager with
      trampolines := p.manager.trampolines + .ofNat 64 trampolineSize
      remainingTrampolinBytes :=
        (p.manager.remainingTrampolinBytes.signExtend 64 - .ofNat 64 trampolineSize).setWidth 32 }
    memory := write p.memory p.manager.trampolines.toNat (trampoline callback replacement)
    incoming := ⟨callback, replacement, p.manager.trampolines⟩ :: p.incoming }

/-- `wrap_incoming_callback`, where `mmap` returns `page` if it is called. -/
def wrapIncomingCallback (p : Process) (callback replacement page : Pointer) : Process :=
  if !callbackNeedsWrapping callback then
    { p with incoming := ⟨callback, replacement, callback⟩ :: p.incoming }
  else (if p.needsPage then p.mapPage page else p).writeTrampoline callback replacement

/-- A page that `mmap` can return. -/
def Mappable (p : Process) (page : Pointer) : Prop :=
  page.toNat + pageSize ≤ 2 ^ 64 ∧
    ∀ q ∈ p.pages, Apart page.toNat pageSize q.toNat pageSize

end Process

/-! ## Two processes -/

abbrev System := Side → Process

inductive Action
  | wrapOutgoing (side : Side) (callback wrapper : Pointer)
  | wrapIncoming (side : Side) (callback replacement page : Pointer)

inductive Step (s : System) : Action → System → Prop
  | wrapOutgoing {side : Side} {callback wrapper result : Pointer} {manager : CallbackManager}
      (h : (s side).manager.wrapOutgoingCallback callback wrapper = some (result, manager)) :
      Step s (.wrapOutgoing side callback wrapper)
        (Function.update s side
          { s side with
            manager
            outgoing := ⟨callback, wrapper, result⟩ :: (s side).outgoing })
  | wrapIncoming {side : Side} {callback replacement page : Pointer}
      (h : callbackNeedsWrapping callback = true → (s side).needsPage = true →
        (s side).Mappable page) :
      Step s (.wrapIncoming side callback replacement page)
        (Function.update s side ((s side).wrapIncomingCallback callback replacement page))

/-- A value that is not a callback: null, -1, or one of 1 to 5. -/
def Reserved (v : Pointer) : Prop := v = 0 ∨ v = -1 ∨ 1 ≤ v.toNat ∧ v.toNat ≤ 5

/-- **Callbacks survive the trip**, as far as one process is concerned.  Reserved values pass
unchanged in both directions.  Other callbacks leave as numbers that need wrapping in the other
process, and executing a number finds the entry it was created with.  The trampolines of
received numbers are intact, lie inside of a page, are apart from each other, and lead to the
replacement with the number in `r11`. -/
structure Survives (p : Process) : Prop where
  outgoing_reserved : ∀ o ∈ p.outgoing, Reserved o.callback → o.result = o.callback
  outgoing_number : ∀ o ∈ p.outgoing, ¬ Reserved o.callback → callbackNeedsWrapping o.result = true
  outgoing_execute : ∀ o ∈ p.outgoing, ¬ Reserved o.callback →
    p.manager.execute o.result = some ⟨o.callback, o.wrapper⟩
  incoming_reserved : ∀ i ∈ p.incoming, Reserved i.callback → i.result = i.callback
  incoming_intact : ∀ i ∈ p.incoming, ¬ Reserved i.callback →
    Stores p.memory i.result.toNat (trampoline i.callback i.replacement)
  incoming_jumps : ∀ i ∈ p.incoming, ¬ Reserved i.callback → ∀ r11,
    (X86.step p.memory ⟨i.result, r11⟩).bind (X86.step p.memory) =
      some ⟨i.replacement, i.callback⟩
  incoming_within : ∀ i ∈ p.incoming, ¬ Reserved i.callback → ∃ page ∈ p.pages,
    page.toNat ≤ i.result.toNat ∧ i.result.toNat + trampolineSize ≤ page.toNat + pageSize
  incoming_apart : p.incoming.Pairwise fun i j ↦ ¬ Reserved i.callback → ¬ Reserved j.callback →
    Apart i.result.toNat trampolineSize j.result.toNat trampolineSize

/-! ## The table -/

section Table

variable {m m' : CallbackManager} {callback wrapper result : Pointer} {o : Outgoing}

theorem callbackNeedsWrapping_iff :
    callbackNeedsWrapping callback = true ↔ ¬ Reserved callback := by
  unfold callbackNeedsWrapping callbackMaxReserved Reserved
  simp only [Bool.and_eq_true, bne_iff_ne, ne_eq, decide_eq_true_eq, BitVec.lt_def]
  rw [show (5 : Pointer).toNat = 5 from rfl]
  constructor
  · rintro ⟨⟨hzero, hmax⟩, hlt⟩ (h | h | h)
    · exact hzero h
    · exact hmax h
    · omega
  · intro h
    refine ⟨⟨fun h' ↦ h (Or.inl h'), fun h' ↦ h (Or.inr (Or.inl h'))⟩, ?_⟩
    have hpos : callback.toNat ≠ 0 := fun h' ↦ h (Or.inl (BitVec.eq_of_toNat_eq h'))
    by_contra hle
    exact h (Or.inr (Or.inr ⟨by omega, by omega⟩))

/-- A number above the reserved ones that an index of the table can be needs wrapping. -/
theorem not_reserved_of_lt (hlt : 5 < callback.toNat) (hmax : callback.toNat < maxSize) :
    ¬ Reserved callback := by
  unfold maxSize at hmax
  rintro (rfl | rfl | h)
  · exact absurd hlt (by decide)
  · exact absurd hmax (by decide)
  · omega

/-- A table that starts with the entries for reserved values and holds what was entered into
it.  Nothing is ever entered into `callback_numbers`. -/
structure TableOk (m : CallbackManager) (outgoing : List Outgoing) : Prop where
  numbers : m.callbackNumbers = []
  lt_length : 5 < m.callbackFunctions.length
  length_le : m.callbackFunctions.length ≤ maxSize
  reserved : ∀ o ∈ outgoing, Reserved o.callback → o.result = o.callback
  number : ∀ o ∈ outgoing, ¬ Reserved o.callback → 5 < o.result.toNat
  execute : ∀ o ∈ outgoing, ¬ Reserved o.callback →
    m.execute o.result = some ⟨o.callback, o.wrapper⟩

theorem TableOk.init : TableOk .init [] :=
  ⟨rfl, by decide, by decide, nofun, nofun, nofun⟩

theorem wrapOutgoingCallback_of_reserved (h : Reserved callback) :
    m.wrapOutgoingCallback callback wrapper = some (callback, m) := by
  have hneeds : callbackNeedsWrapping callback = false :=
    Bool.eq_false_iff.mpr fun hneeds ↦ callbackNeedsWrapping_iff.mp hneeds h
  unfold CallbackManager.wrapOutgoingCallback
  rw [hneeds]
  rfl

theorem wrapOutgoingCallback_of_not_reserved (hnumbers : m.callbackNumbers = [])
    (h : ¬ Reserved callback)
    (hwrap : m.wrapOutgoingCallback callback wrapper = some (result, m')) :
    m.callbackFunctions.length < maxSize ∧ result.toNat = m.callbackFunctions.length ∧
      m' = { m with callbackFunctions := m.callbackFunctions ++ [⟨callback, wrapper⟩] } := by
  obtain ⟨callbackNumbers, callbackFunctions, trampolines, remaining⟩ := m
  obtain rfl : callbackNumbers = [] := hnumbers
  unfold CallbackManager.wrapOutgoingCallback at hwrap
  rw [callbackNeedsWrapping_iff.mpr h, if_neg (by decide)] at hwrap
  dsimp only [List.lookup_nil] at hwrap
  split at hwrap
  next hroom =>
      obtain ⟨rfl, rfl⟩ := Prod.mk.inj (Option.some.inj hwrap)
      refine ⟨hroom, ?_, rfl⟩
      rw [List.length_append, List.length_singleton, Nat.add_sub_cancel]
      exact Nat.mod_eq_of_lt (Nat.lt_trans hroom (by decide))
  next => cases hwrap

theorem trampolines_wrapOutgoingCallback
    (hwrap : m.wrapOutgoingCallback callback wrapper = some (result, m')) :
    m'.trampolines = m.trampolines ∧ m'.remainingTrampolinBytes = m.remainingTrampolinBytes := by
  unfold CallbackManager.wrapOutgoingCallback at hwrap
  grind

/-- **A callback leaves the process.**  The table only grows, so that the numbers given out
before keep their entries. -/
theorem TableOk.wrapOutgoingCallback {outgoing : List Outgoing} (h : TableOk m outgoing)
    (hwrap : m.wrapOutgoingCallback callback wrapper = some (result, m')) :
    TableOk m' (⟨callback, wrapper, result⟩ :: outgoing) := by
  by_cases hcallback : Reserved callback
  · rw [wrapOutgoingCallback_of_reserved hcallback] at hwrap
    obtain ⟨rfl, rfl⟩ := Prod.mk.inj (Option.some.inj hwrap)
    exact { h with
      reserved := List.forall_mem_cons.mpr ⟨fun _ ↦ rfl, h.reserved⟩
      number := List.forall_mem_cons.mpr ⟨fun h' ↦ absurd hcallback h', h.number⟩
      execute := List.forall_mem_cons.mpr ⟨fun h' ↦ absurd hcallback h', h.execute⟩ }
  · obtain ⟨hroom, hresult, rfl⟩ :=
      wrapOutgoingCallback_of_not_reserved h.numbers hcallback hwrap
    have hlength : (m.callbackFunctions ++ [(⟨callback, wrapper⟩ : CallbackEntry)]).length =
        m.callbackFunctions.length + 1 := List.length_append
    refine ⟨h.numbers, Nat.lt_of_lt_of_eq (Nat.lt_succ_of_lt h.lt_length) hlength.symm,
      Nat.le_trans (Nat.le_of_eq hlength) hroom,
      List.forall_mem_cons.mpr ⟨fun h' ↦ absurd h' hcallback, h.reserved⟩,
      List.forall_mem_cons.mpr ⟨fun _ ↦ Nat.lt_of_lt_of_eq h.lt_length hresult.symm, h.number⟩,
      List.forall_mem_cons.mpr ⟨fun _ ↦ ?_, fun o ho hcallback ↦ ?_⟩⟩
    · show (m.callbackFunctions ++ [(⟨callback, wrapper⟩ : CallbackEntry)])[result.toNat]? = _
      rw [hresult, List.getElem?_concat_length]
    · have hentry := h.execute o ho hcallback
      exact (List.getElem?_append_left (List.getElem?_eq_some_iff.mp hentry).1).trans hentry

end Table

/-! ## The trampolines -/

section Trampolines

variable {p : Process} {a : Arena pageSize trampolineSize} {callback replacement page : Pointer}

@[simp] theorem length_trampoline :
    (trampoline callback replacement).length = trampolineSize := by
  simp [trampoline, trampolineSize]

theorem trampoline_eq : trampoline callback replacement =
    (X86.Instruction.movabs callback).encode ++
      ((X86.Instruction.jmpq 0).encode ++ leBytes 8 replacement.toNat) := rfl

/-- **A trampoline jumps to its replacement** with its number in `r11`. -/
theorem jumps_of_stores {memory : ℕ → BitVec 8} {t r11 : Pointer}
    (hfits : t.toNat + trampolineSize ≤ 2 ^ 64)
    (h : Stores memory t.toNat (trampoline callback replacement)) :
    (X86.step memory ⟨t, r11⟩).bind (X86.step memory) = some ⟨replacement, callback⟩ := by
  unfold trampolineSize at hfits
  rw [trampoline_eq, stores_append, stores_append] at h
  obtain ⟨hmovabs, hjmpq, htarget⟩ := h
  have hnext : (t + 10).toNat = t.toNat + 10 := by bv_omega
  have hload : (t + 10 + 6 + (0 : BitVec 32).signExtend 64).toNat = t.toNat + 10 + 6 := by
    rw [show (0 : BitVec 32).signExtend 64 = 0 from rfl]
    bv_omega
  replace hjmpq : Stores memory (t + 10).toNat (X86.Instruction.jmpq 0).encode := by
    rw [hnext]
    exact hjmpq
  replace htarget : Stores memory (t + 10 + 6 + (0 : BitVec 32).signExtend 64).toNat
      (leBytes 8 replacement.toNat) := by
    rw [hload]
    exact htarget
  rw [X86.step_movabs hmovabs, Option.bind_some]
  exact X86.step_jmpq hjmpq htarget

/-- The trampolines of a process are the blocks of an arena.  While no page has been mapped
the counters say nothing. -/
structure Represents (p : Process) (a : Arena pageSize trampolineSize) : Prop where
  pages : a.pages = p.pages.map BitVec.toNat
  blocks : a.blocks =
    (p.incoming.filter fun i ↦ callbackNeedsWrapping i.callback).map fun i ↦ i.result.toNat
  rest : p.manager.trampolines ≠ 0 →
    a.next = p.manager.trampolines.toNat ∧ a.left = p.manager.remainingTrampolinBytes.toNat
  left_le : p.manager.remainingTrampolinBytes.toNat ≤ pageSize
  fits : ∀ page ∈ p.pages, page.toNat + pageSize ≤ 2 ^ 64

/-- The next trampoline has its place in the rest of the arena. -/
structure Ready (p : Process) (a : Arena pageSize trampolineSize) : Prop extends
    Represents p a where
  next_eq : a.next = p.manager.trampolines.toNat
  left_eq : a.left = p.manager.remainingTrampolinBytes.toNat
  room : trampolineSize ≤ a.left

/-- The counter is never negative, so that its conversion to `size_t` keeps its value. -/
theorem toNat_signExtend_of_le {remaining : BitVec 32} (h : remaining.toNat ≤ pageSize) :
    (remaining.signExtend 64).toNat = remaining.toNat := by
  unfold pageSize at h
  have hmsb : remaining.msb = false := BitVec.msb_eq_false_iff_two_mul_lt.mpr (by omega)
  rw [BitVec.signExtend_eq_setWidth_of_msb_false hmsb, BitVec.toNat_setWidth]
  exact Nat.mod_eq_of_lt (by omega)

theorem toNat_remaining {remaining : BitVec 32} (hle : remaining.toNat ≤ pageSize)
    (hroom : trampolineSize ≤ remaining.toNat) :
    ((remaining.signExtend 64 - .ofNat 64 trampolineSize).setWidth 32).toNat =
      remaining.toNat - trampolineSize := by
  have hsize := toNat_signExtend_of_le hle
  unfold pageSize at hle
  unfold trampolineSize at hroom ⊢
  rw [BitVec.toNat_setWidth]
  bv_omega

theorem Represents.mem_blocks (h : Represents p a) {i : Incoming} (hi : i ∈ p.incoming)
    (hcallback : ¬ Reserved i.callback) : i.result.toNat ∈ a.blocks := by
  rw [h.blocks]
  exact List.mem_map_of_mem
    (List.mem_filter.mpr ⟨hi, callbackNeedsWrapping_iff.mpr hcallback⟩)

theorem Represents.ready (h : Represents p a) (hpage : p.needsPage = false) : Ready p a := by
  unfold Process.needsPage at hpage
  rw [Bool.or_eq_false_iff, beq_eq_false_iff_ne, decide_eq_false_iff_not,
    toNat_signExtend_of_le h.left_le] at hpage
  obtain ⟨hnext, hleft⟩ := h.rest hpage.1
  exact ⟨h, hnext, hleft, hleft.symm ▸ Nat.not_lt.mp hpage.2⟩

/-- **A page is mapped.** -/
theorem Represents.mapPage (h : Represents p a) (hpage : p.Mappable page) :
    ∃ a', Ready (p.mapPage page) a' := by
  have hapart : ∀ q ∈ a.pages, Apart page.toNat pageSize q pageSize := by
    rw [h.pages]
    exact List.forall_mem_map.mpr hpage.2
  refine ⟨a.addPage page.toNat hapart, ⟨?_, h.blocks, fun _ ↦ ⟨rfl, rfl⟩, Nat.le_refl pageSize,
    List.forall_mem_cons.mpr ⟨hpage.1, h.fits⟩⟩, rfl, rfl, Nat.le_of_ble_eq_true rfl⟩
  exact congrArg (page.toNat :: ·) h.pages

theorem Represents.fits_of_within (h : Represents p a) {t n : ℕ}
    (hwithin : ∃ page ∈ a.pages, page ≤ t ∧ t + n ≤ page + pageSize) : t + n ≤ 2 ^ 64 := by
  obtain ⟨page, hpage, -, hle⟩ := hwithin
  rw [h.pages] at hpage
  obtain ⟨q, hq, rfl⟩ := List.mem_map.mp hpage
  exact Nat.le_trans hle (h.fits q hq)

/-- **A trampoline is written.** -/
theorem Ready.writeTrampoline (h : Ready p a) (hcallback : ¬ Reserved callback) :
    ∃ a', Represents (p.writeTrampoline callback replacement) a' := by
  have hroom := h.room
  have hfits : a.next + a.left ≤ 2 ^ 64 :=
    h.fits_of_within (a.rest_within (Nat.lt_of_lt_of_le (by decide) hroom))
  have hremaining := toNat_remaining h.left_le (h.left_eq ▸ hroom)
  refine ⟨a.cut (by decide) h.room, h.pages, ?_, fun hnext ↦ ⟨?_, ?_⟩, ?_, h.fits⟩
  · have hneeds := callbackNeedsWrapping_iff.mpr hcallback
    show a.next :: a.blocks = _
    rw [Process.writeTrampoline, List.filter_cons, hneeds, if_pos rfl, List.map_cons, h.next_eq,
      h.blocks]
  · -- the address after the trampoline is in the address space or it is null
    show a.next + trampolineSize = (p.manager.trampolines + .ofNat 64 trampolineSize).toNat
    replace hnext : p.manager.trampolines + .ofNat 64 trampolineSize ≠ 0 := hnext
    have hnext_eq := h.next_eq
    unfold trampolineSize at *
    bv_omega
  · exact (congrArg (· - trampolineSize) h.left_eq).trans hremaining.symm
  · exact Nat.le_trans (Nat.le_of_eq hremaining)
      (Nat.le_trans (Nat.sub_le ..) h.left_le)

/-- What holds of the calls of `wrap_incoming_callback` that a process has made. -/
structure TrampolinesOk (p : Process) : Prop where
  arena : ∃ a, Represents p a
  reserved : ∀ i ∈ p.incoming, Reserved i.callback → i.result = i.callback
  intact : ∀ i ∈ p.incoming, ¬ Reserved i.callback →
    Stores p.memory i.result.toNat (trampoline i.callback i.replacement)

theorem TrampolinesOk.init (memory : ℕ → BitVec 8) : TrampolinesOk (.init memory) where
  arena := ⟨.empty, rfl, rfl, fun h ↦ absurd rfl h, Nat.zero_le _, nofun⟩
  reserved := nofun
  intact := nofun

theorem TrampolinesOk.mapPage (h : TrampolinesOk p) (hpage : p.Mappable page) :
    TrampolinesOk (p.mapPage page) ∧ ∃ a, Ready (p.mapPage page) a := by
  obtain ⟨a, ha⟩ := h.arena
  obtain ⟨a', ha'⟩ := ha.mapPage hpage
  refine ⟨⟨⟨a', ha'.toRepresents⟩, h.reserved, fun i hi hcallback ↦ ?_⟩, a', ha'⟩
  obtain ⟨q', hq', hle, hend⟩ := a.block_within _ (ha.mem_blocks hi hcallback)
  rw [ha.pages] at hq'
  obtain ⟨q, hq, rfl⟩ := List.mem_map.mp hq'
  refine (h.intact i hi hcallback).write_of_apart ?_
  rw [length_trampoline, List.length_replicate]
  exact (hpage.2 q hq).mono (Nat.le_refl _) (Nat.le_refl _) hle hend

theorem TrampolinesOk.writeTrampoline (h : TrampolinesOk p) (hready : Ready p a)
    (hcallback : ¬ Reserved callback) :
    TrampolinesOk (p.writeTrampoline callback replacement) := by
  refine ⟨hready.writeTrampoline hcallback,
    List.forall_mem_cons.mpr ⟨fun h' ↦ absurd h' hcallback, h.reserved⟩,
    List.forall_mem_cons.mpr ⟨fun _ ↦ stores_write .., fun i hi hi' ↦ ?_⟩⟩
  have hroom := hready.room
  have hapart := a.rest_apart (Nat.lt_of_lt_of_le (by decide) hroom) _
    (hready.mem_blocks hi hi')
  refine (h.intact i hi hi').write_of_apart ?_
  rw [length_trampoline, length_trampoline, ← hready.next_eq]
  exact hapart.mono (Nat.le_refl _) (Nat.add_le_add_left hroom _) (Nat.le_refl _) (Nat.le_refl _)

/-- **A number arrives in the process.** -/
theorem TrampolinesOk.wrapIncomingCallback (h : TrampolinesOk p)
    (hpage : callbackNeedsWrapping callback = true → p.needsPage = true → p.Mappable page) :
    TrampolinesOk (p.wrapIncomingCallback callback replacement page) := by
  unfold Process.wrapIncomingCallback
  by_cases hneeds : callbackNeedsWrapping callback = true
  · have hcallback := callbackNeedsWrapping_iff.mp hneeds
    rw [hneeds, if_neg (by decide)]
    split
    next hfull =>
        obtain ⟨hmapped, a, ha⟩ := h.mapPage (hpage hneeds hfull)
        exact hmapped.writeTrampoline ha hcallback
    next hfull =>
        obtain ⟨a, ha⟩ := h.arena
        exact h.writeTrampoline (ha.ready (Bool.eq_false_iff.mpr hfull)) hcallback
  · have hcallback : Reserved callback := by
      by_contra hcallback
      exact hneeds (callbackNeedsWrapping_iff.mpr hcallback)
    rw [Bool.eq_false_iff.mpr hneeds, if_pos (by decide)]
    obtain ⟨a, ha⟩ := h.arena
    refine ⟨⟨a, { ha with blocks := ?_ }⟩, List.forall_mem_cons.mpr ⟨fun _ ↦ rfl, h.reserved⟩,
      List.forall_mem_cons.mpr ⟨fun h' ↦ absurd hcallback h', h.intact⟩⟩
    rw [List.filter_cons, if_neg hneeds, ha.blocks]

end Trampolines

theorem manager_wrapIncomingCallback (p : Process) (callback replacement page : Pointer) :
    ∃ trampolines remaining,
      (p.wrapIncomingCallback callback replacement page).manager =
        { p.manager with
          trampolines := trampolines
          remainingTrampolinBytes := remaining } ∧
      (p.wrapIncomingCallback callback replacement page).outgoing = p.outgoing := by
  unfold Process.wrapIncomingCallback
  split
  · exact ⟨_, _, rfl, rfl⟩
  · split
    · exact ⟨_, _, rfl, rfl⟩
    · exact ⟨_, _, rfl, rfl⟩

/-! ## Runs -/

section Runs

variable {p : Process} {s s' : System} {x : Action}

structure ProcessOk (p : Process) : Prop where
  table : TableOk p.manager p.outgoing
  trampolines : TrampolinesOk p

theorem ProcessOk.survives (h : ProcessOk p) : Survives p := by
  obtain ⟨a, ha⟩ := h.trampolines.arena
  have hblock : ∀ i ∈ p.incoming, ¬ Reserved i.callback → ∃ page ∈ a.pages,
      page ≤ i.result.toNat ∧ i.result.toNat + trampolineSize ≤ page + pageSize :=
    fun i hi hcallback ↦ a.block_within _ (ha.mem_blocks hi hcallback)
  refine ⟨h.table.reserved, fun o ho hcallback ↦ ?_, h.table.execute, h.trampolines.reserved,
    h.trampolines.intact, fun i hi hcallback r11 ↦ ?_, fun i hi hcallback ↦ ?_, ?_⟩
  · have hentry := h.table.execute o ho hcallback
    have hlt := (List.getElem?_eq_some_iff.mp hentry).1
    exact callbackNeedsWrapping_iff.mpr (not_reserved_of_lt (h.table.number o ho hcallback)
      (Nat.lt_of_lt_of_le hlt h.table.length_le))
  · exact jumps_of_stores (ha.fits_of_within (hblock i hi hcallback))
      (h.trampolines.intact i hi hcallback)
  · obtain ⟨page, hpage, hle⟩ := hblock i hi hcallback
    rw [ha.pages] at hpage
    obtain ⟨q, hq, rfl⟩ := List.mem_map.mp hpage
    exact ⟨q, hq, hle⟩
  · have hapart := a.block_apart
    rw [ha.blocks, List.pairwise_map, List.pairwise_filter] at hapart
    exact hapart.imp fun h hi hj ↦
      h (callbackNeedsWrapping_iff.mpr hi) (callbackNeedsWrapping_iff.mpr hj)

theorem ProcessOk.init (memory : ℕ → BitVec 8) : ProcessOk (.init memory) :=
  ⟨TableOk.init, TrampolinesOk.init memory⟩

theorem ProcessOk.wrapOutgoing {callback wrapper result : Pointer} {manager : CallbackManager}
    (h : ProcessOk p)
    (hwrap : p.manager.wrapOutgoingCallback callback wrapper = some (result, manager)) :
    ProcessOk { p with
      manager
      outgoing := ⟨callback, wrapper, result⟩ :: p.outgoing } := by
  obtain ⟨a, ha⟩ := h.trampolines.arena
  obtain ⟨hnext, hleft⟩ := trampolines_wrapOutgoingCallback hwrap
  refine ⟨h.table.wrapOutgoingCallback hwrap, ⟨a, { ha with rest := ?_, left_le := ?_ }⟩,
    h.trampolines.reserved, h.trampolines.intact⟩
  · rw [hnext, hleft]
    exact ha.rest
  · rw [hleft]
    exact ha.left_le

theorem ProcessOk.wrapIncoming {callback replacement page : Pointer} (h : ProcessOk p)
    (hpage : callbackNeedsWrapping callback = true → p.needsPage = true → p.Mappable page) :
    ProcessOk (p.wrapIncomingCallback callback replacement page) := by
  refine ⟨?_, h.trampolines.wrapIncomingCallback hpage⟩
  obtain ⟨trampolines, remaining, hmanager, houtgoing⟩ :=
    manager_wrapIncomingCallback p callback replacement page
  rw [hmanager, houtgoing]
  exact ⟨h.table.numbers, h.table.lt_length, h.table.length_le, h.table.reserved,
    h.table.number, h.table.execute⟩

theorem processOk_step (h : ∀ side, ProcessOk (s side)) (hstep : Step s x s') :
    ∀ side, ProcessOk (s' side) := by
  cases hstep with
  | @wrapOutgoing this _ _ _ _ hwrap =>
    exact (Function.forall_update_iff s fun _ ↦ ProcessOk).mpr
      ⟨(h this).wrapOutgoing hwrap, fun side _ ↦ h side⟩
  | @wrapIncoming this _ _ _ hpage =>
    exact (Function.forall_update_iff s fun _ ↦ ProcessOk).mpr
      ⟨(h this).wrapIncoming hpage, fun side _ ↦ h side⟩

/-- **Callbacks survive the trip**: in every state that the calls of the two processes lead
to. -/
theorem survives_of_run {memory : Side → ℕ → BitVec 8} {t : List (Action × System)}
    (hrun : IsRun Step (fun side ↦ .init (memory side)) t) :
    ∀ s ∈ runStates (fun side ↦ Process.init (memory side)) t, ∀ side, Survives (s side) := by
  have hstep : ∀ (s : System) x s', (∀ side, ProcessOk (s side)) → Step s x s' →
      ∀ side, ProcessOk (s' side) := fun s x s' h hstep ↦ processOk_step h hstep
  intro s hs side
  exact (hrun.always hstep (fun side ↦ ProcessOk.init (memory side)) s hs side).survives

/-- The program sends two function pointers to the library. -/
theorem survives_twoCallbacks :
    ∃ t : List (Action × System), IsRun Step (fun _ ↦ .init fun _ ↦ 0) t ∧
      ∃ s ∈ runStates (fun _ ↦ Process.init fun _ ↦ 0) t,
        (s .main).outgoing = [⟨0x410000, 0x510000, 7⟩, ⟨0x400000, 0x500000, 6⟩] ∧
        (s .library).incoming = [⟨7, 0x610000, 0x700018⟩, ⟨6, 0x600000, 0x700000⟩] ∧
        ∀ side, Survives (s side) := by
  let s₀ : System := fun _ ↦ Process.init fun _ ↦ 0
  obtain ⟨m₁, m₂, hm₁, hm₂⟩ : ∃ m₁ m₂ : CallbackManager,
      CallbackManager.init.wrapOutgoingCallback 0x400000 0x500000 = some (6, m₁) ∧
        m₁.wrapOutgoingCallback 0x410000 0x510000 = some (7, m₂) := ⟨_, _, rfl, rfl⟩
  let sent (s : System) (manager : CallbackManager) (callback wrapper result : Pointer) : System :=
    Function.update s .main { s .main with
      manager
      outgoing := ⟨callback, wrapper, result⟩ :: (s .main).outgoing }
  let s₁ := sent s₀ m₁ 0x400000 0x500000 6
  let s₂ := sent s₁ m₂ 0x410000 0x510000 7
  let s₃ : System := Function.update s₂ .library
    ((Process.init fun _ ↦ 0).wrapIncomingCallback 6 0x600000 0x700000)
  let s₄ : System := Function.update s₃ .library
    (((Process.init fun _ ↦ 0).wrapIncomingCallback 6 0x600000 0x700000).wrapIncomingCallback
      7 0x610000 0x700000)
  have hpage : ((Process.init fun _ ↦ 0).wrapIncomingCallback 6 0x600000 0x700000).needsPage =
      false := by decide +kernel
  have hincoming : (s₄ .library).incoming =
      [⟨7, 0x610000, 0x700018⟩, ⟨6, 0x600000, 0x700000⟩] := by
    rw [show s₄ .library = _ from Function.update_self ..]
    decide +kernel
  let t : List (Action × System) :=
    [(.wrapOutgoing .main 0x400000 0x500000, s₁), (.wrapOutgoing .main 0x410000 0x510000, s₂),
      (.wrapIncoming .library 6 0x600000 0x700000, s₃),
      (.wrapIncoming .library 7 0x610000 0x700000, s₄)]
  have hrun : IsRun Step s₀ t :=
    ⟨.wrapOutgoing hm₁, .wrapOutgoing hm₂, .wrapIncoming fun _ _ ↦ ⟨by decide, nofun⟩,
      .wrapIncoming fun _ hneeds ↦ absurd (hpage.symm.trans hneeds) Bool.false_ne_true, trivial⟩
  have hs : s₄ ∈ runStates s₀ t := by simp [t, runStates]
  exact ⟨t, hrun, s₄, hs, rfl, hincoming, survives_of_run hrun s₄ hs⟩

end Runs

end Cali.Ipc.Callbacks
