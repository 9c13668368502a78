import Cali.Ipc.Descriptors

/-!
# Indices into the descriptor tables

`local_to_remote_fd` and `local_to_remote_pid` have 256 entries each.  Four functions index
them with numbers of different origin: what a generated wrapper passes on, what the hook of
`close` is called with, what `recvfd` returns, and what the peer asks for.  Only negative
numbers are tested, and only on the way to `onCloseLocal`.

Beside each function stands the list of the indices that it uses.  An entry that was read may
itself become an index: a close is propagated to the other process under the number that the
table has for it.
-/

namespace Cali.Ipc.Descriptors

open Cali.Lib Cali.Ipc.Services

/-! ## The indices of a call -/

/-- The indices of `fromOtherSide`, which writes to both tables. -/
def fromOtherSideIndices (localFd : ℤ) : List ℤ := [localFd, localFd]

/-- The indices of `onCloseLocal` without propagation. -/
def onCloseLocalIndices (t : Table) (fd : ℤ) : List ℤ :=
  if 0 ≤ fd then
    if t.fd fd ≠ notSet then [fd, fd, fd] else [fd]
  else []

/-- The indices of `internal_close_fd`. -/
def internalCloseFdIndices (p : Services.Process) (localFd : ℤ) : List ℤ :=
  if p.hasForked = true ∧ 0 ≤ localFd then
    p.mappings.flatMap fun this ↦ onCloseLocalIndices (p.tables this) localFd
  else []

section Indices

variable (this : BitVec 64) (s : System) (x : Side) (fd : ℤ)

/-- The indices of `mapToOtherSide`, with those of the other process that receives. -/
def mapToOtherSideIndices (received : ℤ) : List ℤ :=
  if ((s x).tables this).fd fd ≠ notSet then [fd, fd]
  else if (s x).descriptors fd = false then [fd]
  else fd :: fromOtherSideIndices received ++ [fd, fd]

/-- The indices of `onCloseLocal` with propagation: the entry of `local_to_remote_pid` is sent
along, and the other process closes its descriptor. -/
def propagateIndices : List ℤ :=
  let t := (s x).tables this
  if 0 ≤ fd ∧ t.fd fd ≠ notSet then
    onCloseLocalIndices t fd ++ fd :: internalCloseFdIndices (s x.other) (t.fd fd)
  else onCloseLocalIndices t fd

/-- The indices of the loop of `onClose` with propagation. -/
def onCloseLoopIndices : List (BitVec 64) → System → List ℤ
  | [], _ => []
  | this :: mappings, s =>
    propagateIndices this s x fd ++ onCloseLoopIndices mappings (onCloseLocal this s x fd)

/-- The indices of the hook of `close`. -/
def closeIndices : List ℤ :=
  if (s x).hasForked = true ∧ 0 ≤ fd then
    onCloseLoopIndices x fd (s x).mappings (Function.update s x
      { s x with descriptors := Function.update (s x).descriptors fd false })
  else []

end Indices

/-- What the two processes do: a descriptor is opened; a wrapper shares a number; the hook of
`close` is called; and a process serves a request of its peer. -/
inductive Call
  | opens (x : Side) (fd : ℤ)
  | share (x : Side) (this : BitVec 64) (fd received : ℤ)
  | close (x : Side) (fd : ℤ)
  | receiveFd (x : Side) (this : BitVec 64) (fd pid received : ℤ)
  | closeFd (x : Side) (localFd openedByPid : ℤ)
deriving DecidableEq, Repr

def Call.exec (s : System) : Call → System
  | .opens x fd => openFd s x fd
  | .share x this fd received => (mapToOtherSide this s x fd received).1
  | .close x fd => Descriptors.close s x fd
  | .receiveFd x this fd pid received =>
    Function.update s x (receive this fd (s x) received pid).1
  | .closeFd x localFd openedByPid =>
    Function.update s x ((s x).internalCloseFd localFd openedByPid)

def Call.indices (s : System) : Call → List ℤ
  | .opens _ _ => []
  | .share x this fd received => mapToOtherSideIndices this s x fd received
  | .close x fd => closeIndices s x fd
  | .receiveFd _ _ _ _ received => fromOtherSideIndices received
  | .closeFd x localFd _ => internalCloseFdIndices (s x) localFd

/-- The call does not index a table out of range. -/
def IndicesInTable (s : System) (c : Call) : Prop := ∀ i ∈ c.indices s, InTable i

instance (s : System) (c : Call) : Decidable (IndicesInTable s c) :=
  inferInstanceAs (Decidable (∀ i ∈ c.indices s, InTable i))

/-- Numbers that lead to no index out of range: a shared number and a received one are inside of
the tables, and no number of a closed descriptor, or of a descriptor of the peer, is too large. -/
def NumbersOk (s : System) : Call → Prop
  | .opens _ _ => True
  | .share x this fd received => InTable fd ∧ (Sends this s x fd → InTable received)
  | .close _ fd => fd < maxFd
  | .receiveFd _ _ fd _ received => InTable received ∧ fd < maxFd
  | .closeFd _ localFd _ => localFd < maxFd

instance (s : System) (c : Call) : Decidable (NumbersOk s c) := by
  cases c <;> unfold NumbersOk <;> infer_instance

/-! ## Entries that may become indices -/

/-- No entry of the table is too large. -/
def SmallTable (t : Table) : Prop := ∀ i, InTable i → t.fd i < maxFd

/-- No entry of a registered mapping is too large. -/
def SmallTables (p : Services.Process) : Prop := ∀ this ∈ p.mappings, SmallTable (p.tables this)

section Small

variable {t : Table} {p q : Services.Process} {this : BitVec 64} {s : System} {x : Side}
variable {fd received pid : ℤ}

theorem SmallTable.update (h : SmallTable t) {i v : ℤ} (hv : v < maxFd) {pids : ℤ → ℤ} :
    SmallTable ⟨Function.update t.fd i v, pids⟩ := by
  intro j hj
  show Function.update t.fd i v j < maxFd
  rw [Function.update_apply]
  split
  · exact hv
  · exact h j hj

theorem notSet_lt_maxFd : notSet < maxFd := by decide

theorem SmallTable.onCloseLocal (h : SmallTable t) : SmallTable (t.onCloseLocal fd) := by
  unfold Table.onCloseLocal
  split
  · exact h.update notSet_lt_maxFd
  · exact h

theorem SmallTables.set (h : SmallTables p) (hmappings : q.mappings = p.mappings)
    (htables : q.tables = Function.update p.tables this t) (ht : this ∈ p.mappings → SmallTable t) :
    SmallTables q := by
  intro p' hp'
  rw [hmappings] at hp'
  rw [htables, Function.update_apply]
  split
  next heq => exact ht (heq ▸ hp')
  next => exact h p' hp'

theorem SmallTables.receive (h : SmallTables p) (hfd : fd < maxFd) :
    SmallTables (receive this fd p received pid).1 :=
  h.set rfl rfl fun hthis ↦ (h this hthis).update hfd

theorem SmallTables.onClose (h : SmallTables p) : SmallTables (p.onClose fd) := by
  unfold Services.Process.onClose
  split
  · intro this hthis
    show SmallTable (if this ∈ p.mappings then (p.tables this).onCloseLocal fd else p.tables this)
    rw [if_pos hthis]
    exact (h this hthis).onCloseLocal
  · exact h

theorem SmallTables.internalCloseFd (h : SmallTables p) :
    SmallTables (p.internalCloseFd fd pid) :=
  SmallTables.onClose (p := { p with stderr := _ }) h

theorem smallTables_update (h : ∀ y, SmallTables (s y)) (hp : SmallTables p) :
    ∀ y, SmallTables (Function.update s x p y) :=
  (Function.forall_update_iff s fun _ ↦ SmallTables).mpr ⟨hp, fun y _ ↦ h y⟩

theorem smallTables_onCloseLocal (h : ∀ y, SmallTables (s y)) :
    ∀ y, SmallTables (onCloseLocal this s x fd y) := by
  unfold onCloseLocal
  dsimp only
  split
  · refine smallTables_update (smallTables_update h ?_) (h x.other).internalCloseFd
    exact (h x).set rfl rfl fun hthis ↦ (h x this hthis).update notSet_lt_maxFd
  · exact h

theorem mappings_onCloseLocal : (onCloseLocal this s x fd x).mappings = (s x).mappings := by
  unfold onCloseLocal
  dsimp only
  split
  · rw [Function.update_of_ne (ne_other x), Function.update_self]
  · rfl

theorem smallTables_onCloseLoop (mappings : List (BitVec 64)) (h : ∀ y, SmallTables (s y)) :
    ∀ y, SmallTables (mappings.foldl (fun s this ↦ onCloseLocal this s x fd) s y) := by
  induction mappings generalizing s with
  | nil => exact h
  | cons this mappings ih => exact ih (smallTables_onCloseLocal h)

theorem smallTables_setDescriptors (h : ∀ y, SmallTables (s y)) (descriptors : ℤ → Bool) :
    ∀ y, SmallTables (Function.update s x { s x with descriptors } y) :=
  smallTables_update h (h x)

theorem smallTables_close (h : ∀ y, SmallTables (s y)) : ∀ y, SmallTables (close s x fd y) := by
  unfold close onClose
  split
  · exact smallTables_onCloseLoop _ (smallTables_setDescriptors h _)
  · exact smallTables_setDescriptors h _

theorem smallTables_mapToOtherSide (h : ∀ y, SmallTables (s y)) (hfd : InTable fd)
    (hreceived : Sends this s x fd → InTable received) :
    ∀ y, SmallTables ((mapToOtherSide this s x fd received).1 y) := by
  have hresult : (receive this fd (s x.other) received (s x).pid).2 = received :=
    Function.update_self ..
  unfold mapToOtherSide
  dsimp only
  rw [hresult]
  split
  · exact h
  next hset =>
    split
    · exact h
    next hopen =>
      have hsends : Sends this s x fd := ⟨not_not.mp hset, (Bool.not_eq_false _).mp hopen⟩
      refine smallTables_update (smallTables_update h ((h x.other).receive hfd.2)) ?_
      exact (h x).set rfl rfl fun hthis ↦ (h x this hthis).update (hreceived hsends).2

/-- **One call** keeps the entries small. -/
theorem smallTables_exec {c : Call} (h : ∀ y, SmallTables (s y)) (hc : NumbersOk s c) :
    ∀ y, SmallTables (c.exec s y) := by
  cases c with
  | opens x fd => exact smallTables_setDescriptors h _
  | share x this fd received => exact smallTables_mapToOtherSide h hc.1 hc.2
  | close x fd => exact smallTables_close h
  | receiveFd x this fd pid received => exact smallTables_update h ((h x).receive hc.2)
  | closeFd x fd pid => exact smallTables_update h (h x).internalCloseFd

end Small

/-! ## The indices of a run -/

section Range

variable {t : Table} {p : Services.Process} {this : BitVec 64} {s : System} {x : Side}
variable {fd received i : ℤ}

theorem inTable_of_mem_onCloseLocalIndices (hfd : fd < maxFd) (hi : i ∈ onCloseLocalIndices t fd) :
    InTable i := by
  unfold onCloseLocalIndices at hi
  split at hi
  next hle =>
    obtain rfl : i = fd := by
      split at hi <;> simpa using hi
    exact ⟨hle, hfd⟩
  next => cases hi

theorem inTable_of_mem_internalCloseFdIndices (hfd : fd < maxFd)
    (hi : i ∈ internalCloseFdIndices p fd) : InTable i := by
  unfold internalCloseFdIndices at hi
  split at hi
  · obtain ⟨this, -, hi⟩ := List.mem_flatMap.mp hi
    exact inTable_of_mem_onCloseLocalIndices hfd hi
  · cases hi

theorem inTable_of_mem_mapToOtherSideIndices (hfd : InTable fd)
    (hreceived : Sends this s x fd → InTable received)
    (hi : i ∈ mapToOtherSideIndices this s x fd received) : InTable i := by
  unfold mapToOtherSideIndices fromOtherSideIndices at hi
  split at hi
  · simp only [List.mem_cons, List.not_mem_nil, or_false, or_self] at hi
    exact hi ▸ hfd
  next hset =>
    split at hi
    · exact List.mem_singleton.mp hi ▸ hfd
    next hopen =>
      have hsends : Sends this s x fd := ⟨not_not.mp hset, (Bool.not_eq_false _).mp hopen⟩
      simp only [List.mem_append, List.mem_cons, List.not_mem_nil, or_false, or_self] at hi
      rcases hi with (rfl | rfl) | rfl
      · exact hfd
      · exact hreceived hsends
      · exact hfd

theorem inTable_of_mem_propagateIndices (hfd : fd < maxFd) (ht : SmallTable ((s x).tables this))
    (hi : i ∈ propagateIndices this s x fd) : InTable i := by
  unfold propagateIndices at hi
  dsimp only at hi
  split at hi
  next hset =>
    rcases List.mem_append.mp hi with hi | hi
    · exact inTable_of_mem_onCloseLocalIndices hfd hi
    · rcases List.mem_cons.mp hi with rfl | hi
      · exact ⟨hset.1, hfd⟩
      · exact inTable_of_mem_internalCloseFdIndices (ht fd ⟨hset.1, hfd⟩) hi
  next => exact inTable_of_mem_onCloseLocalIndices hfd hi

theorem inTable_of_mem_onCloseLoopIndices {mappings : List (BitVec 64)} (hfd : fd < maxFd)
    (h : ∀ y, SmallTables (s y)) (hmappings : ∀ this ∈ mappings, this ∈ (s x).mappings)
    (hi : i ∈ onCloseLoopIndices x fd mappings s) : InTable i := by
  induction mappings generalizing s with
  | nil => cases hi
  | cons this mappings ih =>
    rcases List.mem_append.mp hi with hi | hi
    · exact inTable_of_mem_propagateIndices hfd
        (h x this (hmappings this List.mem_cons_self)) hi
    · refine ih (smallTables_onCloseLocal h) (fun this' hthis' ↦ ?_) hi
      rw [mappings_onCloseLocal]
      exact hmappings this' (List.mem_cons_of_mem this hthis')

theorem inTable_of_mem_closeIndices (hfd : fd < maxFd) (h : ∀ y, SmallTables (s y))
    (hi : i ∈ closeIndices s x fd) : InTable i := by
  unfold closeIndices at hi
  split at hi
  · refine inTable_of_mem_onCloseLoopIndices hfd (smallTables_setDescriptors h _) ?_ hi
    intro this hthis
    rw [Function.update_self]
    exact hthis
  · cases hi

theorem indicesInTable_of_numbersOk {c : Call} (h : ∀ y, SmallTables (s y))
    (hc : NumbersOk s c) : IndicesInTable s c := by
  intro i hi
  cases c with
  | opens x fd => cases hi
  | share x this fd received => exact inTable_of_mem_mapToOtherSideIndices hc.1 hc.2 hi
  | close x fd => exact inTable_of_mem_closeIndices hc h hi
  | receiveFd x this fd pid received =>
    simp only [Call.indices, fromOtherSideIndices, List.mem_cons, List.not_mem_nil, or_false,
      or_self] at hi
    exact hi ▸ hc.1
  | closeFd x fd pid => exact inTable_of_mem_internalCloseFdIndices hc hi

/-- **The tables are not indexed out of range** in a run whose numbers lead to no such index, from
a state whose entries are small. -/
theorem indicesInTable_of_run {t : List (Call × System)} (h : ∀ y, SmallTables (s y))
    (hrun : IsRun (fun s c s' ↦ s' = Call.exec s c) s t) (hok : RunOk NumbersOk s t) :
    RunOk IndicesInTable s t := by
  refine hrun.runOk_of_invariant (I := fun s ↦ ∀ y, SmallTables (s y)) ?_ ?_ h hok
  · rintro s c s' h hc rfl
    exact smallTables_exec h hc
  · rintro s c s' h hc -
    exact indicesInTable_of_numbersOk h hc

/-- Both processes use their mapping. -/
def usesMapping : List Call :=
  [.opens .main 3, .share .main registered 3 7, .receiveFd .main registered 9 1001 4,
    .closeFd .library 7 0, .close .main 4, .share .library registered 0 0]

theorem indicesInTable_usesMapping :
    ∃ t, IsRun (fun s c s' ↦ s' = Call.exec s c) forked t ∧ t.map Prod.fst = usesMapping ∧
      RunOk IndicesInTable forked t := by
  have hsmall : ∀ y, SmallTables (forked y) := by
    intro y this _ i hi
    have htables : (forked y).tables this = afterFork.tables this := by cases y <;> rfl
    rw [htables]
    unfold afterFork notSet maxFd
    dsimp only
    split
    · dsimp only
      split <;> omega
    · dsimp only
      omega
  have hok : RunOk NumbersOk forked (trace Call.exec forked usesMapping) := by decide +kernel
  have hrun : IsRun (fun s c s' ↦ s' = Call.exec s c) forked
      (trace Call.exec forked usesMapping) := isRun_trace (hok.mono fun _ _ _ ↦ rfl)
  exact ⟨_, hrun, rfl, indicesInTable_of_run hsmall hrun hok⟩

/-- A wrapper passes on the -1 of a failed call, the program closes the descriptor of the shared
memory, and the peer announces a descriptor that `recvfd` does not get. -/
theorem not_indicesInTable_forked :
    ¬ IndicesInTable forked (.share .main registered (-1) 3) ∧
      ¬ IndicesInTable forked (.close .main 1022) ∧
      ¬ IndicesInTable forked (.receiveFd .main registered 5 1001 (-1)) ∧
      ¬ IndicesInTable forked (.closeFd .main 256 1001) := by
  decide +kernel

end Range

end Cali.Ipc.Descriptors
