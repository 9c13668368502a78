import Mathlib.Logic.Function.Basic
import Cali.Lib.Run

/-!
# The status lock

With `programIsForking` each process of the program holds a read lock on the first byte of the
shared memory file.  The destructor of `IpcCommunication` asks whether another process holds
one; a process that finds itself alone removes the semaphores.

The locks are POSIX record locks.  A child of `fork` starts without any, and installs its own in
the handler of `pthread_atfork`; the parent sleeps for 10 ms meanwhile, which the model leaves
out, because it orders nothing.  A process keeps its lock until it exits.

The question and the answer to it are not one step.  A child that has not reached its handler is
not seen, and two processes that ask at the same time see each other.  If neither happens, the
last process removes the semaphores, and nobody else does.
-/

namespace Cali.Ipc.StatusLock

open Cali.Lib

abbrev Pid := ℕ

/-! ## The locks -/

/-- `statuslock_install`: the lock of a process that has one already is replaced. -/
def statuslockInstall (p : Pid) (locks : List Pid) : List Pid :=
  if p ∈ locks then locks else p :: locks

/-- `statuslock_is_sole_survivor`: `F_GETLK` for a write lock reports the read locks of other
processes only. -/
def statuslockIsSoleSurvivor (p : Pid) (locks : List Pid) : Bool := !locks.any (· != p)

@[simp] theorem mem_statuslockInstall {p q : Pid} {locks : List Pid} :
    q ∈ statuslockInstall p locks ↔ q = p ∨ q ∈ locks := by
  unfold statuslockInstall
  split
  case isTrue hp =>
    constructor
    · exact Or.inr
    · rintro (rfl | hq)
      · exact hp
      · exact hq
  case isFalse => exact List.mem_cons

theorem statuslockIsSoleSurvivor_iff {p : Pid} {locks : List Pid} :
    statuslockIsSoleSurvivor p locks = true ↔ ∀ q, q ≠ p → q ∉ locks := by
  simp only [statuslockIsSoleSurvivor, Bool.not_eq_true', List.any_eq_false, bne_iff_ne]
  constructor
  · intro h q hq hmem
    exact h q hmem hq
  · intro h q hmem hq
    exact h q hq hmem

/-! ## The processes -/

/-- Where a process of the program is. -/
inductive Phase
  | unborn
  /-- `fork` has created it, but the handler has not run. -/
  | forked
  | running
  /-- In the destructor, having found itself alone. -/
  | terminating
  /-- The destructor has returned. -/
  | destructed
  | exited
deriving DecidableEq, Repr

/-- The processes that hold a record lock, and those that have removed the semaphores, the last
one first. -/
structure System where
  phase : Pid → Phase
  locks : List Pid
  terminated : List Pid

inductive Action
  | fork (p c : Pid)
  | handler (c : Pid)
  | check (p : Pid)
  | terminate (p : Pid)
  | exit (p : Pid)
deriving DecidableEq, Repr

namespace System

/-- `fork_receiving_process` has returned in the process of the program. -/
def init : System where
  phase := Function.update (fun _ ↦ .unborn) 0 .running
  locks := statuslockInstall 0 []
  terminated := []

def setPhase (s : System) (p : Pid) (phase : Phase) : System :=
  { s with phase := Function.update s.phase p phase }

/-- A process forks and enters the destructor only when it runs, that is, outside of `fork`. -/
def Enabled (s : System) : Action → Prop
  | .fork p c => s.phase p = .running ∧ s.phase c = .unborn
  | .handler c => s.phase c = .forked
  | .check p => s.phase p = .running
  | .terminate p => s.phase p = .terminating
  | .exit p => s.phase p = .destructed

instance (s : System) : (a : Action) → Decidable (s.Enabled a)
  | .fork p c => inferInstanceAs (Decidable (s.phase p = .running ∧ s.phase c = .unborn))
  | .handler c => inferInstanceAs (Decidable (s.phase c = .forked))
  | .check p => inferInstanceAs (Decidable (s.phase p = .running))
  | .terminate p => inferInstanceAs (Decidable (s.phase p = .terminating))
  | .exit p => inferInstanceAs (Decidable (s.phase p = .destructed))

/-- `check` and `terminate` are the destructor of `IpcCommunication`; the kernel drops the locks
of a process that exits. -/
def exec (s : System) : Action → System
  | .fork _ c => s.setPhase c .forked
  | .handler c => { s.setPhase c .running with locks := statuslockInstall c s.locks }
  | .check p =>
    if statuslockIsSoleSurvivor p s.locks = true then s.setPhase p .terminating
    else s.setPhase p .destructed
  | .terminate p => { s.setPhase p .destructed with terminated := p :: s.terminated }
  | .exit p => { s.setPhase p .exited with locks := s.locks.filter (· ≠ p) }

def Alive (s : System) (p : Pid) : Prop := s.phase p ≠ .unborn ∧ s.phase p ≠ .exited

end System

/-- One step of one process. -/
def Step (s : System) (a : Action) (s' : System) : Prop := s.Enabled a ∧ s' = s.exec a

/-- The steps of a process that finds itself alone while a child has not run its handler, or
that sees the lock of another process although all others have asked as well, are not in order. -/
def Orderly (s : System) : Action → Prop
  | .check p =>
    if statuslockIsSoleSurvivor p s.locks = true then ∀ q, s.phase q ≠ .forked
    else ∃ q, q ≠ p ∧ (s.phase q = .forked ∨ s.phase q = .running)
  | _ => True

/-! ## The invariant -/

/-- The processes between the handler and the exit hold their locks. -/
def HoldsLock (phase : Phase) : Prop :=
  phase = .running ∨ phase = .terminating ∨ phase = .destructed

def LocksHeld (s : System) : Prop := ∀ q, q ∈ s.locks ↔ HoldsLock (s.phase q)

/-- How far the program has come: some process has yet to ask, the last process is about to
remove the semaphores, or it has done so. -/
inductive Stage (s : System) : Prop
  | pending (p : Pid) (hp : s.phase p = .forked ∨ s.phase p = .running)
      (hnone : ∀ q, s.phase q ≠ .terminating) (h : s.terminated = [])
  | closing (p : Pid) (hp : s.phase p = .terminating) (hothers : ∀ q, q ≠ p → ¬ s.Alive q)
      (h : s.terminated = [])
  | closed (p : Pid) (hp : s.phase p = .destructed ∨ s.phase p = .exited)
      (hothers : ∀ q, q ≠ p → ¬ s.Alive q) (h : s.terminated = [p])

structure Inv (s : System) : Prop where
  locks : LocksHeld s
  stage : Stage s

section Steps

variable {s s' : System} {p q : Pid} {a : Action} {phase : Phase}

theorem System.phase_setPhase_self : (s.setPhase p phase).phase p = phase := by
  simp only [setPhase, Function.update_self]

theorem System.phase_setPhase_of_ne (hq : q ≠ p) : (s.setPhase p phase).phase q = s.phase q := by
  simp only [setPhase, Function.update_of_ne hq]

theorem System.phase_init_of_ne (hq : q ≠ 0) : init.phase q = .unborn := by
  simp only [init, Function.update_of_ne hq]

theorem System.exec_check_of_sole (h : statuslockIsSoleSurvivor p s.locks = true) :
    s.exec (.check p) = s.setPhase p .terminating := if_pos h

theorem System.exec_check_of_not_sole (h : ¬ statuslockIsSoleSurvivor p s.locks = true) :
    s.exec (.check p) = s.setPhase p .destructed := if_neg h

theorem inv_init : Inv System.init where
  locks := by
    intro q
    by_cases hq : q = 0
    · subst hq
      exact ⟨fun _ ↦ Or.inl rfl, fun _ ↦ List.mem_singleton_self 0⟩
    · rw [System.phase_init_of_ne hq]
      constructor
      · intro h
        exact absurd (List.mem_singleton.mp h) hq
      · rintro (h | h | h) <;> cases h
  stage := by
    refine Stage.pending 0 (Or.inr rfl) (fun q hq ↦ ?_) rfl
    by_cases h0 : q = 0
    · subst h0
      cases hq
    · rw [System.phase_init_of_ne h0] at hq
      cases hq

theorem LocksHeld.setPhase (h : LocksHeld s) (hphase : s'.phase = (s.setPhase p phase).phase)
    (hself : p ∈ s'.locks ↔ HoldsLock phase) (hothers : ∀ q, q ≠ p → (q ∈ s'.locks ↔ q ∈ s.locks)) :
    LocksHeld s' := by
  intro q
  rw [hphase]
  by_cases hq : q = p
  · subst hq
    rw [System.phase_setPhase_self]
    exact hself
  · rw [System.phase_setPhase_of_ne hq, hothers q hq]
    exact h q

theorem LocksHeld.step (h : LocksHeld s) (hen : s.Enabled a) : LocksHeld (s.exec a) := by
  cases a with
  | fork p c =>
    refine h.setPhase rfl ?_ fun _ _ ↦ Iff.rfl
    refine (h c).trans ?_
    rw [hen.2]
    constructor
    · rintro (h | h | h) <;> cases h
    · rintro (h | h | h) <;> cases h
  | handler c =>
    refine h.setPhase rfl ?_ fun q hq ↦ ?_
    · exact ⟨fun _ ↦ Or.inl rfl, fun _ ↦ mem_statuslockInstall.mpr (Or.inl rfl)⟩
    · exact mem_statuslockInstall.trans (or_iff_right hq)
  | check p =>
    have hlock : p ∈ s.locks := (h p).mpr (Or.inl hen)
    by_cases hsole : statuslockIsSoleSurvivor p s.locks = true
    · rw [System.exec_check_of_sole hsole]
      exact h.setPhase rfl ⟨fun _ ↦ Or.inr (Or.inl rfl), fun _ ↦ hlock⟩ fun _ _ ↦ Iff.rfl
    · rw [System.exec_check_of_not_sole hsole]
      exact h.setPhase rfl ⟨fun _ ↦ Or.inr (Or.inr rfl), fun _ ↦ hlock⟩ fun _ _ ↦ Iff.rfl
  | terminate p =>
    have hlock : p ∈ s.locks := (h p).mpr (Or.inr (Or.inl hen))
    exact h.setPhase rfl
      ⟨fun _ ↦ Or.inr (Or.inr rfl), fun _ ↦ hlock⟩ fun _ _ ↦ Iff.rfl
  | exit p =>
    refine h.setPhase rfl ?_ fun q hq ↦ ?_
    · constructor
      · intro hmem
        exact absurd rfl (of_decide_eq_true (List.mem_filter.mp hmem).2)
      · rintro (h | h | h) <;> cases h
    · exact List.mem_filter.trans (and_iff_left (decide_eq_true hq))

theorem System.alive_of_phase (hp : s.phase p = phase) (h : phase ≠ .unborn ∧ phase ≠ .exited) :
    s.Alive p := by
  unfold Alive
  rw [hp]
  exact h

theorem System.alive_of_before (hp : s.phase p = .forked ∨ s.phase p = .running) : s.Alive p := by
  rcases hp with hp | hp
  · exact alive_of_phase hp (by decide)
  · exact alive_of_phase hp (by decide)

theorem eq_of_alone (hothers : ∀ q, q ≠ p → ¬ s.Alive q) (hq : s.Alive q) : q = p := by
  by_contra hne
  exact hothers q hne hq

theorem Stage.of_before (h : Stage s) (hp : s.phase p = .forked ∨ s.phase p = .running) :
    (∀ q, s.phase q ≠ .terminating) ∧ s.terminated = [] := by
  have halive := System.alive_of_before hp
  cases h with
  | pending r hr hnone hterm => exact ⟨hnone, hterm⟩
  | closing r hr hothers hterm =>
    obtain rfl := eq_of_alone hothers halive
    rw [hr] at hp
    rcases hp with hp | hp <;> cases hp
  | closed r hr hothers hterm =>
    obtain rfl := eq_of_alone hothers halive
    rcases hr with hr | hr <;> rw [hr] at hp <;> rcases hp with hp | hp <;> cases hp

theorem Stage.of_terminating (h : Stage s) (hp : s.phase p = .terminating) :
    (∀ q, q ≠ p → ¬ s.Alive q) ∧ s.terminated = [] := by
  have halive : s.Alive p := System.alive_of_phase hp (by decide)
  cases h with
  | pending r hr hnone hterm => exact absurd hp (hnone p)
  | closing r hr hothers hterm =>
    obtain rfl := eq_of_alone hothers halive
    exact ⟨hothers, hterm⟩
  | closed r hr hothers hterm =>
    obtain rfl := eq_of_alone hothers halive
    rw [hp] at hr
    rcases hr with hr | hr <;> cases hr

theorem not_terminating_setPhase (h : ∀ q, s.phase q ≠ .terminating) (hphase : phase ≠ .terminating)
    (q : Pid) : (s.setPhase p phase).phase q ≠ .terminating := by
  by_cases hq : q = p
  · subst hq
    rw [System.phase_setPhase_self]
    exact hphase
  · rw [System.phase_setPhase_of_ne hq]
    exact h q

theorem not_alive_setPhase (h : ∀ q, q ≠ p → ¬ s.Alive q) (q : Pid) (hq : q ≠ p) :
    ¬ (s.setPhase p phase).Alive q := by
  unfold System.Alive
  rw [System.phase_setPhase_of_ne hq]
  exact h q hq

/-- When all processes have run their handlers, a process that sees no lock is alone. -/
theorem LocksHeld.not_alive (h : LocksHeld s) (hsole : statuslockIsSoleSurvivor p s.locks = true)
    (hforked : ∀ q, s.phase q ≠ .forked) (q : Pid) (hq : q ≠ p) : ¬ s.Alive q := by
  have hlock : ¬ HoldsLock (s.phase q) :=
    fun hq' ↦ statuslockIsSoleSurvivor_iff.mp hsole q hq ((h q).mpr hq')
  have hphase := hforked q
  rintro ⟨hborn, hexited⟩
  cases hq' : s.phase q with
  | unborn => exact hborn hq'
  | forked => exact hphase hq'
  | running => exact hlock (Or.inl hq')
  | terminating => exact hlock (Or.inr (Or.inl hq'))
  | destructed => exact hlock (Or.inr (Or.inr hq'))
  | exited => exact hexited hq'

theorem Inv.stage_step (h : Inv s) (hen : s.Enabled a) (hok : Orderly s a) :
    Stage (s.exec a) := by
  cases a with
  | fork p c =>
    obtain ⟨hnone, hterm⟩ := h.stage.of_before (Or.inr hen.1)
    exact .pending c (Or.inl System.phase_setPhase_self)
      (not_terminating_setPhase hnone (by decide)) hterm
  | handler c =>
    obtain ⟨hnone, hterm⟩ := h.stage.of_before (Or.inl hen)
    exact .pending c (Or.inr System.phase_setPhase_self)
      (not_terminating_setPhase hnone (by decide)) hterm
  | check p =>
    obtain ⟨hnone, hterm⟩ := h.stage.of_before (Or.inr hen)
    by_cases hsole : statuslockIsSoleSurvivor p s.locks = true
    · rw [Orderly, if_pos hsole] at hok
      rw [System.exec_check_of_sole hsole]
      exact .closing p System.phase_setPhase_self
        (not_alive_setPhase (h.locks.not_alive hsole hok)) hterm
    · rw [Orderly, if_neg hsole] at hok
      obtain ⟨q, hq, hbefore⟩ := hok
      rw [System.exec_check_of_not_sole hsole]
      refine .pending q ?_ (not_terminating_setPhase hnone (by decide)) hterm
      rw [System.phase_setPhase_of_ne hq]
      exact hbefore
  | terminate p =>
    obtain ⟨hothers, hterm⟩ := h.stage.of_terminating hen
    refine .closed p (Or.inl System.phase_setPhase_self) (not_alive_setPhase hothers) ?_
    exact congrArg (p :: ·) hterm
  | exit p =>
    have hp : s.phase p = .destructed := hen
    have halive : s.Alive p := System.alive_of_phase hp (by decide)
    cases h.stage with
    | pending q hq hnone hterm =>
      have hqp : q ≠ p := by
        rintro rfl
        rw [hp] at hq
        rcases hq with hq | hq <;> cases hq
      have hphase : (s.setPhase p .exited).phase q = s.phase q :=
        System.phase_setPhase_of_ne hqp
      rw [← hphase] at hq
      exact .pending q hq (not_terminating_setPhase hnone (by decide)) hterm
    | closing q hq hothers hterm =>
      obtain rfl := eq_of_alone hothers halive
      rw [hp] at hq
      cases hq
    | closed q hq hothers hterm =>
      obtain rfl := eq_of_alone hothers halive
      exact .closed p (Or.inr System.phase_setPhase_self) (not_alive_setPhase hothers) hterm

/-- **One step** keeps the invariant. -/
theorem Inv.step (h : Inv s) (hok : Orderly s a) (hstep : Step s a s') : Inv s' := by
  obtain ⟨hen, rfl⟩ := hstep
  exact ⟨h.locks.step hen, h.stage_step hen hok⟩

end Steps

/-! ## Whole runs -/

/-- A process that removes the semaphores is alone. -/
def Alone (s : System) (a : Action) : Prop :=
  ∀ p, a = .terminate p → ∀ q, q ≠ p → ¬ s.Alive q

/-- The semaphores are removed by a process that is alone, and when no process is left, one of
them has removed them. -/
structure RemovedByLast (t : List (Action × System)) : Prop where
  alone : RunOk Alone .init t
  once : ∀ s ∈ runStates .init t, (∀ q, ¬ s.Alive q) → ∃ p, s.terminated = [p]

theorem Stage.terminated_of_not_alive {s : System} (h : Stage s) (hs : ∀ q, ¬ s.Alive q) :
    ∃ p, s.terminated = [p] := by
  cases h with
  | pending p hp hnone hterm => exact absurd (System.alive_of_before hp) (hs p)
  | closing p hp hothers hterm => exact absurd (System.alive_of_phase hp (by decide)) (hs p)
  | closed p hp hothers hterm => exact ⟨p, hterm⟩

/-- **The last process removes the semaphores.**  In every run in which no process finds itself
alone before a child has run its handler, and in which not all remaining processes have asked
while they still see each other. -/
theorem removedByLast_of_orderly {t : List (Action × System)} (hrun : IsRun Step .init t)
    (hok : RunOk Orderly .init t) : RemovedByLast t := by
  have hstep : ∀ s a s', Inv s → Orderly s a → Step s a s' → Inv s' :=
    fun _ _ _ h hok hstep ↦ h.step hok hstep
  refine ⟨hrun.runOk_of_invariant hstep ?_ inv_init hok, fun s hs hnone ↦ ?_⟩
  · rintro s a s' h - ⟨hen, -⟩ p rfl
    exact (h.stage.of_terminating hen).1
  · exact (hrun.invariant hstep inv_init hok s hs).stage.terminated_of_not_alive hnone

/-- The steps of a program that forks a child, which exits first. -/
def forkAndWait : List Action :=
  [.fork 0 1, .handler 1, .check 1, .exit 1, .check 0, .terminate 0, .exit 0]

/-- The process whose phase a step changes. -/
def Action.subject : Action → Pid
  | .fork _ c => c
  | .handler p | .check p | .terminate p | .exit p => p

theorem System.phase_exec_of_ne {s : System} {a : Action} {q : Pid} (hq : q ≠ a.subject) :
    (s.exec a).phase q = s.phase q := by
  cases a with
  | fork p c => exact phase_setPhase_of_ne hq
  | handler c => exact phase_setPhase_of_ne hq
  | check p =>
    by_cases hsole : statuslockIsSoleSurvivor p s.locks = true
    · rw [exec_check_of_sole hsole]
      exact phase_setPhase_of_ne hq
    · rw [exec_check_of_not_sole hsole]
      exact phase_setPhase_of_ne hq
  | terminate p => exact phase_setPhase_of_ne hq
  | exit p => exact phase_setPhase_of_ne hq

theorem System.phase_foldl_of_two {as : List Action} (has : ∀ a ∈ as, a.subject = 0 ∨ a.subject = 1)
    {q : Pid} (h₀ : q ≠ 0) (h₁ : q ≠ 1) : (as.foldl exec init).phase q = .unborn := by
  have hkeep : ∀ s : System, (as.foldl exec s).phase q = s.phase q := by
    induction as with
    | nil => exact fun _ ↦ rfl
    | cons a as ih =>
      intro s
      have hq : q ≠ a.subject := by
        rcases has a List.mem_cons_self with ha | ha
        · rw [ha]
          exact h₀
        · rw [ha]
          exact h₁
      exact (ih (fun a ha ↦ has a (List.mem_cons_of_mem _ ha)) _).trans (phase_exec_of_ne hq)
  exact (hkeep init).trans (phase_init_of_ne h₀)

/-- A run to which the theorem applies. -/
theorem removedByLast_forkAndWait :
    IsRun Step .init (trace System.exec .init forkAndWait) ∧
      RunOk Orderly .init (trace System.exec .init forkAndWait) ∧
      RemovedByLast (trace System.exec .init forkAndWait) := by
  have henabled : RunOk System.Enabled .init (trace System.exec .init forkAndWait) := by
    decide
  have hrun : IsRun Step .init (trace System.exec .init forkAndWait) :=
    isRun_trace (henabled.mono fun _ _ h ↦ ⟨h, rfl⟩)
  have hok : RunOk Orderly .init (trace System.exec .init forkAndWait) := by
    refine ⟨trivial, trivial, ?_, trivial, ?_, trivial, trivial, trivial⟩
    · rw [Orderly, if_neg (by decide)]
      exact ⟨0, by decide, Or.inr rfl⟩
    · rw [Orderly, if_pos (by decide)]
      intro q
      by_cases h₀ : q = 0
      · subst h₀
        decide
      · by_cases h₁ : q = 1
        · subst h₁
          decide
        · have hsteps : ∀ a ∈ [Action.fork 0 1, .handler 1, .check 1, .exit 1],
              a.subject = 0 ∨ a.subject = 1 := by decide
          intro hforked
          cases hforked.symm.trans (System.phase_foldl_of_two hsteps h₀ h₁)
  exact ⟨hrun, hok, removedByLast_of_orderly hrun hok⟩

/-- The parent asks before the child has run its handler. -/
def checkBeforeHandler : List Action := [.fork 0 1, .check 0, .terminate 0]

/-- Parent and child ask before either of them exits. -/
def checkTogether : List Action := [.fork 0 1, .handler 1, .check 0, .check 1, .exit 0, .exit 1]

/-- The semaphores are removed while the child is alive, or they are never removed. -/
theorem not_removedByLast :
    ¬ (∀ t, IsRun Step .init t → RunOk Alone .init t) ∧
      ¬ ∀ t, IsRun Step .init t → ∀ s ∈ runStates .init t, (∀ q, ¬ s.Alive q) →
        ∃ p, s.terminated = [p] := by
  constructor
  · intro hall
    have henabled : RunOk System.Enabled .init (trace System.exec .init checkBeforeHandler) := by
      decide
    have halone := hall _ (isRun_trace (henabled.mono fun _ _ h ↦ ⟨h, rfl⟩))
    exact halone.2.2.1 0 rfl 1 (by decide) ⟨by decide, by decide⟩
  · intro hall
    have henabled : RunOk System.Enabled .init (trace System.exec .init checkTogether) := by
      decide
    have hgone : ∀ q, ¬ (checkTogether.foldl System.exec .init).Alive q := by
      rintro q ⟨hborn, hexited⟩
      by_cases h₀ : q = 0
      · subst h₀
        exact hexited rfl
      · by_cases h₁ : q = 1
        · subst h₁
          exact hexited rfl
        · exact hborn (System.phase_foldl_of_two (by decide) h₀ h₁)
    obtain ⟨p, hp⟩ := hall _ (isRun_trace (henabled.mono fun _ _ h ↦ ⟨h, rfl⟩)) _
      (foldl_mem_runStates_trace System.exec .init checkTogether) hgone
    cases hp

end Cali.Ipc.StatusLock
