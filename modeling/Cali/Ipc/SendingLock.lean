import Mathlib.Data.Int.Notation
import Mathlib.Logic.Basic
import Cali.Lib.Run

/-!
# The sending lock

With `concurrentLibraryCommunication` a thread of the program takes the sending lock before
it triggers a call.  `wait_for_return` gives it back when a message arrives, and before the
thread answers the message it takes it again: the generated handlers of callbacks and of
functions end with `ipc_lock_sending`.  Messages for the internal functions, with the codes
3 to 8, are served under the lock.

The model is for one thread of the program.  The codes are what the library process writes.
A code is taken to be read once per message; the source reads it from the shared segment twice.
A callback or a function of the program can call the library again, so activations of
`wait_for_return` nest.
-/

namespace Cali.Ipc.SendingLock

open Cali.Lib

/-- Where an activation of `wait_for_return` is: at the `semop`, or in the callback or the
function that a message with this code has called. -/
inductive Phase
  | waiting
  | serving (code : ℤ)
deriving DecidableEq, Repr

/-- The thread: the value of the semaphore of the lock, the activations of `wait_for_return`,
innermost first, and the values that the semaphore had at the replies and after the returns. -/
structure State where
  lock : ℕ
  frames : List Phase
  exited : Bool
  replies : List ℕ
  returns : List ℕ
deriving DecidableEq, Repr

/-- The codes for which the lock is given back and taken again. -/
def interruptible (code : ℤ) : Bool := decide (code ≤ 2 ∨ 8 < code)

namespace State

/-- The `semop` that sends a reply. -/
def sendReply (s : State) : State := { s with replies := s.lock :: s.replies }

/-- `wait_for_return` from the receipt of a message on, to the point where it waits again or a
callback or a function is called.  `handled` are the codes that the dispatcher has a case
for; its default branch and an invalid return code lead to the reply at once. -/
def receive (handled : ℤ → Bool) (s : State) (code : ℤ) : State :=
  let s := if interruptible code = true then { s with lock := s.lock + 1 } else s
  match s.frames with
  | [] => s
  | _ :: frames =>
    if code = 1 then { s with frames := frames, returns := s.lock :: s.returns }
    else if code = -1 then { s with exited := true }
    else if code = 2 then { s with frames := .serving code :: frames }
    else if 2 < code ∧ handled code = true then { s with frames := .serving code :: frames }
    else s.sendReply

/-- The callback or the function has returned: its handler takes the lock, and the reply is
sent. -/
def finish (s : State) : State :=
  match s.frames with
  | .serving code :: frames =>
    let s := if interruptible code = true then { s with lock := s.lock - 1 } else s
    { s with frames := .waiting :: frames }.sendReply
  | _ => s

/-- A generated wrapper takes the lock, triggers the call and waits. -/
def call (s : State) : State := { s with lock := s.lock - 1, frames := .waiting :: s.frames }

/-- One thread that has taken the lock and triggered a call. -/
def init : State := ⟨0, [.waiting], false, [], []⟩

end State

inductive Action
  | receive (code : ℤ)
  | finish
  | call
deriving DecidableEq, Repr

/-- A message can be received by a waiting thread; taking the lock blocks while the semaphore
is zero. -/
def enabled (s : State) : Action → Bool
  | .receive _ => !s.exited && decide (s.frames.head? = some .waiting)
  | .finish => !s.exited &&
      match s.frames with
      | .serving code :: _ => !interruptible code || decide (0 < s.lock)
      | _ => false
  | .call => !s.exited && decide (s.frames.head? ≠ some .waiting) && decide (0 < s.lock)

def exec (handled : ℤ → Bool) (s : State) : Action → State
  | .receive code => s.receive handled code
  | .finish => s.finish
  | .call => s.call

def Step (handled : ℤ → Bool) (s : State) (a : Action) (s' : State) : Prop :=
  enabled s a = true ∧ s' = exec handled s a

/-- **The lock is balanced**: the semaphore is at most one, it is zero at every reply, and it
is one after every return. -/
structure Balanced (s : State) : Prop where
  lock : s.lock ≤ 1
  replies : ∀ v ∈ s.replies, v = 0
  returns : ∀ v ∈ s.returns, v = 1

/-- The message is a return or an exit, or there is a handler that takes the lock again: a
callback, an internal function or a function that the dispatcher knows. -/
def Answered (handled : ℤ → Bool) : Action → Prop
  | .receive code => code = -1 ∨ 1 ≤ code ∧ (code ≤ 8 ∨ handled code = true)
  | _ => True

instance (handled : ℤ → Bool) (a : Action) : Decidable (Answered handled a) := by
  cases a <;> unfold Answered <;> infer_instance

/-! ## The invariant -/

section Proof

variable {handled : ℤ → Bool} {s s' : State} {a : Action} {code : ℤ}

/-- The value of the semaphore, by where the thread is. -/
def value : List Phase → ℕ
  | [] => 1
  | .waiting :: _ => 0
  | .serving code :: _ => if interruptible code = true then 1 else 0

/-- An activation that has been left for a further call has given the lock back. -/
def Suspended (p : Phase) : Prop := ∃ code, p = .serving code ∧ interruptible code = true

structure Inv (s : State) : Prop where
  balanced : Balanced s
  lock : s.exited = false → s.lock = value s.frames
  suspended : ∀ p ∈ s.frames.tail, Suspended p

theorem value_of_suspended {frames : List Phase} (h : ∀ p ∈ frames, Suspended p) :
    value frames = 1 := by
  cases frames with
  | nil => rfl
  | cons p frames =>
    obtain ⟨code, rfl, hcode⟩ := h p List.mem_cons_self
    exact if_pos hcode

theorem Balanced.sendReply (h : Balanced s) (hlock : s.lock = 0) : Balanced s.sendReply where
  lock := h.lock
  replies := List.forall_mem_cons.mpr ⟨hlock, h.replies⟩
  returns := h.returns

theorem value_le_one (frames : List Phase) : value frames ≤ 1 := by
  unfold value
  split
  · exact Nat.le_refl 1
  · exact Nat.zero_le 1
  · split
    · exact Nat.le_refl 1
    · exact Nat.zero_le 1

theorem interruptible_iff : interruptible code = true ↔ code ≤ 2 ∨ 8 < code := decide_eq_true_iff

theorem Inv.waiting (h : Inv s) (henabled : enabled s (.receive code) = true) :
    ∃ frames, s.frames = .waiting :: frames ∧ s.exited = false ∧ s.lock = 0 ∧
      ∀ p ∈ frames, Suspended p := by
  simp only [enabled, Bool.and_eq_true, Bool.not_eq_true', decide_eq_true_eq] at henabled
  obtain ⟨hexited, hhead⟩ := henabled
  have hlock := h.lock hexited
  have hsuspended := h.suspended
  match hframes : s.frames, hhead with
  | .waiting :: frames, _ =>
    rw [hframes] at hlock hsuspended
    exact ⟨frames, rfl, hexited, hlock, hsuspended⟩

/-- **A message** that is answered. -/
theorem Inv.receive (h : Inv s) (henabled : enabled s (.receive code) = true)
    (hanswered : Answered handled (.receive code)) : Inv (s.receive handled code) := by
  obtain ⟨frames, hframes, hexited, hlock, hsuspended⟩ := h.waiting henabled
  have hbalanced := h.balanced
  obtain ⟨lock, _, exited, replies, returns⟩ := s
  dsimp only at hframes hexited hlock
  subst hframes hexited hlock
  unfold State.receive
  by_cases hone : code = 1
  · subst hone
    exact ⟨⟨Nat.le_refl 1, hbalanced.replies, List.forall_mem_cons.mpr ⟨rfl, hbalanced.returns⟩⟩,
      fun _ ↦ (value_of_suspended hsuspended).symm,
      fun p hp ↦ hsuspended p (List.mem_of_mem_tail hp)⟩
  by_cases hexit : code = -1
  · subst hexit
    exact ⟨⟨Nat.le_refl 1, hbalanced.replies, hbalanced.returns⟩, nofun, hsuspended⟩
  have hpos : 1 < code := by
    rcases hanswered with h | ⟨h, -⟩
    · exact absurd h hexit
    · omega
  -- the activation serves the message, with the value of the lock that belongs to its code
  have hserving : ∀ v, v = value (.serving code :: frames) →
      Inv ⟨v, .serving code :: frames, false, replies, returns⟩ := by
    rintro v rfl
    exact ⟨⟨value_le_one (.serving code :: frames), hbalanced.replies, hbalanced.returns⟩,
      fun _ ↦ rfl, hsuspended⟩
  by_cases hint : interruptible code = true
  · have hhandled : code = 2 ∨ 2 < code ∧ handled code = true := by
      rcases interruptible_iff.mp hint with h | h
      · exact Or.inl (by omega)
      · refine Or.inr ⟨by omega, ?_⟩
        rcases hanswered with h | ⟨-, h | h⟩
        · exact absurd h hexit
        · omega
        · exact h
    simp only [hint, hone, hexit, ↓reduceIte]
    rcases hhandled with h | h
    · rw [if_pos h]
      exact hserving 1 (if_pos hint).symm
    · rw [if_neg (by omega), if_pos h]
      exact hserving 1 (if_pos hint).symm
  · have htwo : code ≠ 2 := fun h ↦ hint (interruptible_iff.mpr (by omega))
    simp only [hint, hone, hexit, htwo, Bool.false_eq_true, ↓reduceIte]
    split
    · exact hserving 0 (if_neg hint).symm
    · exact ⟨hbalanced.sendReply rfl, fun _ ↦ rfl, hsuspended⟩

/-- **The end of a callback or a function**: its handler takes the lock that was given back. -/
theorem Inv.finish (h : Inv s) (henabled : enabled s .finish = true) : Inv s.finish := by
  obtain ⟨hbalanced, hlock, hsuspended⟩ := h
  obtain ⟨hexited, hserving⟩ := (Bool.and_eq_true ..).mp henabled
  obtain ⟨lock, frames, exited, replies, returns⟩ := s
  replace hlock := hlock (by simpa using hexited)
  match frames, hserving with
  | .serving code :: frames, _ =>
    have hreply : Inv (State.sendReply ⟨0, .waiting :: frames, exited, replies, returns⟩) :=
      ⟨Balanced.sendReply ⟨Nat.zero_le 1, hbalanced.replies, hbalanced.returns⟩ rfl,
        fun _ ↦ rfl, hsuspended⟩
    dsimp only [value] at hlock
    unfold State.finish
    by_cases hint : interruptible code = true
    · rw [if_pos hint] at hlock
      simpa only [hint, hlock, ↓reduceIte, Nat.sub_self] using hreply
    · rw [if_neg hint] at hlock
      simpa only [hint, hlock, Bool.false_eq_true, ↓reduceIte] using hreply

/-- **A further call**: the thread has the lock to take only where it has given it back. -/
theorem Inv.call (h : Inv s) (henabled : enabled s .call = true) : Inv s.call := by
  simp only [enabled, Bool.and_eq_true, Bool.not_eq_true', decide_eq_true_eq] at henabled
  obtain ⟨⟨hexited, hhead⟩, hpos⟩ := henabled
  have hlock := h.lock hexited
  refine ⟨⟨Nat.le_trans (Nat.sub_le ..) h.balanced.lock, h.balanced.replies, h.balanced.returns⟩,
    fun _ ↦ Nat.sub_eq_zero_of_le h.balanced.lock, ?_⟩
  show ∀ p ∈ s.frames, Suspended p
  have hsuspended := h.suspended
  match hframes : s.frames with
  | [] => nofun
  | .waiting :: _ => exact absurd (congrArg List.head? hframes) hhead
  | .serving code :: frames =>
    rw [hframes] at hlock hsuspended
    have hint : interruptible code = true := by
      by_contra hint
      rw [hlock, value, if_neg hint] at hpos
      exact absurd hpos (Nat.lt_irrefl 0)
    exact List.forall_mem_cons.mpr ⟨⟨code, rfl, hint⟩, hsuspended⟩

theorem Inv.step (h : Inv s) (hstep : Step handled s a s') (hanswered : Answered handled a) :
    Inv s' := by
  obtain ⟨henabled, rfl⟩ := hstep
  cases a with
  | receive code => exact h.receive henabled hanswered
  | finish => exact h.finish henabled
  | call => exact h.call henabled

theorem Inv.init : Inv .init :=
  ⟨⟨Nat.zero_le 1, nofun, nofun⟩, fun _ ↦ rfl, nofun⟩

/-- **A message that is not answered** has its reply sent after the lock has been given back. -/
theorem receive_of_not_answered (h : Inv s) (henabled : enabled s (.receive code) = true)
    (hanswered : ¬ Answered handled (.receive code)) :
    1 ∈ (s.receive handled code).replies := by
  obtain ⟨frames, hframes, -, hlock, -⟩ := h.waiting henabled
  obtain ⟨lock, _, exited, replies, returns⟩ := s
  dsimp only at hframes hlock
  subst hframes hlock
  have hint : interruptible code = true := by
    refine interruptible_iff.mpr ?_
    by_contra hcode
    exact hanswered (Or.inr ⟨by omega, Or.inl (by omega)⟩)
  have hone : code ≠ 1 := fun h ↦ hanswered (Or.inr ⟨by omega, Or.inl (by omega)⟩)
  have hexit : code ≠ -1 := fun h ↦ hanswered (Or.inl h)
  have htwo : code ≠ 2 := fun h ↦ hanswered (Or.inr ⟨by omega, Or.inl (by omega)⟩)
  have hhandled : ¬ (2 < code ∧ handled code = true) :=
    fun h ↦ hanswered (Or.inr ⟨by omega, Or.inr h.2⟩)
  simp only [State.receive, hint, hone, hexit, htwo, hhandled, ↓reduceIte]
  exact List.mem_cons_self

/-- **The lock stays balanced in exactly the runs whose messages are answered.** -/
theorem balanced_iff {t : List (Action × State)} (hrun : IsRun (Step handled) .init t) :
    (∀ s ∈ runStates .init t, Balanced s) ↔ RunOk (fun _ a ↦ Answered handled a) .init t := by
  have hpreserved : ∀ s a s', Inv s → Answered handled a → Step handled s a s' → Inv s' :=
    fun s a s' h hanswered hstep ↦ h.step hstep hanswered
  constructor
  · refine hrun.runOk hpreserved ?_ Inv.init
    rintro s a _ h ⟨henabled, rfl⟩ hbalanced
    cases a with
    | receive code =>
      -- the reply to a message that is not answered is sent with a value of one
      by_contra hanswered
      exact absurd (hbalanced.replies 1 (receive_of_not_answered h henabled hanswered))
        Nat.one_ne_zero
    | finish => trivial
    | call => trivial
  · intro hanswered s hs
    exact (hrun.invariant hpreserved Inv.init hanswered s hs).balanced

/-- The internal functions are the only cases of the dispatcher of the program. -/
def internal (code : ℤ) : Bool := decide (3 ≤ code ∧ code ≤ 8)

/-- A callback that calls the library again, which lets the program execute an internal
function before it returns; the callback and the first call return after it. -/
theorem balanced_nested :
    ∃ t : List (Action × State), t.length = 7 ∧ IsRun (Step internal) .init t ∧
      ∀ s ∈ runStates .init t, Balanced s := by
  let t := trace (exec internal) .init
    [.receive 2, .call, .receive 5, .finish, .receive 1, .finish, .receive 1]
  have hrun : IsRun (Step internal) .init t := by
    refine isRun_trace ?_
    simp only [Step, and_true]
    decide
  exact ⟨t, rfl, hrun, (balanced_iff hrun).mpr (by decide)⟩

/-- A message with a code that the dispatcher has no case for, and a return: the semaphore has
the value two. -/
theorem not_balanced_invalidFunction :
    ∃ t : List (Action × State), IsRun (Step internal) .init t ∧
      t.map Prod.fst = [.receive 9, .receive 1] ∧
      ∃ s ∈ runStates .init t, s.lock = 2 ∧ s.replies = [1] ∧ s.returns = [2] ∧ ¬ Balanced s := by
  let t := trace (exec internal) .init [.receive 9, .receive 1]
  have hrun : IsRun (Step internal) .init t := by
    refine isRun_trace ?_
    simp only [Step, and_true]
    decide
  exact ⟨t, hrun, rfl, ⟨2, [], false, [1], [2]⟩, by decide, rfl, rfl, rfl,
    fun h ↦ absurd h.lock (by decide)⟩

end Proof

end Cali.Ipc.SendingLock
