import Mathlib.Data.List.Basic
import Mathlib.Data.Int.Notation
import Mathlib.Logic.Basic
import Mathlib.Logic.Function.Basic
import Cali.Lib.Run

/-!
# Handing the token over

`ipc_communication.cpp` lets two processes call each other.  Each one has a buffer it
writes and a semaphore it waits on; a call writes a request into the buffer, posts the
semaphore of the other process and enters `wait_for_return`, and the loop there serves
the requests of the other process until the reply to the call arrives.  Serving a
request may call the other process again, so activations of `wait_for_return` nest in
both processes.

The model is for one thread in each process and without the sending lock.  A step is a
call (`trigger_ipc_call` by a generated wrapper or callback, which then waits), the
receipt of a message in `wait_for_return`, or the end of a handler with the reply that
`wait_for_return` sends for it.  `sending_is_blocked` belongs to one process and only
that process reads it, so a `semop` and the assignment next to it are one step.  What a
message belongs to is recorded in it as the number of a trigger, and a log keeps what
has happened; the code reads neither.
-/

namespace Cali.Ipc

open Cali.Lib

/-- The two processes. -/
inductive Side
  | main
  | library
deriving DecidableEq, Repr

/-- The process at the other end. -/
def Side.other : Side → Side
  | .main => .library
  | .library => .main

/-- A buffer: the code, and the trigger that the message asks for or answers. -/
structure Message where
  code : ℤ
  id : ℕ
deriving DecidableEq, Repr

/-- An activation of `wait_for_return`: the trigger it waits for, none in
`child_process_main`, and the message whose handler it is executing. -/
structure Wait where
  trigger : Option ℕ
  serving : Option Message
deriving DecidableEq, Repr

/-- One of the processes: the activations of `wait_for_return`, innermost first, and the
buffer it writes. -/
structure Process where
  sendingIsBlocked : Bool
  waits : List Wait
  sendingData : Message
  ended : Bool
deriving DecidableEq, Repr

/-- The places that print a warning: in `trigger_ipc_call`, after a receipt, and before
a response. -/
inductive Warning
  | trigger
  | receive
  | response
deriving DecidableEq, Repr

/-- What the log keeps. -/
inductive Event
  | trigger (side : Side) (id : ℕ)
  | reply (side : Side) (id : ℕ)
  | returned (side : Side) (m : Message)
  | warn (side : Side) (w : Warning)
deriving DecidableEq, Repr

/-- The state: `semaphore i` is the one the process `i` waits on. -/
structure State where
  process : Side → Process
  semaphore : Side → ℕ
  next : ℕ
  log : List Event

namespace Process

/-- The process is at the `semop` of `wait_for_return`. -/
def waiting (p : Process) : Bool :=
  match p.waits with
  | [] => false
  | w :: _ => w.serving.isNone

/-- The process executes the program or a handler. -/
def running (p : Process) : Bool := !p.ended && !p.waiting

/-- What `wait_for_return` does with a message.  The reply ends the activation, and with
it the library process if this is the activation of `child_process_main`.  For any other
code except the request to exit the loop goes on to a response: after the callback,
after the processor, or, for a code that is not valid, at once. -/
def dispatch (p : Process) (m : Message) : Process :=
  match p.waits with
  | [] => p
  | w :: waits =>
    if m.code = 1 then { p with waits := waits, ended := w.trigger.isNone }
    else if m.code = -1 then { p with ended := true }
    else { p with waits := { w with serving := some m } :: waits }

/-- The end of a handler: callbacks and processors leave the code 1 in the buffer. -/
def respond (p : Process) : Process :=
  match p.waits with
  | ⟨t, some m⟩ :: waits =>
    { p with
      waits := ⟨t, none⟩ :: waits
      sendingData := if 2 ≤ m.code then ⟨1, m.id⟩ else p.sendingData }
  | _ => p

/-- The trigger whose handler ends. -/
def served (p : Process) : Option ℕ := p.waits.head?.bind (·.serving.map (·.id))

end Process

/-- A warning if the flag has the wrong value. -/
def warnIf (b : Bool) (i : Side) (w : Warning) : List Event := if b then [.warn i w] else []

namespace State

/-- A generated wrapper writes a request with the code, and calls `trigger_ipc_call` and
`wait_for_return`. -/
def call (s : State) (i : Side) (code : ℤ) : State where
  process := Function.update s.process i
    { s.process i with
      sendingData := ⟨code, s.next⟩
      sendingIsBlocked := true
      waits := ⟨some s.next, none⟩ :: (s.process i).waits }
  semaphore := Function.update s.semaphore i.other (s.semaphore i.other + 1)
  next := s.next + 1
  log := warnIf (s.process i).sendingIsBlocked i .trigger ++ .trigger i s.next :: s.log

/-- `wait_for_return` receives a message. -/
def receive (s : State) (i : Side) : State :=
  let m := (s.process i.other).sendingData
  { s with
    process := Function.update s.process i
      ({ s.process i with sendingIsBlocked := false }.dispatch m)
    semaphore := Function.update s.semaphore i (s.semaphore i - 1)
    log := (if m.code = 1 then [.returned i m] else []) ++
      warnIf (!(s.process i).sendingIsBlocked) i .receive ++ s.log }

/-- A handler ends and `wait_for_return` sends the response. -/
def reply (s : State) (i : Side) : State :=
  { s with
    process := Function.update s.process i
      { (s.process i).respond with sendingIsBlocked := true }
    semaphore := Function.update s.semaphore i.other (s.semaphore i.other + 1)
    log := warnIf (s.process i).sendingIsBlocked i .response ++
      (s.process i).served.toList.map (.reply i) ++ s.log }

end State

/-- The steps of the processes. -/
inductive Action
  | call (side : Side) (code : ℤ)
  | receive (side : Side)
  | reply (side : Side)
deriving DecidableEq, Repr

namespace State

/-- The process can take the step.  The codes of requests are 2 for callbacks, 3 to 8 for
the internal services, and larger for functions. -/
def enabled (s : State) : Action → Bool
  | .call i code => (s.process i).running && decide (2 ≤ code)
  | .receive i => !(s.process i).ended && (s.process i).waiting && decide (0 < s.semaphore i)
  | .reply i => (s.process i).running && (s.process i).served.isSome

/-- The step. -/
def exec (s : State) : Action → State
  | .call i code => s.call i code
  | .receive i => s.receive i
  | .reply i => s.reply i

/-- After the fork: the main process runs and the library process waits in
`child_process_main`. -/
def init : State where
  process
    | .main => ⟨false, [], ⟨0, 0⟩, false⟩
    | .library => ⟨true, [⟨none, none⟩], ⟨0, 0⟩, false⟩
  semaphore _ := 0
  next := 0
  log := []

end State

/-- The steps that programs on the two sides can take. -/
def Step (s : State) (a : Action) (s' : State) : Prop := s.enabled a = true ∧ s' = s.exec a

/-! ## What is to be shown -/

/-- The triggers of a process that have not been answered, the most recent one first. -/
def unanswered (i : Side) : List Event → List ℕ
  | [] => []
  | .trigger j id :: log => if j = i then id :: unanswered i log else unanswered i log
  | .returned j m :: log => if j = i then (unanswered i log).erase m.id else unanswered i log
  | .reply _ _ :: log => unanswered i log
  | .warn _ _ :: log => unanswered i log

/-- Each `wait_for_return` that has returned has consumed the reply, sent by the other
process, to the most recent trigger of its process that had not been answered. -/
def Answered (log : List Event) : Prop :=
  ∀ newer i m older, log = newer ++ .returned i m :: older →
    m.code = 1 ∧ .reply i.other m.id ∈ older ∧ (unanswered i older).head? = some m.id

/-- One of the processes has the token, or it is on its way. -/
structure TokenOk (s : State) : Prop where
  phase : Xor
    (∃ i, (s.process i).running = true ∧ (s.process i.other).waiting = true ∧
      ∀ k, s.semaphore k = 0)
    (∃ i, s.semaphore i = 1 ∧ s.semaphore i.other = 0 ∧ ∀ k, (s.process k).waiting = true)
  blocked : ∀ i, (s.process i).sendingIsBlocked = true ↔ ¬ (s.process i).running = true
  no_warning : ∀ i w, .warn i w ∉ s.log
  answered : Answered s.log

/-! ## The invariant -/

@[simp] theorem Side.other_other (i : Side) : i.other.other = i := by
  cases i <;> rfl

@[simp] theorem Side.other_ne (i : Side) : i.other ≠ i := by
  cases i <;> decide

@[simp] theorem Side.ne_other (i : Side) : i ≠ i.other := i.other_ne.symm

theorem Side.eq_or_eq_other (i k : Side) : k = i ∨ k = i.other := by
  cases i <;> cases k <;> decide

/-- **How the two stacks grow into each other**: `Nest i a b` says that `i` runs with the
activations `a` and the other process waits with the activations `b`.  Each request adds
an activation to the process that sends it, and is served by the innermost activation of
the other one. -/
inductive Nest : Side → List Wait → List Wait → Prop
  | start : Nest .main [] [⟨none, none⟩]
  | serve {i : Side} {a b : List Wait} {t : Option ℕ} {m : Message} :
      Nest i a (⟨t, none⟩ :: b) → 2 ≤ m.code →
      Nest i.other (⟨t, some m⟩ :: b) (⟨some m.id, none⟩ :: a)

/-- Both processes wait, `i` for the reply to its request `n`, and `k` can receive a message. -/
structure Waiting (s : State) (i k : Side) (a b : List Wait) (t : Option ℕ) (n : ℕ) : Prop where
  nest : Nest i a (⟨t, none⟩ :: b)
  waits : (s.process i).waits = ⟨some n, none⟩ :: a
  waits_other : (s.process i.other).waits = ⟨t, none⟩ :: b
  one : s.semaphore k = 1
  zero : s.semaphore k.other = 0
  blocked : ∀ k, (s.process k).sendingIsBlocked = true

/-- Where the token is: a process runs, or its request is on its way to the other
process, or the reply to its request is on the way back. -/
inductive Phase (s : State) : Prop
  | running (i : Side) (nest : Nest i (s.process i).waits (s.process i.other).waits)
      (zero : ∀ k, s.semaphore k = 0) (free : (s.process i).sendingIsBlocked = false)
      (blocked : (s.process i.other).sendingIsBlocked = true)
  | calling (i : Side) {a b : List Wait} {t : Option ℕ}
      (wait : Waiting s i i.other a b t (s.process i).sendingData.id)
      (sent : 2 ≤ (s.process i).sendingData.code)
  | answering (i : Side) {a b : List Wait} {t : Option ℕ} {n : ℕ} (wait : Waiting s i i a b t n)
      (sent : (s.process i.other).sendingData = ⟨1, n⟩) (logged : .reply i.other n ∈ s.log)

/-- The invariant. -/
structure Inv (s : State) : Prop where
  phase : Phase s
  not_ended : ∀ i, (s.process i).ended = false
  no_warning : ∀ i w, .warn i w ∉ s.log
  answered : Answered s.log
  pending : ∀ i, unanswered i s.log = (s.process i).waits.filterMap (·.trigger)

variable {s s' : State} {i k : Side} {a b : List Wait}

theorem Nest.waiting (h : Nest i a b) : ∃ t c, b = ⟨t, none⟩ :: c := by
  cases h with
  | start => exact ⟨none, [], rfl⟩
  | serve => exact ⟨_, _, rfl⟩

theorem Nest.not_waiting (h : Nest i a b) : ∀ t c, a ≠ ⟨t, none⟩ :: c := by
  cases h <;> simp

theorem Process.waiting_iff {p : Process} :
    p.waiting = true ↔ ∃ t c, p.waits = ⟨t, none⟩ :: c := by
  unfold Process.waiting
  cases p.waits with
  | nil => simp
  | cons w c =>
    obtain ⟨t, serving⟩ := w
    simp

theorem Inv.running_iff (h : Inv s) :
    (s.process i).running = true ↔ ¬ (s.process i).waiting = true := by
  simp [Process.running, h.not_ended i]

theorem Nest.waiting_process {p : Process} (h : Nest i a p.waits) : p.waiting = true :=
  Process.waiting_iff.mpr h.waiting

theorem Nest.not_waiting_process {p : Process} (h : Nest i p.waits b) : ¬ p.waiting = true :=
  fun hw ↦ by
    obtain ⟨t, c, htc⟩ := Process.waiting_iff.mp hw
    exact h.not_waiting t c htc

theorem Phase.running_or_waiting (h : Phase s) :
    (∃ i, Nest i (s.process i).waits (s.process i.other).waits ∧ (∀ k, s.semaphore k = 0) ∧
      (s.process i).sendingIsBlocked = false ∧ (s.process i.other).sendingIsBlocked = true) ∨
    ∃ i, s.semaphore i = 1 ∧ s.semaphore i.other = 0 ∧
      ∀ k, (s.process k).waiting = true ∧ (s.process k).sendingIsBlocked = true := by
  have hboth : ∀ {i j a b t n}, Waiting s i j a b t n → ∀ k, (s.process k).waiting = true := by
    intro i j a b t n h k
    rcases Side.eq_or_eq_other i k with rfl | rfl
    · exact Process.waiting_iff.mpr ⟨_, _, h.waits⟩
    · exact Process.waiting_iff.mpr ⟨_, _, h.waits_other⟩
  cases h with
  | running i nest zero free blocked => exact Or.inl ⟨i, nest, zero, free, blocked⟩
  | calling i wait sent =>
    exact Or.inr ⟨i.other, wait.one, wait.zero, fun k ↦ ⟨hboth wait k, wait.blocked k⟩⟩
  | answering i wait sent logged =>
    exact Or.inr ⟨i, wait.one, wait.zero, fun k ↦ ⟨hboth wait k, wait.blocked k⟩⟩

theorem Inv.running_phase (h : Inv s) (hi : (s.process i).running = true) :
    Nest i (s.process i).waits (s.process i.other).waits ∧ (∀ k, s.semaphore k = 0) ∧
      (s.process i).sendingIsBlocked = false ∧ (s.process i.other).sendingIsBlocked = true := by
  rw [h.running_iff] at hi
  rcases h.phase.running_or_waiting with ⟨j, hj⟩ | ⟨j, -, -, hwait⟩
  · rcases Side.eq_or_eq_other j i with rfl | rfl
    · exact hj
    · exact absurd hj.1.waiting_process hi
  · exact absurd (hwait i).1 hi

/-- **The invariant says where the token is.** -/
theorem Inv.tokenOk (h : Inv s) : TokenOk s := by
  refine ⟨?_, fun i ↦ ?_, h.no_warning, h.answered⟩
  · rcases h.phase.running_or_waiting with ⟨i, nest, zero, -⟩ | ⟨i, one, zero, hwait⟩
    · refine Or.inl ⟨⟨i, h.running_iff.mpr nest.not_waiting_process, nest.waiting_process,
        zero⟩, ?_⟩
      rintro ⟨k, hk, -⟩
      exact nomatch (zero k).symm.trans hk
    · refine Or.inr ⟨⟨i, one, zero, fun k ↦ (hwait k).1⟩, ?_⟩
      rintro ⟨k, -, -, hk⟩
      exact nomatch (hk i).symm.trans one
  · rw [h.running_iff, not_not]
    rcases h.phase.running_or_waiting with ⟨j, nest, -, free, blocked⟩ | ⟨j, -, -, hwait⟩
    · rcases Side.eq_or_eq_other j i with rfl | rfl
      · simp [free, nest.not_waiting_process]
      · simp [blocked, nest.waiting_process]
    · simp [hwait i]

/-! ## The steps -/

theorem Answered.cons {e : Event} {log : List Event} (h : Answered log)
    (he : ∀ i m, e = .returned i m →
      m.code = 1 ∧ .reply i.other m.id ∈ log ∧ (unanswered i log).head? = some m.id) :
    Answered (e :: log) := by
  intro newer i m older heq
  cases newer with
  | nil =>
    obtain ⟨rfl, rfl⟩ := List.cons.inj heq
    exact he i m rfl
  | cons e' newer =>
    obtain ⟨-, rfl⟩ := List.cons.inj heq
    exact h newer i m older rfl

/-- **Frame**: a step of one process that logs one event, no warning. -/
theorem Inv.of_log_cons (h : Inv s) {e : Event} (phase : Phase s')
    (hother : s'.process i.other = s.process i.other) (hended : (s'.process i).ended = false)
    (hlog : s'.log = e :: s.log) (hwarn : ∀ k w, .warn k w ≠ e) (answered : Answered (e :: s.log))
    (hfree : unanswered i.other (e :: s.log) = unanswered i.other s.log)
    (hpending : unanswered i (e :: s.log) = (s'.process i).waits.filterMap (·.trigger)) :
    Inv s' where
  phase := phase
  not_ended k := by
    rcases Side.eq_or_eq_other i k with rfl | rfl
    · exact hended
    · rw [hother]
      exact h.not_ended _
  no_warning k w := by
    rw [hlog, List.mem_cons, not_or]
    exact ⟨hwarn k w, h.no_warning k w⟩
  answered := by
    rw [hlog]
    exact answered
  pending k := by
    rw [hlog]
    rcases Side.eq_or_eq_other i k with rfl | rfl
    · exact hpending
    · rw [hother, hfree]
      exact h.pending _

theorem Inv.call (h : Inv s) {code : ℤ} (hi : (s.process i).running = true) (hcode : 2 ≤ code) :
    Inv (s.call i code) := by
  obtain ⟨nest, zero, free, blocked⟩ := h.running_phase hi
  obtain ⟨t, c, hc⟩ := nest.waiting
  have hself : (s.call i code).process i =
      ⟨true, ⟨some s.next, none⟩ :: (s.process i).waits, ⟨code, s.next⟩, (s.process i).ended⟩ :=
    Function.update_self ..
  have hother : (s.call i code).process i.other = s.process i.other :=
    Function.update_of_ne i.other_ne ..
  have hlog : (s.call i code).log = .trigger i s.next :: s.log := by
    simp [State.call, free, warnIf]
  have phase : Phase (s.call i code) := by
    refine .calling i ⟨hc ▸ nest, ?_, ?_, ?_, ?_, fun k ↦ ?_⟩ ?_
    · rw [hself]
    · rw [hother, hc]
    · simp [State.call, zero]
    · simp [State.call, zero]
    · rcases Side.eq_or_eq_other i k with rfl | rfl
      · rw [hself]
      · rw [hother, blocked]
    · rwa [hself]
  refine h.of_log_cons phase hother ?_ hlog nofun (h.answered.cons nofun) ?_ ?_
  · rw [hself]
    exact h.not_ended i
  · rw [unanswered, if_neg i.ne_other]
  · rw [unanswered, hself, if_pos rfl, h.pending]
    rfl

/-- A running process with activations serves the request that the other one waits for. -/
theorem Nest.serving (h : Nest i a b) (ha : a ≠ []) :
    ∃ t m c d, a = ⟨t, some m⟩ :: c ∧ b = ⟨some m.id, none⟩ :: d ∧ 2 ≤ m.code ∧
      Nest i.other d (⟨t, none⟩ :: c) := by
  cases h with
  | start => exact absurd rfl ha
  | serve nest hm => exact ⟨_, _, _, _, rfl, rfl, hm, (Side.other_other _).symm ▸ nest⟩

theorem Inv.reply (h : Inv s) (hi : (s.process i).running = true)
    (hserved : (s.process i).served.isSome = true) : Inv (s.reply i) := by
  obtain ⟨nest, zero, free, blocked⟩ := h.running_phase hi
  have hne : (s.process i).waits ≠ [] := by
    intro hnil
    simp [Process.served, hnil] at hserved
  obtain ⟨t, m, c, d, hc, hd, hm, nest'⟩ := nest.serving hne
  have hself : (s.reply i).process i = ⟨true, ⟨t, none⟩ :: c, ⟨1, m.id⟩, (s.process i).ended⟩ := by
    simp [State.reply, Process.respond, hc, hm]
  have hother : (s.reply i).process i.other = s.process i.other :=
    Function.update_of_ne i.other_ne ..
  have hlog : (s.reply i).log = .reply i m.id :: s.log := by
    simp [State.reply, Process.served, free, warnIf, hc]
  have phase : Phase (s.reply i) := by
    refine .answering (n := m.id) i.other ⟨nest', ?_, ?_, ?_, ?_, fun k ↦ ?_⟩ ?_ ?_
    · rw [hother, hd]
    · rw [i.other_other, hself]
    · simp [State.reply, zero]
    · simp [State.reply, zero]
    · rcases Side.eq_or_eq_other i k with rfl | rfl
      · rw [hself]
      · rw [hother, blocked]
    · rw [i.other_other, hself]
    · rw [i.other_other, hlog]
      exact List.mem_cons_self
  refine h.of_log_cons phase hother ?_ hlog nofun (h.answered.cons nofun) rfl ?_
  · rw [hself]
    exact h.not_ended i
  · rw [unanswered, h.pending, hself, hc]
    rfl

theorem Inv.receive_request (h : Inv s) {t : Option ℕ}
    (wait : Waiting s i i.other a b t (s.process i).sendingData.id)
    (sent : 2 ≤ (s.process i).sendingData.code) : Inv (s.receive i.other) := by
  obtain ⟨nest, waits, waits_other, one, zero, blocked⟩ := wait
  rw [i.other_other] at zero
  set m := (s.process i).sendingData with hm
  have hne1 : m.code ≠ 1 := by omega
  have hne2 : m.code ≠ -1 := by omega
  have hself : (s.receive i.other).process i.other =
      ⟨false, ⟨t, some m⟩ :: b, (s.process i.other).sendingData, (s.process i.other).ended⟩ := by
    simp [State.receive, Process.dispatch, waits_other, ← hm, hne1, hne2]
  have hother : (s.receive i.other).process i = s.process i :=
    Function.update_of_ne i.ne_other ..
  have hlog : (s.receive i.other).log = s.log := by
    simp [State.receive, blocked, warnIf, ← hm, hne1]
  refine ⟨.running i.other ?_ (fun k ↦ ?_) ?_ ?_, fun k ↦ ?_, ?_, ?_, fun k ↦ ?_⟩
  · rw [i.other_other, hself, hother, waits]
    exact nest.serve sent
  · rcases Side.eq_or_eq_other i k with rfl | rfl
    · simp [State.receive, zero]
    · simp [State.receive, one]
  · rw [hself]
  · rw [i.other_other, hother, blocked]
  · rcases Side.eq_or_eq_other i k with rfl | rfl
    · rw [hother]
      exact h.not_ended k
    · rw [hself]
      exact h.not_ended i.other
  · rw [hlog]
    exact h.no_warning
  · rw [hlog]
    exact h.answered
  · rw [hlog, h.pending]
    rcases Side.eq_or_eq_other i k with rfl | rfl
    · rw [hother]
    · rw [hself, waits_other]
      rfl

theorem Inv.receive_reply (h : Inv s) {t : Option ℕ} {n : ℕ} (wait : Waiting s i i a b t n)
    (sent : (s.process i.other).sendingData = ⟨1, n⟩) (logged : .reply i.other n ∈ s.log) :
    Inv (s.receive i) := by
  obtain ⟨nest, waits, waits_other, one, zero, blocked⟩ := wait
  have hself : (s.receive i).process i = ⟨false, a, (s.process i).sendingData, false⟩ := by
    simp [State.receive, Process.dispatch, waits, sent]
  have hother : (s.receive i).process i.other = s.process i.other :=
    Function.update_of_ne i.other_ne ..
  have hlog : (s.receive i).log = .returned i ⟨1, n⟩ :: s.log := by
    simp [State.receive, blocked, warnIf, sent]
  have hpending : unanswered i s.log = n :: a.filterMap (·.trigger) := by
    rw [h.pending, waits]
    rfl
  have phase : Phase (s.receive i) := by
    refine .running i ?_ (fun k ↦ ?_) ?_ ?_
    · rw [hself, hother, waits_other]
      exact nest
    · rcases Side.eq_or_eq_other i k with rfl | rfl
      · simp [State.receive, one]
      · simp [State.receive, zero]
    · rw [hself]
    · rw [hother, blocked]
  refine h.of_log_cons phase hother ?_ hlog nofun (h.answered.cons fun k m heq ↦ ?_) ?_ ?_
  · rw [hself]
  · cases heq
    exact ⟨rfl, logged, by rw [hpending]; rfl⟩
  · rw [unanswered, if_neg i.ne_other]
  · rw [unanswered, hself, if_pos rfl, hpending, List.erase_cons_head]

theorem Inv.receive (h : Inv s) (hsem : 0 < s.semaphore i) : Inv (s.receive i) := by
  cases h.phase with
  | running j nest zero free blocked => exact absurd (zero i) (Nat.ne_of_gt hsem)
  | calling j wait sent =>
    rcases Side.eq_or_eq_other j i with rfl | rfl
    · exact absurd (i.other_other ▸ wait.zero) (Nat.ne_of_gt hsem)
    · exact h.receive_request wait sent
  | answering j wait sent logged =>
    rcases Side.eq_or_eq_other j i with rfl | rfl
    · exact h.receive_reply wait sent logged
    · exact absurd wait.zero (Nat.ne_of_gt hsem)

theorem Inv.step {action : Action} (h : Inv s) (hstep : Step s action s') : Inv s' := by
  obtain ⟨henabled, rfl⟩ := hstep
  cases action <;> simp only [State.enabled, Bool.and_eq_true, decide_eq_true_eq] at henabled
  case call i code => exact h.call henabled.1 henabled.2
  case receive i => exact h.receive henabled.2
  case reply i => exact h.reply henabled.1 henabled.2

theorem inv_init : Inv .init := by
  refine ⟨.running .main .start (fun _ ↦ rfl) rfl rfl, fun i ↦ ?_, nofun, ?_, fun i ↦ ?_⟩
  · cases i <;> rfl
  · intro newer i m older heq
    cases newer <;> cases heq
  · cases i <;> rfl

/-- **Token hand-off**: in every state of every run one process runs with both semaphores
at 0, or the token is on its way and both wait; the flags tell who has the token, no
warning is printed, and every `wait_for_return` that returns has the reply to the most
recent trigger of its process that was not answered. -/
theorem tokenOk_of_run {t : List (Action × State)} (hrun : IsRun Step .init t) :
    ∀ s ∈ runStates .init t, TokenOk s := by
  intro s hs
  exact (hrun.always (fun _ _ _ h hstep ↦ h.step hstep) inv_init s hs).tokenOk

/-- The main process calls a function, which calls back; the callback uses an internal
service.  The replies come in the opposite order. -/
def nestedCalls : List Action :=
  [.call .main 9, .receive .library, .call .library 2, .receive .main, .call .main 4,
    .receive .library, .reply .library, .receive .main, .reply .main, .receive .library,
    .reply .library, .receive .main]

theorem nestedCalls_tokenOk :
    IsRun Step .init (trace State.exec .init nestedCalls) ∧
      ∀ s ∈ runStates .init (trace State.exec .init nestedCalls), TokenOk s := by
  have hrun : IsRun Step .init (trace State.exec .init nestedCalls) := by
    refine isRun_trace (RunOk.mono (fun s a h ↦ ⟨h, rfl⟩) (?_ : RunOk (fun s a ↦
      State.enabled s a = true) _ _))
    decide +kernel
  exact ⟨hrun, tokenOk_of_run hrun⟩

end Cali.Ipc
