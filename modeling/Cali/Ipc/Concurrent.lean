import Mathlib.Data.Fintype.Basic
import Cali.Ipc.Token

/-!
# Concurrent callers

With `concurrentLibraryCommunication` the threads of the main process share the two
buffers and the two semaphores with each other.  A generated wrapper takes `sending_lock`,
writes its request, triggers and waits; `wait_for_return` releases the lock as soon as it
has read the code of what it received, and the result, or the number and the arguments of
a callback, are read after that.  The handler of a callback takes the lock again to write
its result.  The library is one thread, which serves requests and calls back while it
does, and does not use the lock.

The steps are those between which the threads can be interrupted; what a message
belongs to is recorded in it as in `Cali.Ipc.Message`.  `sending_is_blocked` only decides
about warnings and is left out, and the library sends no internal requests.
-/

namespace Cali.Ipc.Concurrent

open Cali.Lib

/-- Where a wrapper is.  The lock is taken for the request, or for the result of the
callback with the given number. -/
inductive Phase
  /-- The lock is taken. -/
  | locked (reply : Option ℕ)
  /-- The buffer is written. -/
  | written (reply : Option ℕ)
  /-- At the `semop` of `wait_for_return`. -/
  | waiting
  /-- Behind the `semop`; the code has not been read. -/
  | received
  /-- The code was 1, and the lock is released; the result has not been loaded. -/
  | returned
  /-- The code was 2, and the lock is released; the callback has not been read. -/
  | called
  /-- In the callback. -/
  | handling (callback : ℕ)
deriving DecidableEq, Repr

/-- A wrapper that a thread executes, with the request it has been called for. -/
structure Activation where
  request : ℕ
  phase : Phase
deriving DecidableEq, Repr

/-- A request that the library serves, and the callback whose result it waits for. -/
structure Frame where
  request : ℕ
  callback : Option ℕ
deriving DecidableEq, Repr

/-- What has been read: a result by a wrapper, the result of a callback by the library. -/
inductive Event
  | loaded (request : ℕ) (m : Message)
  | consumed (callback : ℕ) (m : Message)
deriving DecidableEq, Repr

/-- The state; wrappers of a thread and requests of the library are innermost first. -/
structure State (T : Type) where
  sendingLock : ℕ
  sendingSemaphore : ℕ
  receivingSemaphore : ℕ
  sendingData : Message
  receivingData : Message
  threads : T → List Activation
  library : List Frame
  ended : Bool
  next : ℕ
  log : List Event

/-- The steps. -/
inductive Action (T : Type)
  /-- A wrapper is called, and takes the lock. -/
  | start (x : T)
  /-- A callback ends, and its handler takes the lock. -/
  | finish (x : T)
  /-- The request, with its code, or the result of the callback is written. -/
  | write (x : T) (code : ℤ)
  | trigger (x : T)
  | receive (x : T)
  /-- The code is read and the lock released. -/
  | readCode (x : T)
  | load (x : T)
  | readCallback (x : T)
  /-- The library receives a message. -/
  | libraryReceive
  /-- The library calls back. -/
  | libraryCall
  /-- The library has served a request. -/
  | libraryReply
deriving DecidableEq, Repr

namespace State

variable {T : Type}

/-- The phase of the innermost wrapper of a thread. -/
def phase (s : State T) (x : T) : Option Phase := (s.threads x).head?.map (·.phase)

/-- The library is at its `semop`. -/
def libraryWaits (s : State T) : Bool :=
  match s.library with
  | [] => true
  | f :: _ => f.callback.isSome

/-- The step can be taken.  Wrappers are called by the program of the thread, and by
callbacks it executes. -/
def enabled (s : State T) : Action T → Bool
  | .start x =>
    decide (0 < s.sendingLock) &&
      match s.phase x with
      | none | some (.handling _) => true
      | _ => false
  | .finish x =>
    decide (0 < s.sendingLock) &&
      match s.phase x with
      | some (.handling _) => true
      | _ => false
  | .write x code =>
    decide (2 < code) &&
      match s.phase x with
      | some (.locked _) => true
      | _ => false
  | .trigger x =>
    match s.phase x with
    | some (.written _) => true
    | _ => false
  | .receive x => decide (s.phase x = some .waiting) && decide (0 < s.receivingSemaphore)
  | .readCode x =>
    decide (s.phase x = some .received) &&
      decide (s.receivingData.code = 1 ∨ s.receivingData.code = 2)
  | .load x => decide (s.phase x = some .returned)
  | .readCallback x => decide (s.phase x = some .called)
  | .libraryReceive => !s.ended && s.libraryWaits && decide (0 < s.sendingSemaphore)
  | .libraryCall => !s.ended && !s.libraryWaits
  | .libraryReply => !s.ended && !s.libraryWaits

/-- No thread has called a wrapper, and the lock is free. -/
def init : State T := ⟨1, 0, 0, ⟨0, 0⟩, ⟨0, 0⟩, fun _ ↦ [], [], false, 0, []⟩

/-- What the innermost wrapper of a thread writes. -/
def outgoing (s : State T) (x : T) (code : ℤ) : Message × Phase :=
  match s.threads x with
  | ⟨_, .locked (some callback)⟩ :: _ => (⟨1, callback⟩, .written (some callback))
  | ⟨request, _⟩ :: _ => (⟨code, request⟩, .written none)
  | [] => (s.sendingData, .written none)

/-- The library takes a message: the result of the callback it waits for, or a request.
Without a request it serves it would end on a result. -/
def accept (s : State T) (m : Message) : State T :=
  match s.library with
  | ⟨request, some callback⟩ :: frames =>
    if m.code = 1 then
      { s with library := ⟨request, none⟩ :: frames, log := .consumed callback m :: s.log }
    else { s with library := ⟨m.id, none⟩ :: s.library }
  | frames =>
    if m.code = 1 then { s with ended := true }
    else { s with library := ⟨m.id, none⟩ :: frames }

/-- The library writes its buffer and posts the semaphore of the main process. -/
def send (s : State T) (m : Message) : State T :=
  { s with receivingData := m, receivingSemaphore := s.receivingSemaphore + 1 }

section Exec

variable [DecidableEq T]

/-- Change the phase of the innermost wrapper of a thread. -/
def setPhase (s : State T) (x : T) (phase : Phase) : State T :=
  match s.threads x with
  | [] => s
  | a :: as => { s with threads := Function.update s.threads x ({ a with phase := phase } :: as) }

/-- The effect of a step. -/
def exec (s : State T) : Action T → State T
  | .start x =>
    { s with
      sendingLock := s.sendingLock - 1
      threads := Function.update s.threads x (⟨s.next, .locked none⟩ :: s.threads x)
      next := s.next + 1 }
  | .finish x =>
    match s.threads x with
    | ⟨_, .handling callback⟩ :: _ =>
      { s with sendingLock := s.sendingLock - 1 }.setPhase x (.locked (some callback))
    | _ => s
  | .write x code =>
    { s with sendingData := (s.outgoing x code).1 }.setPhase x (s.outgoing x code).2
  | .trigger x => { s with sendingSemaphore := s.sendingSemaphore + 1 }.setPhase x .waiting
  | .receive x => { s with receivingSemaphore := s.receivingSemaphore - 1 }.setPhase x .received
  | .readCode x =>
    let code := s.receivingData.code
    let s := if code ≤ 2 ∨ 8 < code then { s with sendingLock := s.sendingLock + 1 } else s
    s.setPhase x (if code = 1 then .returned else .called)
  | .load x =>
    match s.threads x with
    | ⟨request, _⟩ :: as =>
      { s with
        threads := Function.update s.threads x as
        log := .loaded request s.receivingData :: s.log }
    | [] => s
  | .readCallback x => s.setPhase x (.handling s.receivingData.id)
  | .libraryReceive =>
    { s with sendingSemaphore := s.sendingSemaphore - 1 }.accept s.sendingData
  | .libraryCall =>
    match s.library with
    | ⟨request, _⟩ :: frames =>
      { s with library := ⟨request, some s.next⟩ :: frames, next := s.next + 1 }.send
        ⟨2, s.next⟩
    | [] => s
  | .libraryReply =>
    match s.library with
    | ⟨request, _⟩ :: frames => { s with library := frames }.send ⟨1, request⟩
    | [] => s

end Exec

end State

variable {T : Type}

/-- One step of a thread or of the library. -/
def Step [DecidableEq T] (s : State T) (a : Action T) (s' : State T) : Prop :=
  s.enabled a = true ∧ s' = s.exec a

/-- **No cross-talk**: a wrapper has loaded the result of its own request, and the library
has consumed the result of the callback it waited for. -/
structure NoCrossTalk (s : State T) : Prop where
  loaded : ∀ request m, .loaded request m ∈ s.log → m = ⟨1, request⟩
  consumed : ∀ callback m, .consumed callback m ∈ s.log → m = ⟨1, callback⟩

/-- A message has been received and not been read. -/
def Activation.unread (a : Activation) : Bool :=
  match a.phase with
  | .received | .returned | .called => true
  | _ => false

/-- The library only writes its buffer when there is no message in it that a thread still
has to read. -/
def KeepsUnread (s : State T) : Action T → Prop
  | .libraryCall | .libraryReply => ∀ x, ∀ a ∈ s.threads x, a.unread = false
  | _ => True

/-- The result of a callback is only sent when it is the innermost one that the library
waits for. -/
def AnswersInnermost (s : State T) : Action T → Prop
  | .trigger x =>
    match s.phase x with
    | some (.written (some callback)) => s.library.head?.bind (·.callback) = some callback
    | _ => True
  | _ => True

/-- The condition on a step. -/
def Orderly (s : State T) (a : Action T) : Prop := KeepsUnread s a ∧ AnswersInnermost s a

instance [Fintype T] (s : State T) (a : Action T) : Decidable (KeepsUnread s a) := by
  unfold KeepsUnread
  split <;> infer_instance

instance (s : State T) (a : Action T) : Decidable (AnswersInnermost s a) := by
  unfold AnswersInnermost
  split
  · split <;> infer_instance
  · infer_instance

instance [Fintype T] (s : State T) (a : Action T) : Decidable (Orderly s a) :=
  inferInstanceAs (Decidable (_ ∧ _))

/-! ## The wrappers of the threads -/

namespace Activation

/-- The wrapper has the lock. -/
def holds (a : Activation) : Bool :=
  match a.phase with
  | .locked _ | .written _ | .waiting | .received => true
  | _ => false

/-- A callback that a wrapper executes belongs to its request, and what it still has to
read is in the buffer. -/
def Ok (library : List Frame) (receiving : Message) (a : Activation) : Prop :=
  match a.phase with
  | .locked (some c) | .written (some c) | .handling c => ⟨a.request, some c⟩ ∈ library
  | .returned => receiving = ⟨1, a.request⟩
  | .called => ∃ c, receiving = ⟨2, c⟩ ∧ ⟨a.request, some c⟩ ∈ library
  | _ => True

variable {library library' : List Frame} {receiving receiving' : Message} {a : Activation}

/-- A wrapper does not notice when callbacks of other requests come and go, and it does
not notice what is in the buffer when it has read it. -/
theorem Ok.mono (h : a.Ok library receiving)
    (hmem : ∀ c, ⟨a.request, some c⟩ ∈ library → ⟨a.request, some c⟩ ∈ library')
    (hread : receiving' = receiving ∨ a.unread = false) : a.Ok library' receiving' := by
  obtain ⟨r, phase⟩ := a
  unfold Ok at h ⊢
  cases phase with
  | locked p =>
    cases p with
    | none => trivial
    | some c => exact hmem c h
  | written p =>
    cases p with
    | none => trivial
    | some c => exact hmem c h
  | waiting => trivial
  | received => trivial
  | returned =>
    rcases hread with rfl | hread
    · exact h
    · cases hread
  | called =>
    rcases hread with rfl | hread
    · obtain ⟨c, hc, hlib⟩ := h
      exact ⟨c, hc, hmem c hlib⟩
    · cases hread
  | handling c => exact hmem c h

end Activation

/-- What holds for all wrappers that are being executed. -/
structure Wrappers (threads : T → List Activation) (library : List Frame) (receiving : Message)
    (next : ℕ) : Prop where
  ok : ∀ x, ∀ a ∈ threads x, a.Ok library receiving
  below : ∀ x a as, threads x = a :: as → ∀ b ∈ as, b.holds = false
  lt : ∀ x, ∀ a ∈ threads x, a.request < next
  nodup : ∀ x, ((threads x).map (·.request)).Nodup
  disjoint : ∀ x y, x ≠ y → ∀ a ∈ threads x, ∀ b ∈ threads y, a.request ≠ b.request

namespace Wrappers

variable {threads : T → List Activation} {library library' : List Frame}
  {receiving receiving' : Message} {next next' : ℕ} {x y : T} {a b : Activation}
  {as : List Activation} {phase : Phase}

theorem ne_top (h : Wrappers threads library receiving next) (hx : threads x = a :: as)
    (hb : b ∈ threads y) (hne : y = x → b ∈ as) : b.request ≠ a.request := by
  by_cases hyx : y = x
  · have hnodup := h.nodup x
    rw [hx, List.map_cons, List.nodup_cons] at hnodup
    intro heq
    exact hnodup.1 (heq ▸ List.mem_map_of_mem (hne hyx))
  · exact h.disjoint y x hyx b hb a (hx ▸ List.mem_cons_self)

/-- Other contents of the buffers and other requests that the library serves. -/
theorem mono (h : Wrappers threads library receiving next) (hle : next ≤ next')
    (hok : ∀ x, ∀ a ∈ threads x, a.Ok library receiving → a.Ok library' receiving') :
    Wrappers threads library' receiving' next' where
  ok x a ha := hok x a ha (h.ok x a ha)
  below := h.below
  lt x a ha := (h.lt x a ha).trans_le hle
  nodup := h.nodup
  disjoint := h.disjoint

variable [DecidableEq T]

theorem setTop (h : Wrappers threads library receiving next) (hx : threads x = a :: as)
    (hok : Activation.Ok library receiving ⟨a.request, phase⟩) :
    Wrappers (Function.update threads x (⟨a.request, phase⟩ :: as)) library receiving next := by
  set threads' := Function.update threads x (⟨a.request, phase⟩ :: as) with hthreads
  have hself : threads' x = ⟨a.request, phase⟩ :: as := Function.update_self ..
  have hother : ∀ y, y ≠ x → threads' y = threads y := fun y hy ↦ Function.update_of_ne hy ..
  -- every wrapper has the request of an old one
  have hold : ∀ y, ∀ b ∈ threads' y, ∃ b' ∈ threads y, b'.request = b.request := by
    intro y b hb
    by_cases hy : y = x
    · subst hy
      rw [hself] at hb
      rcases List.mem_cons.mp hb with rfl | hb
      · exact ⟨a, hx ▸ List.mem_cons_self, rfl⟩
      · exact ⟨b, hx ▸ List.mem_cons_of_mem _ hb, rfl⟩
    · exact ⟨b, hother y hy ▸ hb, rfl⟩
  refine ⟨fun y b hb ↦ ?_, fun y b bs hy ↦ ?_, fun y b hb ↦ ?_, fun y ↦ ?_,
    fun y z hyz b hb c hc ↦ ?_⟩
  · by_cases hy : y = x
    · subst hy
      rw [hself] at hb
      rcases List.mem_cons.mp hb with rfl | hb
      · exact hok
      · exact h.ok y b (hx ▸ List.mem_cons_of_mem _ hb)
    · exact h.ok y b (hother y hy ▸ hb)
  · by_cases hyx : y = x
    · subst hyx
      obtain ⟨-, rfl⟩ := List.cons.inj (hself.symm.trans hy)
      exact h.below y a as hx
    · exact h.below y b bs ((hother y hyx).symm.trans hy)
  · obtain ⟨b', hb', heq⟩ := hold y b hb
    exact heq ▸ h.lt y b' hb'
  · by_cases hy : y = x
    · subst hy
      have hnodup := h.nodup y
      rw [hx] at hnodup
      rw [hself]
      exact hnodup
    · rw [hother y hy]
      exact h.nodup y
  · obtain ⟨b', hb', hbeq⟩ := hold y b hb
    obtain ⟨c', hc', hceq⟩ := hold z c hc
    rw [← hbeq, ← hceq]
    exact h.disjoint y z hyz b' hb' c' hc'

theorem push (h : Wrappers threads library receiving next) (hx : ∀ b ∈ threads x, b.holds = false) :
    Wrappers (Function.update threads x (⟨next, .locked none⟩ :: threads x)) library receiving
      (next + 1) := by
  set threads' := Function.update threads x (⟨next, .locked none⟩ :: threads x) with hthreads
  have hself : threads' x = ⟨next, .locked none⟩ :: threads x := Function.update_self ..
  have hother : ∀ y, y ≠ x → threads' y = threads y := fun y hy ↦ Function.update_of_ne hy ..
  have hcases : ∀ y, ∀ b ∈ threads' y, y = x ∧ b = ⟨next, .locked none⟩ ∨ b ∈ threads y := by
    intro y b hb
    by_cases hy : y = x
    · subst hy
      rw [hself] at hb
      exact (List.mem_cons.mp hb).imp_left fun hb ↦ ⟨rfl, hb⟩
    · exact Or.inr (hother y hy ▸ hb)
  refine ⟨fun y b hb ↦ ?_, fun y b bs hy ↦ ?_, fun y b hb ↦ ?_, fun y ↦ ?_,
    fun y z hyz b hb c hc ↦ ?_⟩
  · rcases hcases y b hb with ⟨-, rfl⟩ | hb
    · trivial
    · exact h.ok y b hb
  · by_cases hyx : y = x
    · subst hyx
      obtain ⟨-, rfl⟩ := List.cons.inj (hself.symm.trans hy)
      exact hx
    · exact h.below y b bs ((hother y hyx).symm.trans hy)
  · rcases hcases y b hb with ⟨-, rfl⟩ | hb
    · exact Nat.lt_succ_self _
    · exact Nat.lt_succ_of_lt (h.lt y b hb)
  · by_cases hy : y = x
    · subst hy
      rw [hself, List.map_cons, List.nodup_cons]
      refine ⟨fun hmem ↦ ?_, h.nodup y⟩
      obtain ⟨b, hb, heq⟩ := List.mem_map.mp hmem
      exact Nat.lt_irrefl _ (heq ▸ h.lt y b hb)
    · rw [hother y hy]
      exact h.nodup y
  · rcases hcases y b hb with ⟨hy, rfl⟩ | hb' <;> rcases hcases z c hc with ⟨hz, rfl⟩ | hc'
    · exact absurd (hy.trans hz.symm) hyz
    · exact (Nat.ne_of_lt (h.lt z c hc')).symm
    · exact Nat.ne_of_lt (h.lt y b hb')
    · exact h.disjoint y z hyz b hb' c hc'

theorem pop (h : Wrappers threads library receiving next) (hx : threads x = a :: as) :
    Wrappers (Function.update threads x as) library receiving next := by
  set threads' := Function.update threads x as with hthreads
  have hself : threads' x = as := Function.update_self ..
  have hother : ∀ y, y ≠ x → threads' y = threads y := fun y hy ↦ Function.update_of_ne hy ..
  have hsub : ∀ y, ∀ b ∈ threads' y, b ∈ threads y := by
    intro y b hb
    by_cases hy : y = x
    · subst hy
      exact hx ▸ List.mem_cons_of_mem _ (hself ▸ hb)
    · exact hother y hy ▸ hb
  refine ⟨fun y b hb ↦ h.ok y b (hsub y b hb), fun y b bs hy c hc ↦ ?_,
    fun y b hb ↦ h.lt y b (hsub y b hb), fun y ↦ ?_,
    fun y z hyz b hb c hc ↦ h.disjoint y z hyz b (hsub y b hb) c (hsub z c hc)⟩
  · by_cases hyx : y = x
    · subst hyx
      refine h.below y a as hx c ?_
      rw [← hself, hy]
      exact List.mem_cons_of_mem _ hc
    · exact h.below y b bs ((hother y hyx).symm.trans hy) c hc
  · by_cases hy : y = x
    · subst hy
      have hnodup := h.nodup y
      rw [hx, List.map_cons, List.nodup_cons] at hnodup
      rw [hself]
      exact hnodup.2
    · rw [hother y hy]
      exact h.nodup y

end Wrappers

/-! ## Who has the lock -/

/-- The library waits in all requests that it serves. -/
def Waits (library : List Frame) : Prop := ∀ f ∈ library, f.callback ≠ none

/-- **The exchange** between the library and the wrapper that has the lock, for the request
`r`: from the buffer, over the library and back to the buffer. -/
inductive Exchange (sending receiving : ℕ) (sent got : Message) (library : List Frame) (r : ℕ) :
    Phase → Prop
  | locked {p : Option ℕ} (zero : sending = 0) (zero' : receiving = 0) (waits : Waits library) :
      Exchange sending receiving sent got library r (.locked p)
  | request (zero : sending = 0) (zero' : receiving = 0) (waits : Waits library)
      (code : sent.code ≠ 1) (id : sent.id = r) :
      Exchange sending receiving sent got library r (.written none)
  | reply {c : ℕ} (zero : sending = 0) (zero' : receiving = 0) (waits : Waits library)
      (msg : sent = ⟨1, c⟩) : Exchange sending receiving sent got library r (.written (some c))
  | requesting (one : sending = 1) (zero : receiving = 0) (waits : Waits library)
      (code : sent.code ≠ 1) (id : sent.id = r) :
      Exchange sending receiving sent got library r .waiting
  | replying {c : ℕ} {l : List Frame} (one : sending = 1) (zero : receiving = 0)
      (waits : Waits library) (msg : sent = ⟨1, c⟩) (top : library = ⟨r, some c⟩ :: l) :
      Exchange sending receiving sent got library r .waiting
  | served {l : List Frame} (zero : sending = 0) (zero' : receiving = 0)
      (top : library = ⟨r, none⟩ :: l) (waits : Waits l) :
      Exchange sending receiving sent got library r .waiting
  | answered (zero : sending = 0) (one : receiving = 1) (waits : Waits library)
      (msg : got = ⟨1, r⟩) : Exchange sending receiving sent got library r .waiting
  | calledBack {c : ℕ} (zero : sending = 0) (one : receiving = 1) (waits : Waits library)
      (msg : got = ⟨2, c⟩) (mem : ⟨r, some c⟩ ∈ library) :
      Exchange sending receiving sent got library r .waiting
  | result (zero : sending = 0) (zero' : receiving = 0) (waits : Waits library)
      (msg : got = ⟨1, r⟩) : Exchange sending receiving sent got library r .received
  | callback {c : ℕ} (zero : sending = 0) (zero' : receiving = 0) (waits : Waits library)
      (msg : got = ⟨2, c⟩) (mem : ⟨r, some c⟩ ∈ library) :
      Exchange sending receiving sent got library r .received

/-- The exchange of a state. -/
abbrev State.Exchange (s : State T) (r : ℕ) (phase : Phase) : Prop :=
  Concurrent.Exchange s.sendingSemaphore s.receivingSemaphore s.sendingData s.receivingData
    s.library r phase

/-- The lock is free and the library waits, or exactly one wrapper has it. -/
inductive Lock (s : State T) : Prop
  | free (one : s.sendingLock = 1) (zero : s.sendingSemaphore = 0)
      (zero' : s.receivingSemaphore = 0) (waits : Waits s.library)
      (none : ∀ x a as, s.threads x = a :: as → a.holds = false)
  | held (x : T) {r : ℕ} {phase : Phase} {as : List Activation} (zero : s.sendingLock = 0)
      (top : s.threads x = ⟨r, phase⟩ :: as) (exchange : s.Exchange r phase)
      (others : ∀ y, y ≠ x → ∀ a as, s.threads y = a :: as → a.holds = false)

/-- The invariant. -/
structure Inv (s : State T) : Prop where
  lock : Lock s
  wrappers : Wrappers s.threads s.library s.receivingData s.next
  callbacks : (s.library.filterMap (·.callback)).Nodup
  callbacks_lt : ∀ c ∈ s.library.filterMap (·.callback), c < s.next
  alive : s.ended = false
  noCrossTalk : NoCrossTalk s

variable {s : State T} {x : T} {a : Activation} {as : List Activation} {r : ℕ} {phase : Phase}

theorem exchange_holds {sending receiving : ℕ} {sent got : Message} {library : List Frame}
    (h : Exchange sending receiving sent got library r phase) :
    Activation.holds ⟨r, phase⟩ = true := by
  cases h <;> rfl

theorem State.phase_eq_some (h : s.phase x = some phase) :
    ∃ r as, s.threads x = ⟨r, phase⟩ :: as := by
  unfold State.phase at h
  cases hx : s.threads x with
  | nil =>
    rw [hx] at h
    cases h
  | cons a as =>
    rw [hx] at h
    obtain ⟨r, phase'⟩ := a
    cases h
    exact ⟨r, as, rfl⟩

theorem Inv.held (h : Inv s) (hx : s.threads x = ⟨r, phase⟩ :: as)
    (hholds : Activation.holds ⟨r, phase⟩ = true) : s.sendingLock = 0 ∧ s.Exchange r phase ∧
      ∀ y, y ≠ x → ∀ a as, s.threads y = a :: as → a.holds = false := by
  cases h.lock with
  | free one zero zero' waits none => exact nomatch hholds.symm.trans (none x _ _ hx)
  | held y zero top exchange others =>
    by_cases hxy : x = y
    · subst hxy
      obtain ⟨hhead, -⟩ := List.cons.inj (top.symm.trans hx)
      cases hhead
      exact ⟨zero, exchange, others⟩
    · exact nomatch hholds.symm.trans (others x hxy _ _ hx)

theorem Inv.free (h : Inv s) (hlock : 0 < s.sendingLock) :
    s.sendingLock = 1 ∧ s.sendingSemaphore = 0 ∧ s.receivingSemaphore = 0 ∧ Waits s.library ∧
      ∀ x a as, s.threads x = a :: as → a.holds = false := by
  cases h.lock with
  | free one zero zero' waits none => exact ⟨one, zero, zero', waits, none⟩
  | held y zero top exchange others => exact absurd zero (Nat.ne_of_gt hlock)

/-- A callback that occurs among those the library waits for, and is the innermost one. -/
theorem Inv.top_of_callback {c : ℕ} (h : Inv s) (hmem : ⟨r, some c⟩ ∈ s.library)
    (hhead : s.library.head?.bind (·.callback) = some c) : ∃ l, s.library = ⟨r, some c⟩ :: l := by
  have hnodup := h.callbacks
  cases hl : s.library with
  | nil =>
    rw [hl] at hhead
    cases hhead
  | cons f l =>
    obtain ⟨r', callback⟩ := f
    rw [hl] at hhead hmem hnodup
    obtain rfl : callback = some c := hhead
    rcases List.mem_cons.mp hmem with heq | hmem
    · exact ⟨l, by rw [heq]⟩
    · have hc : c ∈ l.filterMap (·.callback) := List.mem_filterMap.mpr ⟨_, hmem, rfl⟩
      change (c :: l.filterMap (·.callback)).Nodup at hnodup
      exact absurd hc (List.nodup_cons.mp hnodup).1

variable [DecidableEq T]

theorem State.setPhase_eq (hx : s.threads x = a :: as) (phase : Phase) :
    s.setPhase x phase = { s with
      threads := Function.update s.threads x (⟨a.request, phase⟩ :: as) } := by
  unfold State.setPhase
  rw [hx]

/-! ## The steps of the threads -/

theorem Inv.move {phase' : Phase} {sending receiving : ℕ} {sent : Message} (h : Inv s)
    (hx : s.threads x = ⟨r, phase⟩ :: as) (hholds : Activation.holds ⟨r, phase⟩ = true)
    (hex : Exchange sending receiving sent s.receivingData s.library r phase')
    (hok : Activation.Ok s.library s.receivingData ⟨r, phase'⟩) :
    Inv { s with
      sendingData := sent
      sendingSemaphore := sending
      receivingSemaphore := receiving
      threads := Function.update s.threads x (⟨r, phase'⟩ :: as) } := by
  obtain ⟨hlock, -, hothers⟩ := h.held hx hholds
  refine ⟨.held x hlock (Function.update_self ..) hex fun y hy a as hya ↦ ?_,
    h.wrappers.setTop hx hok, h.callbacks, h.callbacks_lt, h.alive, h.noCrossTalk.loaded,
    h.noCrossTalk.consumed⟩
  exact hothers y hy a as ((Function.update_of_ne hy ..).symm.trans hya)

theorem Inv.start (h : Inv s) (hlock : 0 < s.sendingLock) : Inv (s.exec (.start x)) := by
  obtain ⟨hone, hzero, hzero', hwaits, hnone⟩ := h.free hlock
  have hbelow : ∀ b ∈ s.threads x, b.holds = false := by
    intro b hb
    cases hx : s.threads x with
    | nil =>
      rw [hx] at hb
      cases hb
    | cons a as =>
      rw [hx] at hb
      rcases List.mem_cons.mp hb with rfl | hb
      · exact hnone x b as hx
      · exact h.wrappers.below x a as hx b hb
  refine ⟨.held x ?_ (Function.update_self ..) (.locked hzero hzero' hwaits)
    fun y hy a as hya ↦ ?_, h.wrappers.push hbelow, h.callbacks, fun c hc ↦ ?_, h.alive,
    h.noCrossTalk.loaded, h.noCrossTalk.consumed⟩
  · change s.sendingLock - 1 = 0
    rw [hone]
  · exact hnone y a as ((Function.update_of_ne hy ..).symm.trans hya)
  · exact Nat.lt_succ_of_lt (h.callbacks_lt c hc)

theorem Inv.finish {c : ℕ} (h : Inv s) (hlock : 0 < s.sendingLock)
    (hphase : s.phase x = some (.handling c)) : Inv (s.exec (.finish x)) := by
  obtain ⟨hone, hzero, hzero', hwaits, hnone⟩ := h.free hlock
  obtain ⟨r, as, hx⟩ := State.phase_eq_some hphase
  have hok : Activation.Ok s.library s.receivingData ⟨r, .handling c⟩ :=
    h.wrappers.ok x _ (hx ▸ List.mem_cons_self)
  have heq : s.exec (.finish x) = { s with
      sendingLock := s.sendingLock - 1
      threads := Function.update s.threads x (⟨r, .locked (some c)⟩ :: as) } := by
    simp only [State.exec, hx]
    exact State.setPhase_eq (s := { s with sendingLock := s.sendingLock - 1 }) hx _
  rw [heq]
  refine ⟨.held x ?_ (Function.update_self ..) (.locked hzero hzero' hwaits)
    fun y hy a as hya ↦ ?_, h.wrappers.setTop hx hok, h.callbacks, h.callbacks_lt, h.alive,
    h.noCrossTalk.loaded, h.noCrossTalk.consumed⟩
  · change s.sendingLock - 1 = 0
    rw [hone]
  · exact hnone y a as ((Function.update_of_ne hy ..).symm.trans hya)

theorem Inv.write {p : Option ℕ} {code : ℤ} (h : Inv s) (hcode : 2 < code)
    (hphase : s.phase x = some (.locked p)) : Inv (s.exec (.write x code)) := by
  obtain ⟨r, as, hx⟩ := State.phase_eq_some hphase
  obtain ⟨-, hex, -⟩ := h.held hx rfl
  obtain ⟨zero, zero', waits⟩ := hex
  have hok := h.wrappers.ok x _ (hx ▸ List.mem_cons_self)
  cases p with
  | none =>
    have heq : s.exec (.write x code) = { s with
        sendingData := ⟨code, r⟩
        threads := Function.update s.threads x (⟨r, .written none⟩ :: as) } := by
      simp only [State.exec, State.outgoing, hx]
      exact State.setPhase_eq (s := { s with sendingData := ⟨code, r⟩ }) hx _
    rw [heq]
    have hne : code ≠ 1 := by omega
    exact h.move hx rfl (.request zero zero' waits hne rfl) trivial
  | some c =>
    have heq : s.exec (.write x code) = { s with
        sendingData := ⟨1, c⟩
        threads := Function.update s.threads x (⟨r, .written (some c)⟩ :: as) } := by
      simp only [State.exec, State.outgoing, hx]
      exact State.setPhase_eq (s := { s with sendingData := ⟨1, c⟩ }) hx _
    rw [heq]
    exact h.move hx rfl (.reply zero zero' waits rfl) hok

theorem Inv.trigger {p : Option ℕ} (h : Inv s) (hphase : s.phase x = some (.written p))
    (hok : AnswersInnermost s (.trigger x)) : Inv (s.exec (.trigger x)) := by
  obtain ⟨r, as, hx⟩ := State.phase_eq_some hphase
  obtain ⟨-, hex, -⟩ := h.held hx rfl
  have hactivation := h.wrappers.ok x _ (hx ▸ List.mem_cons_self)
  have heq : s.exec (.trigger x) = { s with
      sendingSemaphore := s.sendingSemaphore + 1
      threads := Function.update s.threads x (⟨r, .waiting⟩ :: as) } :=
    State.setPhase_eq (s := { s with sendingSemaphore := s.sendingSemaphore + 1 }) hx _
  rw [heq]
  refine h.move hx rfl ?_ trivial
  cases hex with
  | request zero zero' waits code id => exact .requesting (by rw [zero]) zero' waits code id
  | reply zero zero' waits msg =>
    simp only [AnswersInnermost, hphase] at hok
    obtain ⟨l, hl⟩ := h.top_of_callback hactivation hok
    exact .replying (by rw [zero]) zero' waits msg hl

theorem Inv.receive (h : Inv s) (hphase : s.phase x = some .waiting)
    (hsem : 0 < s.receivingSemaphore) : Inv (s.exec (.receive x)) := by
  obtain ⟨r, as, hx⟩ := State.phase_eq_some hphase
  obtain ⟨-, hex, -⟩ := h.held hx rfl
  have heq : s.exec (.receive x) = { s with
      receivingSemaphore := s.receivingSemaphore - 1
      threads := Function.update s.threads x (⟨r, .received⟩ :: as) } :=
    State.setPhase_eq (s := { s with receivingSemaphore := s.receivingSemaphore - 1 }) hx _
  rw [heq]
  refine h.move hx rfl ?_ trivial
  cases hex with
  | requesting one zero waits code id => exact absurd zero (Nat.ne_of_gt hsem)
  | replying one zero waits msg top => exact absurd zero (Nat.ne_of_gt hsem)
  | served zero zero' top waits => exact absurd zero' (Nat.ne_of_gt hsem)
  | answered zero one waits msg => exact .result zero (by rw [one]) waits msg
  | calledBack zero one waits msg mem => exact .callback zero (by rw [one]) waits msg mem

theorem Inv.release {phase' : Phase} (h : Inv s) (hx : s.threads x = ⟨r, .received⟩ :: as)
    (hholds : Activation.holds ⟨r, phase'⟩ = false)
    (hok : Activation.Ok s.library s.receivingData ⟨r, phase'⟩) :
    Inv { s with
      sendingLock := s.sendingLock + 1
      threads := Function.update s.threads x (⟨r, phase'⟩ :: as) } := by
  obtain ⟨hlock, hex, hothers⟩ := h.held hx rfl
  obtain ⟨zero, zero', waits⟩ : s.sendingSemaphore = 0 ∧ s.receivingSemaphore = 0 ∧
      Waits s.library := by
    cases hex with
    | result zero zero' waits msg => exact ⟨zero, zero', waits⟩
    | callback zero zero' waits msg mem => exact ⟨zero, zero', waits⟩
  refine ⟨.free ?_ zero zero' waits fun y a as' hy ↦ ?_, h.wrappers.setTop hx hok, h.callbacks,
    h.callbacks_lt, h.alive, h.noCrossTalk.loaded, h.noCrossTalk.consumed⟩
  · change s.sendingLock + 1 = 1
    rw [hlock]
  · by_cases hyx : y = x
    · subst hyx
      change Function.update s.threads y (⟨r, phase'⟩ :: as) y = a :: as' at hy
      rw [Function.update_self] at hy
      cases hy
      exact hholds
    · exact hothers y hyx a as' ((Function.update_of_ne hyx ..).symm.trans hy)

theorem Inv.readCode (h : Inv s) (hphase : s.phase x = some .received) :
    Inv (s.exec (.readCode x)) := by
  obtain ⟨r, as, hx⟩ := State.phase_eq_some hphase
  obtain ⟨-, hex, -⟩ := h.held hx rfl
  cases hex with
  | result zero zero' waits msg =>
    have heq : s.exec (.readCode x) = { s with
        sendingLock := s.sendingLock + 1
        threads := Function.update s.threads x (⟨r, .returned⟩ :: as) } := by
      simp [State.exec, State.setPhase, msg, hx]
    rw [heq]
    exact h.release hx rfl msg
  | @callback c zero zero' waits msg mem =>
    have heq : s.exec (.readCode x) = { s with
        sendingLock := s.sendingLock + 1
        threads := Function.update s.threads x (⟨r, .called⟩ :: as) } := by
      simp [State.exec, State.setPhase, msg, hx]
    rw [heq]
    exact h.release hx rfl ⟨c, msg, mem⟩

theorem Lock.local_step {s' : State T} (h : Lock s) (hx : s.threads x = a :: as)
    (hholds : a.holds = false) (hthreads : ∀ y, y ≠ x → s'.threads y = s.threads y)
    (hx' : ∀ a as, s'.threads x = a :: as → a.holds = false)
    (hlock : s'.sendingLock = s.sendingLock)
    (hsending : s'.sendingSemaphore = s.sendingSemaphore)
    (hreceiving : s'.receivingSemaphore = s.receivingSemaphore)
    (hsent : s'.sendingData = s.sendingData) (hgot : s'.receivingData = s.receivingData)
    (hlibrary : s'.library = s.library) : Lock s' := by
  cases h with
  | free one zero zero' waits none =>
    refine .free (hlock.trans one) (hsending.trans zero) (hreceiving.trans zero')
      (hlibrary ▸ waits) fun y b bs hy ↦ ?_
    by_cases hyx : y = x
    · exact hx' b bs (hyx ▸ hy)
    · exact none y b bs ((hthreads y hyx).symm.trans hy)
  | held z zero top exchange others =>
    have hzx : z ≠ x := by
      rintro rfl
      obtain ⟨rfl, -⟩ := List.cons.inj (hx.symm.trans top)
      exact nomatch hholds.symm.trans (exchange_holds exchange)
    refine .held z (hlock.trans zero) ((hthreads z hzx).trans top) ?_ fun y hy b bs hyb ↦ ?_
    · unfold State.Exchange
      rw [hsending, hreceiving, hsent, hgot, hlibrary]
      exact exchange
    · by_cases hyx : y = x
      · exact hx' b bs (hyx ▸ hyb)
      · exact others y hy b bs ((hthreads y hyx).symm.trans hyb)

theorem Inv.load (h : Inv s) (hphase : s.phase x = some .returned) : Inv (s.exec (.load x)) := by
  obtain ⟨r, as, hx⟩ := State.phase_eq_some hphase
  have hgot : Activation.Ok s.library s.receivingData ⟨r, .returned⟩ :=
    h.wrappers.ok x _ (hx ▸ List.mem_cons_self)
  have heq : s.exec (.load x) = { s with
      threads := Function.update s.threads x as
      log := .loaded r s.receivingData :: s.log } := by
    simp only [State.exec, hx]
  rw [heq]
  refine ⟨h.lock.local_step hx rfl (fun y hy ↦ Function.update_of_ne hy ..) (fun b bs hb ↦ ?_)
    rfl rfl rfl rfl rfl rfl, h.wrappers.pop hx, h.callbacks, h.callbacks_lt, h.alive, ?_, ?_⟩
  · change Function.update s.threads x as x = b :: bs at hb
    rw [Function.update_self] at hb
    exact h.wrappers.below x _ as hx b (hb ▸ List.mem_cons_self)
  · intro request m hm
    rcases List.mem_cons.mp hm with heq | hm
    · cases heq
      exact hgot
    · exact h.noCrossTalk.loaded request m hm
  · intro callback m hm
    rcases List.mem_cons.mp hm with heq | hm
    · cases heq
    · exact h.noCrossTalk.consumed callback m hm

theorem Inv.readCallback (h : Inv s) (hphase : s.phase x = some .called) :
    Inv (s.exec (.readCallback x)) := by
  obtain ⟨r, as, hx⟩ := State.phase_eq_some hphase
  have hok : Activation.Ok s.library s.receivingData ⟨r, .called⟩ :=
    h.wrappers.ok x _ (hx ▸ List.mem_cons_self)
  obtain ⟨c, hgot, hmem⟩ := hok
  have heq : s.exec (.readCallback x) = { s with
      threads := Function.update s.threads x (⟨r, .handling c⟩ :: as) } := by
    change s.setPhase x (.handling s.receivingData.id) = _
    rw [State.setPhase_eq hx, hgot]
  rw [heq]
  refine ⟨h.lock.local_step hx rfl (fun y hy ↦ Function.update_of_ne hy ..) (fun b bs hb ↦ ?_)
    rfl rfl rfl rfl rfl rfl, h.wrappers.setTop hx hmem, h.callbacks, h.callbacks_lt, h.alive,
    h.noCrossTalk.loaded, h.noCrossTalk.consumed⟩
  change Function.update s.threads x (⟨r, .handling c⟩ :: as) x = b :: bs at hb
  rw [Function.update_self] at hb
  cases hb
  rfl

/-! ## The steps of the library -/

omit [DecidableEq T] in
theorem Inv.libraryReceive_cases (h : Inv s) (hsem : 0 < s.sendingSemaphore) :
    ∃ x r as, s.threads x = ⟨r, .waiting⟩ :: as ∧ s.sendingLock = 0 ∧
      s.sendingSemaphore = 1 ∧ s.receivingSemaphore = 0 ∧ Waits s.library ∧
      (∀ y, y ≠ x → ∀ a as, s.threads y = a :: as → a.holds = false) ∧
      (s.sendingData.code ≠ 1 ∧ s.sendingData.id = r ∨
        ∃ c l, s.sendingData = ⟨1, c⟩ ∧ s.library = ⟨r, some c⟩ :: l) := by
  cases h.lock with
  | free one zero zero' waits none => exact absurd zero (Nat.ne_of_gt hsem)
  | @held x r phase as lock top exchange others =>
    cases exchange with
    | requesting one zero waits code id =>
      exact ⟨x, r, as, top, lock, one, zero, waits, others, Or.inl ⟨code, id⟩⟩
    | @replying c l one zero waits msg hl =>
      exact ⟨x, r, as, top, lock, one, zero, waits, others, Or.inr ⟨c, l, msg, hl⟩⟩
    | _ => exact absurd ‹s.sendingSemaphore = 0› (Nat.ne_of_gt hsem)

theorem Inv.libraryReceive (h : Inv s) (hsem : 0 < s.sendingSemaphore) :
    Inv (s.exec .libraryReceive) := by
  obtain ⟨x, r, as, hx, hlock, hone, hzero, hwaits, hothers, ⟨hcode, rfl⟩ | ⟨c, l, hmsg, hl⟩⟩ :=
    h.libraryReceive_cases hsem
  · -- a request
    have heq : s.exec .libraryReceive = { s with
        sendingSemaphore := s.sendingSemaphore - 1
        library := ⟨s.sendingData.id, none⟩ :: s.library } := by
      change { s with sendingSemaphore := s.sendingSemaphore - 1 }.accept s.sendingData = _
      unfold State.accept
      split
      · rw [if_neg hcode]
      · rw [if_neg hcode]
    rw [heq]
    refine ⟨.held x hlock hx (.served ?_ hzero rfl hwaits) hothers,
      h.wrappers.mono (Nat.le_refl _) fun y b _ hb ↦
        hb.mono (fun c ↦ List.mem_cons_of_mem _) (Or.inl rfl),
      h.callbacks, h.callbacks_lt, h.alive, h.noCrossTalk.loaded, h.noCrossTalk.consumed⟩
    change s.sendingSemaphore - 1 = 0
    rw [hone]
  · -- the result of the innermost callback
    have heq : s.exec .libraryReceive = { s with
        sendingSemaphore := s.sendingSemaphore - 1
        library := ⟨r, none⟩ :: l
        log := .consumed c ⟨1, c⟩ :: s.log } := by
      simp [State.exec, State.accept, hl, hmsg]
    rw [heq]
    have hnodup := h.callbacks
    have hlt := h.callbacks_lt
    rw [hl] at hnodup hlt
    have hwaits' : Waits l := fun f hf ↦ hwaits f (hl ▸ List.mem_cons_of_mem _ hf)
    refine ⟨.held x hlock hx (.served ?_ hzero rfl hwaits') hothers,
      h.wrappers.mono (Nat.le_refl _) fun y b hb hok ↦ ?_, (List.nodup_cons.mp hnodup).2,
      fun c' hc' ↦ hlt c' (List.mem_cons_of_mem _ hc'), h.alive, ?_, ?_⟩
    · change s.sendingSemaphore - 1 = 0
      rw [hone]
    · by_cases htop : b = ⟨r, .waiting⟩
      · rw [htop]
        trivial
      · -- another wrapper has another request
        have hne : b.request ≠ r := h.wrappers.ne_top hx hb fun hyx ↦ by
          subst hyx
          rw [hx] at hb
          exact (List.mem_cons.mp hb).resolve_left htop
        refine hok.mono (fun c' hc' ↦ ?_) (Or.inl rfl)
        rw [hl] at hc'
        rcases List.mem_cons.mp hc' with heq | hc'
        · exact absurd (congrArg Frame.request heq) hne
        · exact List.mem_cons_of_mem _ hc'
    · intro request m hm
      rcases List.mem_cons.mp hm with heq | hm
      · cases heq
      · exact h.noCrossTalk.loaded request m hm
    · intro callback m hm
      rcases List.mem_cons.mp hm with heq | hm
      · cases heq
        rfl
      · exact h.noCrossTalk.consumed callback m hm

omit [DecidableEq T] in
theorem Inv.libraryRuns (h : Inv s) (hwaits : s.libraryWaits = false) :
    ∃ x r as l, s.threads x = ⟨r, .waiting⟩ :: as ∧ s.sendingLock = 0 ∧
      s.sendingSemaphore = 0 ∧ s.receivingSemaphore = 0 ∧ s.library = ⟨r, none⟩ :: l ∧ Waits l ∧
      ∀ y, y ≠ x → ∀ a as, s.threads y = a :: as → a.holds = false := by
  have hnot : ¬ Waits s.library := by
    intro hw
    unfold State.libraryWaits at hwaits
    cases hl : s.library with
    | nil =>
      rw [hl] at hwaits
      cases hwaits
    | cons f l =>
      rw [hl] at hwaits
      exact hw f (hl ▸ List.mem_cons_self)
        (Option.isNone_iff_eq_none.mp (Option.isSome_eq_false_iff.mp hwaits))
  cases h.lock with
  | free one zero zero' waits none => exact absurd waits hnot
  | @held x r phase as lock top exchange others =>
    cases exchange with
    | @served l zero zero' hl waits =>
      exact ⟨x, r, as, l, top, lock, zero, zero', hl, waits, others⟩
    | _ => exact absurd ‹Waits s.library› hnot

theorem Inv.libraryCall (h : Inv s) (hwaits : s.libraryWaits = false)
    (hok : KeepsUnread s .libraryCall) : Inv (s.exec .libraryCall) := by
  obtain ⟨x, r, as, l, hx, hlock, hzero, hzero', hl, hw, hothers⟩ := h.libraryRuns hwaits
  have hnodup := h.callbacks
  have hlt := h.callbacks_lt
  rw [hl] at hnodup hlt
  have heq : s.exec .libraryCall = { s with
      library := ⟨r, some s.next⟩ :: l
      receivingData := ⟨2, s.next⟩
      receivingSemaphore := s.receivingSemaphore + 1
      next := s.next + 1 } := by
    simp [State.exec, State.send, hl]
  rw [heq]
  refine ⟨.held x hlock hx (.calledBack hzero ?_ ?_ rfl List.mem_cons_self) hothers,
    h.wrappers.mono (Nat.le_succ _) fun y b hb hbok ↦
      hbok.mono (fun c hc ↦ ?_) (Or.inr (hok y b hb)),
    List.nodup_cons.mpr ⟨fun hmem ↦ Nat.lt_irrefl _ (hlt _ hmem), hnodup⟩, fun c hc ↦ ?_,
    h.alive, h.noCrossTalk.loaded, h.noCrossTalk.consumed⟩
  · change s.receivingSemaphore + 1 = 1
    rw [hzero']
  · intro f hf
    rcases List.mem_cons.mp hf with rfl | hf
    · exact Option.some_ne_none _
    · exact hw f hf
  · rw [hl] at hc
    rcases List.mem_cons.mp hc with heq | hc
    · cases heq
    · exact List.mem_cons_of_mem _ hc
  · rcases List.mem_cons.mp hc with rfl | hc
    · exact Nat.lt_succ_self _
    · exact Nat.lt_succ_of_lt (hlt c hc)

theorem Inv.libraryReply (h : Inv s) (hwaits : s.libraryWaits = false)
    (hok : KeepsUnread s .libraryReply) : Inv (s.exec .libraryReply) := by
  obtain ⟨x, r, as, l, hx, hlock, hzero, hzero', hl, hw, hothers⟩ := h.libraryRuns hwaits
  have hnodup := h.callbacks
  have hlt := h.callbacks_lt
  rw [hl] at hnodup hlt
  have heq : s.exec .libraryReply = { s with
      library := l
      receivingData := ⟨1, r⟩
      receivingSemaphore := s.receivingSemaphore + 1 } := by
    simp [State.exec, State.send, hl]
  rw [heq]
  refine ⟨.held x hlock hx (.answered hzero ?_ hw rfl) hothers,
    h.wrappers.mono (Nat.le_refl _) fun y b hb hbok ↦
      hbok.mono (fun c hc ↦ ?_) (Or.inr (hok y b hb)),
    hnodup, hlt, h.alive, h.noCrossTalk.loaded, h.noCrossTalk.consumed⟩
  · change s.receivingSemaphore + 1 = 1
    rw [hzero']
  · rw [hl] at hc
    rcases List.mem_cons.mp hc with heq | hc
    · cases heq
    · exact hc

/-! ## Runs -/

/-- **Every orderly step keeps the invariant.** -/
theorem Inv.step {s' : State T} {action : Action T} (h : Inv s) (hok : Orderly s action)
    (hstep : Step s action s') : Inv s' := by
  obtain ⟨henabled, rfl⟩ := hstep
  cases action <;>
    simp only [State.enabled, Bool.and_eq_true, decide_eq_true_eq, Bool.not_eq_true'] at henabled
  case start x => exact h.start henabled.1
  case finish x =>
    obtain ⟨hlock, htop⟩ := henabled
    split at htop
    · next hphase => exact h.finish hlock hphase
    · cases htop
  case write x code =>
    obtain ⟨hcode, htop⟩ := henabled
    split at htop
    · next hphase => exact h.write hcode hphase
    · cases htop
  case trigger x =>
    split at henabled
    · next hphase => exact h.trigger hphase hok.2
    · cases henabled
  case receive x => exact h.receive henabled.1 henabled.2
  case readCode x => exact h.readCode henabled.1
  case load x => exact h.load henabled
  case readCallback x => exact h.readCallback henabled
  case libraryReceive => exact h.libraryReceive henabled.2
  case libraryCall => exact h.libraryCall henabled.2 hok.1
  case libraryReply => exact h.libraryReply henabled.2 hok.1

omit [DecidableEq T] in
theorem inv_init : Inv (.init : State T) where
  lock := .free rfl rfl rfl nofun nofun
  wrappers := ⟨nofun, nofun, nofun, fun _ ↦ List.nodup_nil, nofun⟩
  callbacks := List.nodup_nil
  callbacks_lt := nofun
  alive := rfl
  noCrossTalk := ⟨nofun, nofun⟩

/-- **No cross-talk** in the runs whose steps are orderly, for any number of threads. -/
theorem noCrossTalk_of_orderly {t : List (Action T × State T)} (hrun : IsRun Step .init t)
    (hok : RunOk Orderly .init t) : ∀ s ∈ runStates .init t, NoCrossTalk s := by
  intro s hs
  exact (hrun.invariant (fun _ _ _ h hok hstep ↦ h.step hok hstep) inv_init hok s hs).noCrossTalk

theorem isRun_exec {s : State T} {actions : List (Action T)}
    (h : RunOk (fun s a ↦ s.enabled a = true) s (trace State.exec s actions)) :
    IsRun Step s (trace State.exec s actions) :=
  isRun_trace (h.mono fun _ _ ha ↦ ⟨ha, rfl⟩)

/-- A thread executes a callback while another one calls the library. -/
def orderlyActions : List (Action (Fin 2)) :=
  [.start 0, .write 0 9, .trigger 0, .libraryReceive, .libraryCall, .receive 0, .readCode 0,
    .readCallback 0, .start 1, .write 1 9, .trigger 1, .libraryReceive, .libraryReply, .receive 1,
    .readCode 1, .load 1, .finish 0, .write 0 9, .trigger 0, .libraryReceive, .libraryReply,
    .receive 0, .readCode 0, .load 0]

theorem orderlyActions_noCrossTalk :
    ∃ t, t.length = 24 ∧ IsRun Step (.init : State (Fin 2)) t ∧ RunOk Orderly .init t ∧
      ∀ s ∈ runStates .init t, NoCrossTalk s := by
  have hrun : IsRun Step .init (trace State.exec .init orderlyActions) :=
    isRun_exec (by decide +kernel)
  have hok : RunOk Orderly .init (trace State.exec .init orderlyActions) := by decide +kernel
  exact ⟨_, rfl, hrun, hok, noCrossTalk_of_orderly hrun hok⟩

/-- **A result is overwritten before it is loaded**: the first thread has released the lock,
and the second one calls the library before the first one loads its result. -/
def overwrittenActions : List (Action (Fin 2)) :=
  [.start 0, .write 0 9, .trigger 0, .libraryReceive, .libraryReply, .receive 0, .readCode 0,
    .start 1, .write 1 9, .trigger 1, .libraryReceive, .libraryReply, .load 0]

theorem not_noCrossTalk_overwritten :
    ¬ ∀ t, IsRun Step (.init : State (Fin 2)) t → RunOk AnswersInnermost .init t →
      ∀ s ∈ runStates .init t, NoCrossTalk s := by
  intro hall
  have hrun : IsRun Step .init (trace State.exec .init overwrittenActions) :=
    isRun_exec (by decide +kernel)
  have hlast := hall _ hrun (by decide +kernel) _ (List.getLast_mem (List.cons_ne_nil _ _))
  exact absurd (hlast.loaded 0 ⟨1, 1⟩ (by decide +kernel)) (by decide)

/-- **Callbacks that end in another order**: the library waits for the second of two
callbacks, and the thread with the first one sends its result. -/
def crossedActions : List (Action (Fin 2)) :=
  [.start 0, .write 0 9, .trigger 0, .libraryReceive, .libraryCall, .receive 0, .readCode 0,
    .readCallback 0, .start 1, .write 1 9, .trigger 1, .libraryReceive, .libraryCall, .receive 1,
    .readCode 1, .readCallback 1, .finish 0, .write 0 9, .trigger 0, .libraryReceive]

theorem not_noCrossTalk_crossed :
    ¬ ∀ t, IsRun Step (.init : State (Fin 2)) t → RunOk KeepsUnread .init t →
      ∀ s ∈ runStates .init t, NoCrossTalk s := by
  intro hall
  have hrun : IsRun Step .init (trace State.exec .init crossedActions) :=
    isRun_exec (by decide +kernel)
  have hlast := hall _ hrun (by decide +kernel) _ (List.getLast_mem (List.cons_ne_nil _ _))
  exact absurd (hlast.consumed 3 ⟨1, 1⟩ (by decide +kernel)) (by decide)

end Cali.Ipc.Concurrent
