import Cali.Ipc.Services
import Cali.Ipc.Token
import Cali.Lib.Pairing

/-!
# The descriptor tables of two processes

After the fork the program and the library have a copy of one `FileDescriptorMapping` each.
`mapToOtherSide` sends a descriptor to the other process and enters the numbers that it has
here and there into both tables; the hook of `close` takes the entry out again and has the
other process close its descriptor, too.

What the other process does is what it does for the requests of `Cali.Ipc.Services`.
-/

namespace Cali.Ipc.Descriptors

open Cali.Lib Cali.Ipc.Services

@[simp] theorem other_other (x : Side) : x.other.other = x := by
  cases x <;> rfl

theorem other_ne (x : Side) : x.other ≠ x := by
  cases x <;> decide

theorem ne_other (x : Side) : x ≠ x.other := by
  cases x <;> decide

abbrev System := Side → Services.Process

/-! ## Operations -/

section Operations

variable (this : BitVec 64) (s : System) (x : Side) (fd : ℤ)

/-- `open`, with the number that the kernel chooses -/
def openFd : System :=
  Function.update s x { s x with descriptors := Function.update (s x).descriptors fd true }

/-- `internal_receive_fd`, when `recvfd` gives the number. -/
def receive (p : Services.Process) (received pid : ℤ) : Services.Process × ℤ :=
  { p with recvfd := Function.update p.recvfd this received }.internalReceiveFd this fd pid

/-- `mapToOtherSide`, with the number that `recvfd` gives in the other process.  The result
has the returned number and whether the descriptor has been sent; a descriptor that is not
open cannot be sent. -/
def mapToOtherSide (received : ℤ) : System × ℤ × Bool :=
  let t := (s x).tables this
  if t.fd fd ≠ notSet then (s, t.fd fd, false)
  else if (s x).descriptors fd = false then (s, fd, false)
  else
    let r := receive this fd (s x.other) received (s x).pid
    let t : Table := ⟨Function.update t.fd fd r.2, Function.update t.pid fd 0⟩
    (Function.update (Function.update s x.other r.1) x
      { s x with tables := Function.update (s x).tables this t }, r.2, true)

/-- `onCloseLocal`, with propagation -/
def onCloseLocal : System :=
  let t := (s x).tables this
  if 0 ≤ fd ∧ t.fd fd ≠ notSet then
    let t' : Table := { t with fd := Function.update t.fd fd notSet }
    Function.update
      (Function.update s x { s x with tables := Function.update (s x).tables this t' })
      x.other ((s x.other).internalCloseFd (t.fd fd) (t.pid fd))
  else s

/-- `onClose`, with propagation -/
def onClose : System :=
  if (s x).hasForked = true ∧ 0 ≤ fd then
    (s x).mappings.foldl (fun s p ↦ onCloseLocal p s x fd) s
  else s

/-- `close` -/
def close : System :=
  onClose (Function.update s x
    { s x with descriptors := Function.update (s x).descriptors fd false }) x fd

end Operations

/-! ## Runs -/

inductive Action
  | openFd (x : Side) (fd : ℤ)
  | map (x : Side) (fd received : ℤ)
  | closeFd (x : Side) (fd : ℤ)
deriving DecidableEq, Repr

variable {this : BitVec 64} {s s' : System} {x : Side} {fd : ℤ}

/-- The descriptor is not mapped yet, and it is sent. -/
def Sends (this : BitVec 64) (s : System) (x : Side) (fd : ℤ) : Prop :=
  ((s x).tables this).fd fd = notSet ∧ (s x).descriptors fd = true

instance : Decidable (Sends this s x fd) := inferInstanceAs (Decidable (_ ∧ _))

/-- The kernel gives a descriptor a number that is free. -/
def Chooses (s : System) (x : Side) (fd : ℤ) : Prop := InTable fd ∧ (s x).descriptors fd = false

instance : Decidable (Chooses s x fd) := inferInstanceAs (Decidable (_ ∧ _))

def exec (this : BitVec 64) (s : System) : Action → System
  | .openFd x fd => openFd s x fd
  | .map x fd received => (mapToOtherSide this s x fd received).1
  | .closeFd x fd => close s x fd

/-- The numbers are those of descriptors, and the kernel chooses new ones. -/
def Enabled (this : BitVec 64) (s : System) : Action → Prop
  | .openFd x fd => Chooses s x fd
  | .map x fd received => InTable fd ∧ (Sends this s x fd → Chooses s x.other received)
  | .closeFd _ fd => InTable fd

instance (a : Action) : Decidable (Enabled this s a) := by
  cases a <;> unfold Enabled <;> infer_instance

def Step (this : BitVec 64) (s : System) (a : Action) (s' : System) : Prop :=
  Enabled this s a ∧ s' = exec this s a

/-- The processes after the fork: one mapping each, with the tables of its constructor, and the
standard descriptors are open. -/
structure Start (this : BitVec 64) (s : System) : Prop where
  mappings : ∀ x, (s x).mappings = [this]
  hasForked : ∀ x, (s x).hasForked = true
  table : ∀ x i, InTable i → ((s x).tables this).fd i = if i ≤ 2 then i else notSet
  isOpen : ∀ x i, 0 ≤ i → i ≤ 2 → (s x).descriptors i = true

/-- **The tables are mutually inverse**, and what is mapped is open on both sides. -/
structure Mutual (this : BitVec 64) (s : System) : Prop where
  inverse : ∀ a b, InTable a → InTable b →
    (((s .main).tables this).fd a = b ↔ ((s .library).tables this).fd b = a)
  isOpen : ∀ x a, InTable a → ((s x).tables this).fd a ≠ notSet →
    (s x).descriptors a = true ∧ InTable (((s x).tables this).fd a) ∧
      (s x.other).descriptors (((s x).tables this).fd a) = true

/-- The action closes neither of the two descriptors. -/
def KeepsOpen (x : Side) (fd remoteFd : ℤ) : Action → Prop
  | .closeFd y i => (y = x → i ≠ fd) ∧ (y = x.other → i ≠ remoteFd)
  | _ => True

/-- Once a descriptor has been mapped, and until it is closed on one of the sides, it is mapped
to the same number again, and it is not sent. -/
def MapsAgain (this : BitVec 64) (s : System) : Prop :=
  ∀ x fd received, Enabled this s (.map x fd received) → (s x).descriptors fd = true →
    ∀ t, IsRun (Step this) (mapToOtherSide this s x fd received).1 t →
      RunOk (fun _ ↦ KeepsOpen x fd (mapToOtherSide this s x fd received).2.1)
        (mapToOtherSide this s x fd received).1 t →
      ∀ s' ∈ runStates (mapToOtherSide this s x fd received).1 t, ∀ received',
        mapToOtherSide this s' x fd received' =
          (s', (mapToOtherSide this s x fd received).2.1, false)

/-! ## What the operations do to the tables -/

/-- The entry of a table. -/
def entry (t : Table) (i : ℤ) : Option ℤ :=
  if InTable i ∧ t.fd i ≠ notSet then some (t.fd i) else none

theorem ne_notSet_of_inTable {i : ℤ} (h : InTable i) : i ≠ notSet := by
  unfold InTable at h
  unfold notSet
  omega

theorem entry_eq_some {t : Table} {i j : ℤ} :
    entry t i = some j ↔ InTable i ∧ t.fd i = j ∧ j ≠ notSet := by
  unfold entry
  constructor
  · intro h
    split at h
    next hi =>
      obtain rfl := Option.some.inj h
      exact ⟨hi.1, rfl, hi.2⟩
    next => cases h
  · rintro ⟨hi, rfl, hne⟩
    exact if_pos ⟨hi, hne⟩

theorem entry_eq_none {t : Table} {i : ℤ} (hi : InTable i) :
    entry t i = none ↔ t.fd i = notSet := by
  unfold entry
  simp [hi]

theorem entry_update {t : Table} {i j : ℤ} {pid : ℤ → ℤ} (hi : InTable i) (hj : InTable j) :
    entry ⟨Function.update t.fd i j, pid⟩ = Function.update (entry t) i (some j) := by
  funext k
  by_cases hk : k = i
  · simp [entry, hk, hi, ne_notSet_of_inTable hj]
  · simp [entry, hk]

theorem entry_update_notSet {t : Table} {i : ℤ} {pid : ℤ → ℤ} :
    entry ⟨Function.update t.fd i notSet, pid⟩ = Function.update (entry t) i none := by
  funext k
  by_cases hk : k = i
  · simp [entry, hk]
  · simp [entry, hk]

/-! ## The abstract system -/

/-- What the two tables say, and which descriptors are open. -/
@[ext] structure Abstract where
  table : Side → ℤ → Option ℤ
  isOpen : Side → ℤ → Bool

/-- One value of one side is changed. -/
def put {γ : Type} (f : Side → ℤ → γ) (x : Side) (i : ℤ) (v : γ) : Side → ℤ → γ :=
  Function.update f x (Function.update (f x) i v)

theorem put_apply {γ : Type} (f : Side → ℤ → γ) (x y : Side) (i j : ℤ) (v : γ) :
    put f x i v y j = if y = x ∧ j = i then v else f y j := by
  unfold put
  by_cases hy : y = x
  · subst hy
    simp [Function.update_apply]
  · simp [hy]

theorem put_self {γ : Type} (f : Side → ℤ → γ) (x : Side) (i : ℤ) (v : γ) :
    put f x i v x = Function.update (f x) i v := Function.update_self ..

theorem put_of_ne {γ : Type} (f : Side → ℤ → γ) {x y : Side} (hy : y ≠ x) (i : ℤ) (v : γ) :
    put f x i v y = f y := Function.update_of_ne hy ..

/-- The steps of the abstract system: a descriptor is opened; nothing is to be sent; a
descriptor is sent and gets a number that is free; a descriptor is closed alone; and the
two descriptors of a pair are closed. -/
inductive Moves : Abstract → Action → Abstract → Prop
  | opens {A x fd} (hfree : A.isOpen x fd = false) :
      Moves A (.openFd x fd) ⟨A.table, put A.isOpen x fd true⟩
  | stays {A x fd received} (h : A.table x fd ≠ none ∨ A.isOpen x fd = false) :
      Moves A (.map x fd received) A
  | sends {A x fd received} (hnone : A.table x fd = none) (hopen : A.isOpen x fd = true)
      (hfree : A.isOpen x.other received = false) :
      Moves A (.map x fd received)
        ⟨put (put A.table x fd (some received)) x.other received (some fd),
          put A.isOpen x.other received true⟩
  | closes {A x fd} (hnone : A.table x fd = none) :
      Moves A (.closeFd x fd) ⟨A.table, put A.isOpen x fd false⟩
  | closesPair {A x fd r} (hpair : A.table x fd = some r) :
      Moves A (.closeFd x fd) ⟨put (put A.table x fd none) x.other r none,
        put (put A.isOpen x fd false) x.other r false⟩

/-- The tables are inverse to each other, and what is mapped is open. -/
structure Coupled (A : Abstract) : Prop where
  paired : ∀ x, Paired (A.table x) (A.table x.other)
  isOpen : ∀ x i r, A.table x i = some r → A.isOpen x i = true

section Abstract

variable {A B : Abstract} {a : Action}

theorem paired_of_parent {T : Side → ℤ → Option ℤ} {x : Side} (h : Paired (T x) (T x.other)) :
    ∀ y, Paired (T y) (T y.other) := by
  intro y
  cases x <;> cases y
  · exact h
  · exact h.symm
  · exact h.symm
  · exact h

/-- **One step** keeps the tables coupled. -/
theorem Coupled.moves (h : Coupled A) (hmove : Moves A a B) : Coupled B := by
  cases hmove with
  | @opens x fd hfree =>
    refine ⟨h.paired, fun y i r hi ↦ ?_⟩
    dsimp only at hi ⊢
    rw [put_apply]
    split
    · rfl
    · exact h.isOpen y i r hi
  | stays _ => exact h
  | @sends x fd received hnone hopen hfree =>
    have hnone' : A.table x.other received = none := by
      cases hr : A.table x.other received with
      | none => rfl
      | some r => exact absurd (hfree.symm.trans (h.isOpen _ _ r hr)) Bool.false_ne_true
    constructor
    · refine paired_of_parent (x := x) ?_
      dsimp only
      rw [put_self, put_of_ne _ (ne_other x), put_self, put_of_ne _ (other_ne x)]
      exact (h.paired x).insert hnone hnone'
    · intro y i r hi
      simp only [put_apply] at hi ⊢
      by_cases hnew : y = x.other ∧ i = received
      · rw [if_pos hnew]
      · rw [if_neg hnew] at hi ⊢
        split at hi
        next hold =>
          rw [hold.1, hold.2]
          exact hopen
        next => exact h.isOpen y i r hi
  | @closes x fd hnone =>
    refine ⟨h.paired, fun y i r hi ↦ ?_⟩
    dsimp only at hi ⊢
    rw [put_apply, if_neg]
    · exact h.isOpen y i r hi
    · rintro ⟨rfl, rfl⟩
      rw [hnone] at hi
      cases hi
  | @closesPair x fd r hpair =>
    constructor
    · refine paired_of_parent (x := x) ?_
      dsimp only
      rw [put_self, put_of_ne _ (ne_other x), put_self, put_of_ne _ (other_ne x)]
      exact (h.paired x).erase hpair
    · intro y i r' hi
      simp only [put_apply] at hi ⊢
      split at hi
      · cases hi
      next hremote =>
        split at hi
        · cases hi
        next hlocal =>
          rw [if_neg hremote, if_neg hlocal]
          exact h.isOpen y i r' hi

theorem Coupled.table_moves (h : Coupled A) (hmove : Moves A a B) {r : ℤ}
    (hpair : A.table x fd = some r) (hkeep : KeepsOpen x fd r a) : B.table x fd = some r := by
  cases hmove with
  | opens _ => exact hpair
  | stays _ => exact hpair
  | @sends y i received hnone hopen hfree =>
    have hopenx := h.isOpen x fd r hpair
    simp only [put_apply]
    rw [if_neg, if_neg]
    · exact hpair
    · rintro ⟨rfl, rfl⟩
      rw [hnone] at hpair
      cases hpair
    · rintro ⟨rfl, rfl⟩
      exact absurd (hfree.symm.trans hopenx) Bool.false_ne_true
  | closes _ => exact hpair
  | @closesPair y i r' hpair' =>
    simp only [put_apply]
    rw [if_neg, if_neg]
    · exact hpair
    · rintro ⟨rfl, rfl⟩
      exact hkeep.1 rfl rfl
    · rintro ⟨rfl, rfl⟩
      have hback := (h.paired y.other fd r).mp hpair
      have hback' := (h.paired y i fd).mp hpair'
      rw [hpair] at hback'
      obtain rfl := Option.some.inj hback'
      exact hkeep.2 (other_other y).symm rfl

end Abstract

/-! ## Refinement -/

/-- The abstract state of two processes. -/
def abstract (this : BitVec 64) (s : System) : Abstract where
  table x := entry ((s x).tables this)
  isOpen x := (s x).descriptors

/-- Each process has forked and has the one mapping. -/
structure Framed (this : BitVec 64) (s : System) : Prop where
  mappings : ∀ x, (s x).mappings = [this]
  hasForked : ∀ x, (s x).hasForked = true

theorem abstract_update (p : Services.Process) :
    abstract this (Function.update s x p) =
      ⟨Function.update (abstract this s).table x (entry (p.tables this)),
        Function.update (abstract this s).isOpen x p.descriptors⟩ := by
  ext y : 2
  · by_cases hy : y = x
    · subst hy
      simp [abstract]
    · simp [abstract, hy]
  · by_cases hy : y = x
    · subst hy
      simp [abstract]
    · simp [abstract, hy]

theorem Framed.update (h : Framed this s) {p : Services.Process}
    (hmappings : p.mappings = (s x).mappings) (hforked : p.hasForked = (s x).hasForked) :
    Framed this (Function.update s x p) := by
  constructor
  · intro y
    by_cases hy : y = x
    · subst hy
      rw [Function.update_self, hmappings, h.mappings]
    · rw [Function.update_of_ne hy, h.mappings]
  · intro y
    by_cases hy : y = x
    · subst hy
      rw [Function.update_self, hforked, h.hasForked]
    · rw [Function.update_of_ne hy, h.hasForked]

theorem put_put {γ : Type} (f : Side → ℤ → γ) (x : Side) (i j : ℤ) (v w : γ) :
    put (put f x i v) x.other j w =
      Function.update (Function.update f x (Function.update (f x) i v)) x.other
        (Function.update (f x.other) j w) := by
  unfold put
  rw [Function.update_of_ne (other_ne x)]

/-- **Opening** a descriptor. -/
theorem moves_open (hf : Framed this s) (h : Enabled this s (.openFd x fd)) :
    Moves (abstract this s) (.openFd x fd) (abstract this (openFd s x fd)) ∧
      Framed this (openFd s x fd) := by
  refine ⟨?_, hf.update rfl rfl⟩
  have heq : abstract this (openFd s x fd) =
      ⟨(abstract this s).table, put (abstract this s).isOpen x fd true⟩ := by
    rw [openFd, abstract_update]
    congr 1
    exact Function.update_eq_self x (abstract this s).table
  rw [heq]
  exact .opens h.2

theorem receive_spec (this : BitVec 64) (p : Services.Process) {received : ℤ} (hfd : InTable fd)
    (hreceived : InTable received) (pid : ℤ) :
    (receive this fd p received pid).2 = received ∧
      (receive this fd p received pid).1.mappings = p.mappings ∧
      (receive this fd p received pid).1.hasForked = p.hasForked ∧
      entry ((receive this fd p received pid).1.tables this) =
        Function.update (entry (p.tables this)) received (some fd) ∧
      (receive this fd p received pid).1.descriptors =
        Function.update p.descriptors received true := by
  have hrecv : Function.update p.recvfd this received this = received := Function.update_self ..
  unfold receive Services.Process.internalReceiveFd Services.Process.fromOtherSide
  simp only [hrecv, Function.update_self, entry_update hreceived hfd, if_pos hreceived.1, and_self]

/-- **Sending** a descriptor. -/
theorem moves_map {received : ℤ} (hf : Framed this s) (h : Enabled this s (.map x fd received)) :
    Moves (abstract this s) (.map x fd received)
        (abstract this (mapToOtherSide this s x fd received).1) ∧
      Framed this (mapToOtherSide this s x fd received).1 := by
  obtain ⟨hfd, hchooses⟩ := h
  unfold mapToOtherSide
  dsimp only
  by_cases hset : ((s x).tables this).fd fd ≠ notSet
  · rw [if_pos hset]
    refine ⟨.stays (Or.inl fun hnone ↦ hset ((entry_eq_none hfd).mp hnone)), hf⟩
  · rw [if_neg hset]
    rw [ne_eq, not_not] at hset
    by_cases hclosed : (s x).descriptors fd = false
    · rw [if_pos hclosed]
      exact ⟨.stays (Or.inr hclosed), hf⟩
    · rw [if_neg hclosed]
      rw [Bool.not_eq_false] at hclosed
      obtain ⟨hreceived, hfree⟩ := hchooses ⟨hset, hclosed⟩
      obtain ⟨hresult, hmappings, hforked, htable, hopen⟩ :=
        receive_spec this (s x.other) hfd hreceived (s x).pid
      have hne := Function.update_of_ne (ne_other x)
        (receive this fd (s x.other) received (s x).pid).1 s
      refine ⟨?_, (hf.update hmappings hforked).update ?_ ?_⟩
      · have hmoves : Moves (abstract this s) (.map x fd received) _ :=
          .sends ((entry_eq_none hfd).mpr hset) hclosed hfree
        convert hmoves using 1
        rw [abstract_update, abstract_update]
        refine Abstract.ext ?_ ?_
        · dsimp only
          rw [Function.update_self, hresult, htable, entry_update hfd hreceived, put_put,
            Function.update_comm (ne_other x)]
          rfl
        · dsimp only
          have hsame : (s x).descriptors = put (abstract this s).isOpen x.other received true x :=
            (put_of_ne (abstract this s).isOpen (ne_other x) received true).symm
          rw [hopen, hsame]
          exact Function.update_eq_self x (put (abstract this s).isOpen x.other received true)
      · rw [hne]
      · rw [hne]

theorem internalCloseFd_spec {p : Services.Process} (hmappings : p.mappings = [this])
    (hforked : p.hasForked = true) (hfd : InTable fd) (pid : ℤ) :
    (p.internalCloseFd fd pid).mappings = p.mappings ∧
      (p.internalCloseFd fd pid).hasForked = p.hasForked ∧
      entry ((p.internalCloseFd fd pid).tables this) =
        Function.update (entry (p.tables this)) fd none ∧
      (p.internalCloseFd fd pid).descriptors = Function.update p.descriptors fd false := by
  refine ⟨?_, ?_, ?_, descriptors_internalCloseFd fd pid⟩
  · simp only [Services.Process.internalCloseFd, onClose_eq]
  · simp only [Services.Process.internalCloseFd, onClose_eq]
  · have hin : p.hasForked = true ∧ 0 ≤ fd ∧ this ∈ p.mappings :=
      ⟨hforked, hfd.1, by simp [hmappings]⟩
    rw [tables_internalCloseFd, if_pos hin]
    funext i
    by_cases hi : i = fd
    · simp [entry, fd_onCloseLocal _ hfd.1, hi]
    · simp [entry, fd_onCloseLocal _ hfd.1, hi]

/-- The descriptor is closed before the tables are looked at. -/
def closeOnly (s : System) (x : Side) (fd : ℤ) : System :=
  Function.update s x { s x with descriptors := Function.update (s x).descriptors fd false }

theorem close_eq (hf : Framed this s) (hfd : InTable fd) :
    close s x fd = onCloseLocal this (closeOnly s x fd) x fd := by
  have hx : closeOnly s x fd x =
      { s x with descriptors := Function.update (s x).descriptors fd false } :=
    Function.update_self ..
  unfold close onClose
  change (if (closeOnly s x fd x).hasForked = true ∧ 0 ≤ fd then _ else _) = _
  rw [hx, if_pos ⟨hf.hasForked x, hfd.1⟩]
  change List.foldl _ _ (closeOnly s x fd x).mappings = _
  rw [hx, hf.mappings]
  rfl

theorem abstract_closeOnly :
    abstract this (closeOnly s x fd) =
      ⟨(abstract this s).table, put (abstract this s).isOpen x fd false⟩ := by
  rw [closeOnly, abstract_update]
  congr 1
  exact Function.update_eq_self x (abstract this s).table

/-- **Closing** a descriptor. -/
theorem moves_close (hf : Framed this s) (hc : Coupled (abstract this s))
    (h : Enabled this s (.closeFd x fd)) :
    Moves (abstract this s) (.closeFd x fd) (abstract this (close s x fd)) ∧
      Framed this (close s x fd) := by
  have hf₁ : Framed this (closeOnly s x fd) := hf.update rfl rfl
  have hx : (closeOnly s x fd x).tables = (s x).tables := by simp [closeOnly]
  have hother : closeOnly s x fd x.other = s x.other := Function.update_of_ne (other_ne x) ..
  rw [close_eq hf h]
  unfold onCloseLocal
  dsimp only
  rw [hx, hother]
  by_cases hset : ((s x).tables this).fd fd = notSet
  · rw [if_neg fun hcond ↦ hcond.2 hset, abstract_closeOnly]
    exact ⟨.closes ((entry_eq_none h).mpr hset), hf₁⟩
  · rw [if_pos ⟨h.1, hset⟩]
    have hpair : (abstract this s).table x fd = some (((s x).tables this).fd fd) :=
      entry_eq_some.mpr ⟨h, rfl, hset⟩
    have hremote : InTable (((s x).tables this).fd fd) :=
      (entry_eq_some.mp ((hc.paired x _ _).mp hpair)).1
    obtain ⟨hmappings, hforked, htable, hopen⟩ := internalCloseFd_spec (hf.mappings x.other)
      (hf.hasForked x.other) hremote (((s x).tables this).pid fd)
    refine ⟨?_, Framed.update (Framed.update hf₁ ?_ ?_) ?_ ?_⟩
    · have hmoves : Moves (abstract this s) (.closeFd x fd) _ := .closesPair hpair
      convert hmoves using 1
      rw [abstract_update, abstract_update, abstract_closeOnly]
      refine Abstract.ext ?_ ?_
      · dsimp only
        rw [htable, Function.update_self, entry_update_notSet, put_put]
        rfl
      · dsimp only
        have hlocal : (closeOnly s x fd x).descriptors =
            Function.update ((abstract this s).isOpen x) fd false := by
          simp [closeOnly, abstract]
        rw [hopen, put_put, hlocal, put, Function.update_idem]
        rfl
    · rfl
    · rfl
    · rw [Function.update_of_ne (other_ne x), hother, hmappings]
    · rw [Function.update_of_ne (other_ne x), hother, hforked]

/-- **Refinement.**  A step of the two processes is a step of the abstract system. -/
theorem moves_of_step {a : Action} (hf : Framed this s) (hc : Coupled (abstract this s))
    (h : Step this s a s') : Moves (abstract this s) a (abstract this s') ∧ Framed this s' := by
  obtain ⟨henabled, rfl⟩ := h
  cases a with
  | openFd x fd => exact moves_open hf henabled
  | map x fd received => exact moves_map hf henabled
  | closeFd x fd => exact moves_close hf hc henabled

/-- The invariant of the runs. -/
def Consistent (this : BitVec 64) (s : System) : Prop :=
  Framed this s ∧ Coupled (abstract this s)

theorem consistent_of_step {a : Action} (h : Consistent this s) (hstep : Step this s a s') :
    Consistent this s' := by
  obtain ⟨hmoves, hf⟩ := moves_of_step h.1 h.2 hstep
  exact ⟨hf, h.2.moves hmoves⟩

theorem consistent_of_start (h : Start this s) : Consistent this s := by
  have htable : ∀ x i j, (abstract this s).table x i = some j ↔ i = j ∧ 0 ≤ i ∧ i ≤ 2 := by
    intro x i j
    change entry _ _ = some j ↔ _
    rw [entry_eq_some]
    constructor
    · rintro ⟨hi, hfd, hj⟩
      rw [h.table x i hi] at hfd
      split at hfd
      · exact ⟨hfd, hi.1, by assumption⟩
      · exact absurd hfd.symm hj
    · rintro ⟨rfl, h0, h2⟩
      have hi : InTable i := ⟨h0, by unfold maxFd; omega⟩
      exact ⟨hi, by rw [h.table x i hi, if_pos h2], ne_notSet_of_inTable hi⟩
  refine ⟨⟨h.mappings, h.hasForked⟩, fun x a b ↦ ?_, fun x i r hi ↦ ?_⟩
  · rw [htable, htable]
    constructor
    · rintro ⟨rfl, hab⟩
      exact ⟨rfl, hab⟩
    · rintro ⟨rfl, hab⟩
      exact ⟨rfl, hab⟩
  · obtain ⟨-, h0, h2⟩ := (htable x i r).mp hi
    exact h.isOpen x i h0 h2

theorem mutual_of_consistent (h : Consistent this s) : Mutual this s := by
  constructor
  · intro a b ha hb
    have hpaired := h.2.paired .main a b
    simp only [abstract, entry_eq_some] at hpaired
    have ha' := ne_notSet_of_inTable ha
    have hb' := ne_notSet_of_inTable hb
    simpa [ha, hb, ha', hb', Side.other] using hpaired
  · intro x a ha hset
    have hpair : (abstract this s).table x a = some (((s x).tables this).fd a) :=
      entry_eq_some.mpr ⟨ha, rfl, hset⟩
    have hback := (h.2.paired x _ _).mp hpair
    exact ⟨h.2.isOpen x _ _ hpair, (entry_eq_some.mp hback).1, h.2.isOpen x.other _ _ hback⟩

/-- A descriptor that is mapped is mapped to the same number, and nothing happens. -/
theorem mapToOtherSide_of_table {r : ℤ} (h : (abstract this s).table x fd = some r)
    (received : ℤ) : mapToOtherSide this s x fd received = (s, r, false) := by
  obtain ⟨-, rfl, hset⟩ := entry_eq_some.mp h
  exact if_pos hset

theorem table_mapToOtherSide {received : ℤ}
    (henabled : Enabled this s (.map x fd received)) (hopen : (s x).descriptors fd = true) :
    (abstract this (mapToOtherSide this s x fd received).1).table x fd =
      some (mapToOtherSide this s x fd received).2.1 := by
  by_cases hset : ((s x).tables this).fd fd = notSet
  · obtain ⟨hreceived, -⟩ := henabled.2 ⟨hset, hopen⟩
    have hresult := (receive_spec this (s x.other) henabled.1 hreceived (s x).pid).1
    simp only [mapToOtherSide, hset, hopen, ne_eq, not_true_eq_false, Bool.true_eq_false,
      ↓reduceIte, abstract, Function.update_self, hresult, entry_update henabled.1 hreceived]
  · have hpair : (abstract this s).table x fd = some (((s x).tables this).fd fd) :=
      entry_eq_some.mpr ⟨henabled.1, rfl, hset⟩
    rw [mapToOtherSide_of_table hpair]
    exact hpair

theorem mapsAgain_of_consistent (h : Consistent this s) : MapsAgain this s := by
  intro x fd received henabled hopen t hrun hok s' hs' received'
  have hpair := table_mapToOtherSide henabled hopen
  have hstart : Consistent this (mapToOtherSide this s x fd received).1 :=
    consistent_of_step h ⟨henabled, rfl⟩
  -- the pair is in the tables of every state
  have hinv : ∀ s' ∈ runStates (mapToOtherSide this s x fd received).1 t, Consistent this s' ∧
      (abstract this s').table x fd = some (mapToOtherSide this s x fd received).2.1 := by
    refine hrun.invariant (fun s₁ a s₂ hs₁ hkeep hstep ↦ ?_) ⟨hstart, hpair⟩ hok
    exact ⟨consistent_of_step hs₁.1 hstep,
      hs₁.1.2.table_moves (moves_of_step hs₁.1.1 hs₁.1.2 hstep).1 hs₁.2 hkeep⟩
  exact mapToOtherSide_of_table (hinv s' hs').2 received'

/-- An open descriptor is mapped to the number that `mapToOtherSide` returns. -/
def MapsOpen (this : BitVec 64) (s : System) : Prop :=
  ∀ x fd received, Enabled this s (.map x fd received) → (s x).descriptors fd = true →
    (abstract this (mapToOtherSide this s x fd received).1).table x fd =
      some (mapToOtherSide this s x fd received).2.1

/-- **The descriptor tables.**  In every state of every run the tables are mutually inverse, a
mapped descriptor is open on both sides, an open descriptor gets mapped, and it is mapped to the
same number again until it is closed. -/
theorem mutual_of_run {t : List (Action × System)} (hs : Start this s)
    (hrun : IsRun (Step this) s t) :
    ∀ s' ∈ runStates s t, Mutual this s' ∧ MapsOpen this s' ∧ MapsAgain this s' := by
  have hconsistent : ∀ s' ∈ runStates s t, Consistent this s' :=
    hrun.always (fun _ _ _ h hstep ↦ consistent_of_step h hstep) (consistent_of_start hs)
  intro s' hs'
  exact ⟨mutual_of_consistent (hconsistent s' hs'), fun _ _ _ ↦ table_mapToOtherSide,
    mapsAgain_of_consistent (hconsistent s' hs')⟩

/-- Both processes right after the fork. -/
def forked : System
  | .main => afterFork
  | .library => { afterFork with pid := 1001 }

/-- The program opens a file and shares it; then the library closes its standard input and
the shared file. -/
def sharesFile : List Action :=
  [.openFd .main 3, .map .main 3 7, .closeFd .library 0, .closeFd .library 7]

theorem mutual_sharesFile :
    ∃ t, IsRun (Step registered) forked t ∧ t.map Prod.fst = sharesFile ∧
      ∀ s ∈ runStates forked t,
        Mutual registered s ∧ MapsOpen registered s ∧ MapsAgain registered s := by
  have hstart : Start registered forked := by
    refine ⟨fun x ↦ ?_, fun x ↦ ?_, fun x i hi ↦ ?_, fun x i h0 h2 ↦ ?_⟩
    · cases x <;> rfl
    · cases x <;> rfl
    · have h0 := hi.1
      cases x <;> simp [forked, afterFork, h0]
    · have hi : i = 0 ∨ i = 1 ∨ i = 2 := by omega
      cases x <;> rcases hi with rfl | rfl | rfl <;> rfl
  have hrun : IsRun (Step registered) forked (trace (exec registered) forked sharesFile) := by
    have henabled :
        RunOk (Enabled registered) forked (trace (exec registered) forked sharesFile) := by
      decide +kernel
    exact isRun_trace (henabled.mono fun _ _ h ↦ ⟨h, rfl⟩)
  exact ⟨_, hrun, rfl, mutual_of_run hstart hrun⟩

end Cali.Ipc.Descriptors
