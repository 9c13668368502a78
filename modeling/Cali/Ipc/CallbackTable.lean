import Mathlib.Data.Finset.Card
import Mathlib.Data.List.Nodup
import Cali.Ipc.Callbacks

/-!
# The callback table

What the table of a process holds after any history of calls: the placeholders of the
constructor, and one entry for each call of `wrap_outgoing_callback` that was not about a
reserved value, in the order of the calls.  From this it follows which numbers of the peer
lead `execute` to a callback that was never registered, and when a callback has one number
only.
-/

namespace Cali.Ipc.Callbacks

open Cali.Lib

/-- What a call enters into the table. -/
def Outgoing.entry (o : Outgoing) : CallbackEntry := ⟨o.callback, o.wrapper⟩

/-- The entries that the calls have made, the first one first. -/
def registered (outgoing : List Outgoing) : List CallbackEntry :=
  (outgoing.reverse.filter fun o ↦ callbackNeedsWrapping o.callback).map Outgoing.entry

/-- `execute` throws, or it calls a wrapper on a callback, both of which were passed to
`wrap_outgoing_callback` in one call. -/
def CallsRegistered (p : Process) (callback : Pointer) : Prop :=
  p.manager.execute callback = none ∨
    ∃ o ∈ p.outgoing, p.manager.execute callback = some ⟨o.callback, o.wrapper⟩

/-- A callback has one number for each wrapper, and the table has no more entries than the
callbacks and wrappers of the calls need. -/
structure Idempotent (p : Process) : Prop where
  result_eq : ∀ o ∈ p.outgoing, ∀ o' ∈ p.outgoing, o.callback = o'.callback →
    o.wrapper = o'.wrapper → o.result = o'.result
  length_le : p.manager.callbackFunctions.length ≤
    6 + (p.outgoing.map fun o ↦ (o.callback, o.wrapper)).toFinset.card

/-! ## The entries are those of the calls -/

/-- The table is made of the placeholders and of what the calls have entered. -/
structure Registers (p : Process) : Prop where
  table : TableOk p.manager p.outgoing
  functions : p.manager.callbackFunctions =
    CallbackManager.init.callbackFunctions ++ registered p.outgoing
  caller : ∀ n e, 5 < n → p.manager.callbackFunctions[n]? = some e →
    ∃ o ∈ p.outgoing, ¬ Reserved o.callback ∧ o.result.toNat = n ∧ o.entry = e

section Registers

variable {p : Process} {o o' : Outgoing} {n : ℕ} {e : CallbackEntry}
variable {callback wrapper result : Pointer}

theorem registered_cons_of_reserved {outgoing : List Outgoing} (h : Reserved o.callback) :
    registered (o :: outgoing) = registered outgoing := by
  have hneeds : ¬ callbackNeedsWrapping o.callback = true :=
    fun hneeds ↦ callbackNeedsWrapping_iff.mp hneeds h
  unfold registered
  rw [List.reverse_cons, List.filter_append, List.filter_cons, if_neg hneeds, List.filter_nil,
    List.append_nil]

theorem registered_cons_of_not_reserved {outgoing : List Outgoing} (h : ¬ Reserved o.callback) :
    registered (o :: outgoing) = registered outgoing ++ [o.entry] := by
  unfold registered
  rw [List.reverse_cons, List.filter_append, List.filter_cons,
    if_pos (callbackNeedsWrapping_iff.mpr h), List.filter_nil, List.map_append, List.map_singleton]

theorem mem_registered {outgoing : List Outgoing} :
    e ∈ registered outgoing ↔ ∃ o ∈ outgoing, ¬ Reserved o.callback ∧ o.entry = e := by
  unfold registered
  simp only [List.mem_map, List.mem_filter, List.mem_reverse, callbackNeedsWrapping_iff,
    and_assoc]

theorem length_init : CallbackManager.init.callbackFunctions.length = 6 := rfl

theorem Registers.getElem?_add (h : Registers p) (k : ℕ) :
    p.manager.callbackFunctions[6 + k]? = (registered p.outgoing)[k]? := by
  rw [h.functions, List.getElem?_append_right (by rw [length_init]; omega), length_init,
    Nat.add_sub_cancel_left]

theorem Registers.execute_of_le (h : Registers p) (hle : callback.toNat ≤ 5) :
    p.manager.execute callback = some (.ofNumber callback) := by
  unfold CallbackManager.execute
  rw [h.functions, List.getElem?_append_left (by rw [length_init]; omega)]
  have hcases : callback = 0 ∨ callback = 1 ∨ callback = 2 ∨ callback = 3 ∨ callback = 4 ∨
      callback = 5 := by bv_omega
  rcases hcases with rfl | rfl | rfl | rfl | rfl | rfl <;> rfl

theorem Registers.init (memory : ℕ → BitVec 8) : Registers (.init memory) where
  table := TableOk.init
  functions := rfl
  caller n e hn he := by
    have hlt : n < CallbackManager.init.callbackFunctions.length :=
      (List.getElem?_eq_some_iff.mp he).1
    rw [length_init] at hlt
    omega

/-- **A callback leaves the process.**  A reserved value changes nothing; any other callback
gets a new entry, whatever the table holds. -/
theorem Registers.wrapOutgoing {manager : CallbackManager} (h : Registers p)
    (hwrap : p.manager.wrapOutgoingCallback callback wrapper = some (result, manager)) :
    Registers { p with
      manager
      outgoing := ⟨callback, wrapper, result⟩ :: p.outgoing } := by
  have htable := h.table.wrapOutgoingCallback hwrap
  by_cases hcallback : Reserved callback
  · rw [wrapOutgoingCallback_of_reserved hcallback] at hwrap
    obtain ⟨rfl, rfl⟩ := Prod.mk.inj (Option.some.inj hwrap)
    refine ⟨htable, ?_, fun n e hn he ↦ ?_⟩
    · rw [registered_cons_of_reserved hcallback]
      exact h.functions
    · obtain ⟨o, ho, h'⟩ := h.caller n e hn he
      exact ⟨o, List.mem_cons_of_mem _ ho, h'⟩
  · obtain ⟨-, hresult, rfl⟩ :=
      wrapOutgoingCallback_of_not_reserved h.table.numbers hcallback hwrap
    refine ⟨htable, ?_, fun n e hn he ↦ ?_⟩
    · rw [registered_cons_of_not_reserved hcallback, ← List.append_assoc, ← h.functions]
      rfl
    · rcases Nat.lt_trichotomy n p.manager.callbackFunctions.length with hlt | rfl | hlt
      · rw [List.getElem?_append_left hlt] at he
        obtain ⟨o, ho, h'⟩ := h.caller n e hn he
        exact ⟨o, List.mem_cons_of_mem _ ho, h'⟩
      · rw [List.getElem?_concat_length] at he
        exact ⟨_, List.mem_cons_self, hcallback, hresult, Option.some.inj he⟩
      · have hlt' := (List.getElem?_eq_some_iff.mp he).1
        rw [List.length_append, List.length_singleton] at hlt'
        omega

theorem Registers.wrapIncoming {replacement page : Pointer} (h : Registers p) :
    Registers (p.wrapIncomingCallback callback replacement page) := by
  obtain ⟨trampolines, remaining, hmanager, houtgoing⟩ :=
    manager_wrapIncomingCallback p callback replacement page
  constructor
  · rw [hmanager, houtgoing]
    exact ⟨h.table.numbers, h.table.lt_length, h.table.length_le, h.table.reserved,
      h.table.number, h.table.execute⟩
  · rw [hmanager, houtgoing]
    exact h.functions
  · rw [hmanager, houtgoing]
    exact h.caller

theorem registers_step {s s' : System} {x : Action} (h : ∀ side, Registers (s side))
    (hstep : Step s x s') : ∀ side, Registers (s' side) := by
  cases hstep with
  | @wrapOutgoing this _ _ _ _ hwrap =>
    exact (Function.forall_update_iff s fun _ ↦ Registers).mpr
      ⟨(h this).wrapOutgoing hwrap, fun side _ ↦ h side⟩
  | @wrapIncoming this _ _ _ hpage =>
    exact (Function.forall_update_iff s fun _ ↦ Registers).mpr
      ⟨(h this).wrapIncoming, fun side _ ↦ h side⟩

theorem registers_of_run {memory : Side → ℕ → BitVec 8} {t : List (Action × System)}
    (hrun : IsRun Step (fun side ↦ .init (memory side)) t) :
    ∀ s ∈ runStates (fun side ↦ Process.init (memory side)) t, ∀ side, Registers (s side) :=
  hrun.always (I := fun s : System ↦ ∀ side, Registers (s side)) (fun _ _ _ ↦ registers_step)
    fun side ↦ Registers.init (memory side)

theorem exists_run_two_calls {callback' : Pointer} (wrapper wrapper' : Pointer)
    (h : ¬ Reserved callback) (h' : ¬ Reserved callback') :
    ∃ t : List (Action × System), IsRun Step (fun _ ↦ .init fun _ ↦ 0) t ∧
      ∃ s ∈ runStates (fun _ ↦ Process.init fun _ ↦ 0) t,
        (s .main).outgoing = [⟨callback', wrapper', 7⟩, ⟨callback, wrapper, 6⟩] := by
  let s₀ : System := fun _ ↦ Process.init fun _ ↦ 0
  let m₁ : CallbackManager := { CallbackManager.init with
    callbackFunctions := CallbackManager.init.callbackFunctions ++ [⟨callback, wrapper⟩] }
  let m₂ : CallbackManager := { m₁ with
    callbackFunctions := m₁.callbackFunctions ++ [⟨callback', wrapper'⟩] }
  have hm₁ : CallbackManager.init.wrapOutgoingCallback callback wrapper = some (6, m₁) := by
    unfold CallbackManager.wrapOutgoingCallback
    rw [callbackNeedsWrapping_iff.mpr h]
    rfl
  have hm₂ : m₁.wrapOutgoingCallback callback' wrapper' = some (7, m₂) := by
    unfold CallbackManager.wrapOutgoingCallback
    rw [callbackNeedsWrapping_iff.mpr h']
    rfl
  let s₁ : System := Function.update s₀ .main
    { s₀ .main with
      manager := m₁
      outgoing := [⟨callback, wrapper, 6⟩] }
  let s₂ : System := Function.update s₁ .main
    { s₁ .main with
      manager := m₂
      outgoing := [⟨callback', wrapper', 7⟩, ⟨callback, wrapper, 6⟩] }
  let t : List (Action × System) :=
    [(.wrapOutgoing .main callback wrapper, s₁), (.wrapOutgoing .main callback' wrapper', s₂)]
  have hs : s₂ ∈ runStates s₀ t :=
    List.mem_cons_of_mem _ (List.mem_cons_of_mem _ List.mem_cons_self)
  exact ⟨t, ⟨.wrapOutgoing hm₁, .wrapOutgoing hm₂, trivial⟩, s₂, hs, rfl⟩

end Registers

/-! ## Numbers of the peer -/

section Numbers

variable {p : Process} {callback : Pointer}

theorem Registers.callsRegistered_of_lt (h : Registers p) (hlt : 5 < callback.toNat) :
    CallsRegistered p callback := by
  cases hentry : p.manager.execute callback with
  | none => exact Or.inl hentry
  | some e =>
    obtain ⟨o, ho, -, -, rfl⟩ := h.caller callback.toNat e hlt hentry
    exact Or.inr ⟨o, ho, hentry⟩

/-- A reserved number leads to its placeholder, whose wrapper is the number itself. -/
theorem Registers.callsRegistered_iff_of_le (h : Registers p) (hle : callback.toNat ≤ 5) :
    CallsRegistered p callback ↔
      ∃ o ∈ p.outgoing, o.callback = callback ∧ o.wrapper = callback := by
  unfold CallsRegistered
  rw [h.execute_of_le hle]
  constructor
  · rintro (hnone | ⟨o, ho, hentry⟩)
    · cases hnone
    · obtain ⟨hcallback, hwrapper⟩ := CallbackEntry.mk.inj (Option.some.inj hentry)
      exact ⟨o, ho, hcallback.symm, hwrapper.symm⟩
  · rintro ⟨o, ho, hcallback, hwrapper⟩
    refine Or.inr ⟨o, ho, ?_⟩
    rw [hcallback, hwrapper]
    rfl

/-- **Which numbers are safe.**  After any history of calls, a number of the peer leads to a
registered callback or to an exception exactly if it is not one of the reserved numbers; the
exception to this is a program that passes the number as callback and as wrapper itself. -/
theorem callsRegistered_iff {memory : Side → ℕ → BitVec 8} {t : List (Action × System)}
    (hrun : IsRun Step (fun side ↦ .init (memory side)) t) :
    ∀ s ∈ runStates (fun side ↦ Process.init (memory side)) t, ∀ side callback,
      CallsRegistered (s side) callback ↔ 5 < callback.toNat ∨
        ∃ o ∈ (s side).outgoing, o.callback = callback ∧ o.wrapper = callback := by
  intro s hs side callback
  have h := registers_of_run hrun s hs side
  rcases Nat.lt_or_ge 5 callback.toNat with hlt | hle
  · exact iff_of_true (h.callsRegistered_of_lt hlt) (Or.inl hlt)
  · rw [h.callsRegistered_iff_of_le hle, or_iff_right (Nat.not_lt.mpr hle)]

/-- The library asks for the first of two callbacks of the program. -/
theorem callsRegistered_first_number :
    ∃ t : List (Action × System), IsRun Step (fun _ ↦ .init fun _ ↦ 0) t ∧
      ∃ s ∈ runStates (fun _ ↦ Process.init fun _ ↦ 0) t,
        (s .main).manager.execute 6 = some ⟨0x400000, 0x500000⟩ ∧
          CallsRegistered (s .main) 6 := by
  have hcallback : ¬ Reserved 0x400000 := callbackNeedsWrapping_iff.mp rfl
  have hcallback' : ¬ Reserved 0x400010 := callbackNeedsWrapping_iff.mp rfl
  obtain ⟨t, hrun, s, hs, hcalls⟩ :=
    exists_run_two_calls 0x500000 0x500008 hcallback hcallback'
  refine ⟨t, hrun, s, hs, ?_, (callsRegistered_iff hrun s hs .main 6).mpr (Or.inl (by decide))⟩
  have hentry := (registers_of_run hrun s hs .main).table.execute
  rw [hcalls] at hentry
  exact hentry _ (List.mem_cons_of_mem _ List.mem_cons_self) hcallback

/-- Before any call, the number 1 makes `execute` call the address 1. -/
theorem not_callsRegistered_placeholder :
    (Process.init fun _ ↦ 0).manager.execute 1 = some ⟨1, 1⟩ ∧
      ¬ CallsRegistered (.init fun _ ↦ 0) 1 := by
  refine ⟨rfl, ?_⟩
  rintro (hnone | ⟨o, ho, -⟩)
  · cases hnone
  · cases ho

end Numbers

/-! ## A callback that leaves more than once -/

section Twice

variable {p : Process} {o o' : Outgoing}

theorem Registers.getElem?_result (h : Registers p) (ho : o ∈ p.outgoing)
    (hcallback : ¬ Reserved o.callback) :
    (registered p.outgoing)[o.result.toNat - 6]? = some o.entry := by
  have hentry : p.manager.callbackFunctions[o.result.toNat]? = some o.entry :=
    h.table.execute o ho hcallback
  have hlt := h.table.number o ho hcallback
  rw [← h.getElem?_add, Nat.add_sub_of_le hlt]
  exact hentry

theorem Registers.result_eq (h : Registers p) (hnodup : (registered p.outgoing).Nodup)
    (ho : o ∈ p.outgoing) (ho' : o' ∈ p.outgoing) (heq : o.entry = o'.entry) :
    o.result = o'.result := by
  have hcallback : o.callback = o'.callback := congrArg CallbackEntry.callback heq
  by_cases hreserved : Reserved o.callback
  · rw [h.table.reserved o ho hreserved, h.table.reserved o' ho' (hcallback ▸ hreserved),
      hcallback]
  · have hreserved' : ¬ Reserved o'.callback := hcallback ▸ hreserved
    have hentry := h.getElem?_result ho hreserved
    have hentry' := h.getElem?_result ho' hreserved'
    have hindex : o.result.toNat - 6 = o'.result.toNat - 6 :=
      (List.getElem?_inj (List.getElem?_eq_some_iff.mp hentry).1 hnodup).mp
        (hentry.trans (heq ▸ hentry'.symm))
    have hlt := h.table.number o ho hreserved
    have hlt' := h.table.number o' ho' hreserved'
    exact BitVec.eq_of_toNat_eq (by omega)

/-- Equal entries at different indices come from calls with different results. -/
theorem Registers.nodup (h : Registers p)
    (heq : ∀ o ∈ p.outgoing, ∀ o' ∈ p.outgoing, o.callback = o'.callback →
      o.wrapper = o'.wrapper → o.result = o'.result) : (registered p.outgoing).Nodup := by
  refine List.nodup_iff_injective_get.mpr fun i j hij ↦ Fin.ext ?_
  have hi : (registered p.outgoing)[i.val]? = some ((registered p.outgoing).get i) :=
    List.getElem?_eq_getElem i.isLt
  have hj : (registered p.outgoing)[j.val]? = some ((registered p.outgoing).get j) :=
    List.getElem?_eq_getElem j.isLt
  rw [← h.getElem?_add] at hi hj
  obtain ⟨o, ho, -, hresult, hentry⟩ := h.caller _ _ (by omega) hi
  obtain ⟨o', ho', -, hresult', hentry'⟩ := h.caller _ _ (by omega) hj
  have hsame : o.entry = o'.entry := hentry.trans (hij.trans hentry'.symm)
  have hresults := heq o ho o' ho' (congrArg CallbackEntry.callback hsame)
    (congrArg CallbackEntry.wrapper hsame)
  rw [hresults] at hresult
  omega

/-- The table has as many entries after the placeholders as there were calls that were not
about reserved values. -/
theorem Registers.length_eq (h : Registers p) :
    p.manager.callbackFunctions.length = 6 + (registered p.outgoing).length := by
  rw [h.functions, List.length_append, length_init]

theorem length_registered_le {outgoing : List Outgoing} (hnodup : (registered outgoing).Nodup) :
    (registered outgoing).length ≤
      (outgoing.map fun o ↦ (o.callback, o.wrapper)).toFinset.card := by
  have hinj : Function.Injective fun e : CallbackEntry ↦ (e.callback, e.wrapper) :=
    fun ⟨_, _⟩ ⟨_, _⟩ h ↦ by
      obtain ⟨rfl, rfl⟩ := Prod.mk.inj h
      rfl
  rw [← List.length_map (fun e : CallbackEntry ↦ (e.callback, e.wrapper)),
    ← List.toFinset_card_of_nodup (hnodup.map hinj)]
  refine Finset.card_le_card fun x hx ↦ ?_
  rw [List.mem_toFinset] at hx ⊢
  obtain ⟨e, he, rfl⟩ := List.mem_map.mp hx
  obtain ⟨o, ho, -, rfl⟩ := mem_registered.mp he
  exact List.mem_map.mpr ⟨o, ho, rfl⟩

/-- **When wrapping is idempotent.**  Nothing is entered into `callback_numbers`, so each call
for a callback that is not reserved makes a new entry: a callback has one number, and the table
no entry too many, exactly if no callback was wrapped twice with the same wrapper. -/
theorem idempotent_iff_nodup {memory : Side → ℕ → BitVec 8} {t : List (Action × System)}
    (hrun : IsRun Step (fun side ↦ .init (memory side)) t) :
    ∀ s ∈ runStates (fun side ↦ Process.init (memory side)) t, ∀ side,
      Idempotent (s side) ↔ (registered (s side).outgoing).Nodup := by
  intro s hs side
  have h := registers_of_run hrun s hs side
  refine ⟨fun hidem ↦ h.nodup hidem.result_eq, fun hnodup ↦ ⟨?_, ?_⟩⟩
  · intro o ho o' ho' hcallback hwrapper
    refine h.result_eq hnodup ho ho' ?_
    unfold Outgoing.entry
    rw [hcallback, hwrapper]
  · rw [h.length_eq]
    exact Nat.add_le_add_left (length_registered_le hnodup) 6

/-- One callback with two wrappers. -/
theorem idempotent_two_wrappers :
    ∃ t : List (Action × System), IsRun Step (fun _ ↦ .init fun _ ↦ 0) t ∧
      ∃ s ∈ runStates (fun _ ↦ Process.init fun _ ↦ 0) t,
        (s .main).outgoing = [⟨0x400000, 0x500008, 7⟩, ⟨0x400000, 0x500000, 6⟩] ∧
          Idempotent (s .main) := by
  have hcallback : ¬ Reserved 0x400000 := callbackNeedsWrapping_iff.mp rfl
  obtain ⟨t, hrun, s, hs, hcalls⟩ :=
    exists_run_two_calls 0x500000 0x500008 hcallback hcallback
  refine ⟨t, hrun, s, hs, hcalls, (idempotent_iff_nodup hrun s hs .main).mpr ?_⟩
  rw [hcalls]
  decide

/-- The program sends one function pointer twice, and the library gets two numbers for it. -/
theorem not_idempotent_sent_twice :
    ∃ t : List (Action × System), IsRun Step (fun _ ↦ .init fun _ ↦ 0) t ∧
      ∃ s ∈ runStates (fun _ ↦ Process.init fun _ ↦ 0) t,
        (s .main).outgoing = [⟨0x400000, 0x500000, 7⟩, ⟨0x400000, 0x500000, 6⟩] ∧
          ¬ Idempotent (s .main) := by
  have hcallback : ¬ Reserved 0x400000 := callbackNeedsWrapping_iff.mp rfl
  obtain ⟨t, hrun, s, hs, hcalls⟩ :=
    exists_run_two_calls 0x500000 0x500000 hcallback hcallback
  refine ⟨t, hrun, s, hs, hcalls, fun hidem ↦ ?_⟩
  have hresult := hidem.result_eq
  rw [hcalls] at hresult
  exact absurd (hresult _ List.mem_cons_self _
    (List.mem_cons_of_mem _ List.mem_cons_self) rfl rfl) (by decide)

end Twice

end Cali.Ipc.Callbacks
