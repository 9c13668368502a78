import Mathlib.Data.List.Nodup
import Mathlib.Data.List.TakeWhile
import Mathlib.Data.List.Flatten
import Mathlib.Logic.Function.Basic
import Cali.Linker.Config

/-!
# Redirecting the uses of library functions

`LlvmIpcModule::rewriteFunctionCalls` goes through the declared functions that belong to the
other module and sets their uses to wrapper functions.  The loop always looks at the first
use: when its user calls the function, the callee operand of the user is set, which takes
that use out of the list; any other use is set itself, and then the loop is left.
-/

namespace Cali.Linker

/-! ## Modules and their use lists -/

/-- The operand of a user that is meant: the callee of a call, or another one. -/
inductive Slot
  | callee
  | operand (k : ℕ)
deriving DecidableEq, Repr

structure Use where
  user : ℕ
  slot : Slot
deriving DecidableEq, Repr

/-- What uses a function.  Instructions know the function they are in, and calls the printed
types of their arguments. -/
inductive User
  | call (parent : Str) (args : List Str)
  | invoke (parent : Str) (args : List Str)
  | instruction (parent : Str)
  | constant
deriving DecidableEq, Repr

/-- The types of the arguments of a call site. -/
def User.args? : User → Option (List Str)
  | call _ args | invoke _ args => some args
  | instruction _ | constant => none

structure LlvmFunction where
  name : Str
  isDeclaration : Bool
  isVarArg : Bool
  params : List Str
  uses : List Use
deriving DecidableEq, Repr

/-- A module: names are unique, and an operand is in the use list of one function only. -/
structure LlvmModule where
  functions : List LlvmFunction
  users : ℕ → User
  names : (functions.map LlvmFunction.name).Nodup
  uses : (functions.flatMap LlvmFunction.uses).Nodup

/-! ## Wrappers -/

/-- The names of wrapper functions: `__ipc_replacement_` with the name of the function, and
for calls with further arguments a hash of the types. -/
inductive WrapperName
  | plain (callee : Str)
  | vararg (callee : Str) (hash : ℕ)
deriving DecidableEq, Repr

/-- What an operand is set to: a wrapper, which may be called through a function that counts
the coverage. -/
structure Target where
  wrapper : WrapperName
  coverage : Option ℕ
deriving DecidableEq, Repr

/-- `wrappedFunctions` with the types of the parameters, the operands that have been set, and
what the instrumentation of the coverage counts and logs. -/
structure Rewriter where
  wrappedFunctions : List (WrapperName × List Str) := []
  targets : Use → Option Target := fun _ ↦ none
  nextCoverageId : ℕ := 0
  logEntries : List Str := []

/-- `instrument_coverage`, and the hash of the standard library -/
structure RewriteConfig where
  instrumentCoverage : Bool
  hash : List Str → ℕ

/-- The name that the wrapper of a call site is going to have. -/
def wrappedName (c : RewriteConfig) (f : LlvmFunction) (args? : Option (List Str)) : WrapperName :=
  match args? with
  | none => .plain f.name
  | some args =>
    if f.isVarArg = false ∨ f.params.length = args.length then .plain f.name
    else .vararg f.name (c.hash args)

/-- `createReplacementFunction`: the parameters of the wrapper.  Without a call site the
arguments of a variadic function are read through a null pointer. -/
def createReplacementFunction (f : LlvmFunction) (args? : Option (List Str)) : Option (List Str) :=
  if f.isVarArg = true then args? else some f.params

/-- `getOrCreateWrapperFunction` -/
def getOrCreateWrapperFunction (c : RewriteConfig) (f : LlvmFunction) (args? : Option (List Str))
    (s : Rewriter) : Option (WrapperName × Rewriter) :=
  let name := wrappedName c f args?
  if name ∈ s.wrappedFunctions.map Prod.fst then some (name, s)
  else
    (createReplacementFunction f args?).map fun params ↦
      (name, { s with wrappedFunctions := s.wrappedFunctions ++ [(name, params)] })

/-- The text that the coverage of a use is logged with. -/
def describe (f : LlvmFunction) (calls : Bool) : User → Str
  | .call parent _ =>
    if calls = true then "call to ".toList ++ f.name ++ " from ".toList ++ parent
    else "call to ".toList ++ f.name ++ " taken reference in ".toList ++ parent
  | .invoke parent _ =>
    if calls = true then "invoke to ".toList ++ f.name ++ " from ".toList ++ parent
    else "call to ".toList ++ f.name ++ " taken reference in ".toList ++ parent
  | .instruction parent => "call to ".toList ++ f.name ++ " taken reference in ".toList ++ parent
  | .constant => "call to ".toList ++ f.name ++ " taken reference in ?".toList

/-- `instrumentCoverageReplacement`, when the coverage is instrumented -/
def instrumentCoverage (c : RewriteConfig) (wrapper : WrapperName) (description : Str)
    (s : Rewriter) : Target × Rewriter :=
  if c.instrumentCoverage = true then
    (⟨wrapper, some s.nextCoverageId⟩,
      { s with
        nextCoverageId := s.nextCoverageId + 1
        logEntries := s.logEntries ++ ["Coverage ".toList ++ Nat.toDigits 10 s.nextCoverageId ++
          ": ".toList ++ description] })
  else (⟨wrapper, none⟩, s)

/-! ## The loop over the uses -/

/-- The function is declared only, and it belongs to the other module. -/
def IsImported (symbols : List Str) (f : LlvmFunction) : Prop :=
  f.isDeclaration = true ∧ f.name ∈ symbols

instance (symbols : List Str) (f : LlvmFunction) : Decidable (IsImported symbols f) :=
  inferInstanceAs (Decidable (_ ∧ _))

section Loop

variable (c : RewriteConfig) (users : ℕ → User) (f : LlvmFunction)

/-- One operand is set to the wrapper of a call site, or to the one without a call site. -/
def setUse (u : Use) (calls : Bool) (s : Rewriter) : Option Rewriter :=
  (getOrCreateWrapperFunction c f (if calls = true then (users u.user).args? else none) s).map
    fun r ↦
      let t := instrumentCoverage c r.1 (describe f calls (users u.user)) r.2
      { t.2 with targets := Function.update t.2.targets u (some t.1) }

/-- The user of a use is a call or an invoke, and it calls the function. -/
def callsFunction (uses : List Use) (user : ℕ) : Bool :=
  (users user).args?.isSome && decide (⟨user, .callee⟩ ∈ uses)

/-- The loop over the uses; without fuel there is no result, as after a crash. -/
def useLoop : ℕ → List Use → Rewriter → Option (List Use × Rewriter)
  | 0, _, _ => none
  | _ + 1, [], s => some ([], s)
  | n + 1, u :: uses, s =>
    if callsFunction users (u :: uses) u.user = true then
      (setUse c users f ⟨u.user, .callee⟩ true s).bind
        (useLoop n ((u :: uses).erase ⟨u.user, .callee⟩))
    else (setUse c users f u false s).map (uses, ·)

/-- `rewriteFunctionCalls`: the functions with the uses that they have left -/
def rewriteFunctionCalls (symbols : List Str) (n : ℕ) :
    List LlvmFunction → Rewriter → Option (List LlvmFunction × Rewriter)
  | [], s => some ([], s)
  | f :: functions, s =>
    if IsImported symbols f then
      (useLoop c users f n f.uses s).bind fun r ↦
        (rewriteFunctionCalls symbols n functions r.2).map fun r' ↦
          ({ f with uses := r.1 } :: r'.1, r'.2)
    else
      (rewriteFunctionCalls symbols n functions s).map fun r ↦ (f :: r.1, r.2)

end Loop

/-! ## One function -/

section OneFunction

variable {c : RewriteConfig} {users : ℕ → User} {f : LlvmFunction} {s s' : Rewriter} {u v : Use}

/-- The use is the callee operand of a call or an invoke. -/
def isCallee (users : ℕ → User) (u : Use) : Bool :=
  (users u.user).args?.isSome && decide (u.slot = .callee)

/-- A wrapper is known. -/
def Rewriter.Knows (s : Rewriter) (name : WrapperName) : Prop :=
  name ∈ s.wrappedFunctions.map Prod.fst

/-- What setting a use does: it is set to the wrapper, which is known from now on, and
nothing else is set or becomes known. -/
structure SetsUse (s : Rewriter) (u : Use) (name : WrapperName) (s' : Rewriter) : Prop where
  target : (s'.targets u).map Target.wrapper = some name
  other : ∀ v, v ≠ u → s'.targets v = s.targets v
  knows : ∀ name', s'.Knows name' ↔ s.Knows name' ∨ name' = name

theorem knows_of_getOrCreate {args? : Option (List Str)} {r : WrapperName × Rewriter}
    (h : getOrCreateWrapperFunction c f args? s = some r) :
    r.1 = wrappedName c f args? ∧ r.2.targets = s.targets ∧
      ∀ name, r.2.Knows name ↔ s.Knows name ∨ name = r.1 := by
  unfold getOrCreateWrapperFunction at h
  simp only at h
  split at h
  next hknown =>
    obtain rfl := Option.some.inj h
    refine ⟨rfl, rfl, fun name ↦ (or_iff_left_of_imp ?_).symm⟩
    rintro rfl
    exact hknown
  next =>
    obtain ⟨params, -, rfl⟩ := Option.map_eq_some_iff.mp h
    refine ⟨rfl, rfl, fun name ↦ ?_⟩
    simp [Rewriter.Knows]

theorem setsUse_of_setUse {calls : Bool} (h : setUse c users f u calls s = some s') :
    SetsUse s u (wrappedName c f (if calls = true then (users u.user).args? else none)) s' := by
  obtain ⟨r, hr, rfl⟩ := Option.map_eq_some_iff.mp h
  obtain ⟨hname, htargets, hknows⟩ := knows_of_getOrCreate hr
  rw [← hname]
  -- instrumenting the coverage changes neither the wrappers nor the operands
  have hcov : ∀ d, (instrumentCoverage c r.1 d r.2).1.wrapper = r.1 ∧
      (instrumentCoverage c r.1 d r.2).2.targets = s.targets ∧
      (instrumentCoverage c r.1 d r.2).2.wrappedFunctions = r.2.wrappedFunctions := by
    intro d
    unfold instrumentCoverage
    split
    · exact ⟨rfl, htargets, rfl⟩
    · exact ⟨rfl, htargets, rfl⟩
  obtain ⟨hwrapper, htargets', hwrapped⟩ := hcov (describe f calls (users u.user))
  refine ⟨?_, fun v hv ↦ ?_, fun name ↦ ?_⟩
  · simp [hwrapper]
  · simp [hv, htargets']
  · rw [← hknows]
    simp only [Rewriter.Knows, hwrapped]

theorem isSome_setUse_call (hargs : (users u.user).args?.isSome = true) :
    ∃ s', setUse c users f u true s = some s' := by
  obtain ⟨args, hargs⟩ := Option.isSome_iff_exists.mp hargs
  unfold setUse getOrCreateWrapperFunction createReplacementFunction
  simp only [hargs, ↓reduceIte]
  split
  · exact ⟨_, rfl⟩
  · split
    · exact ⟨_, rfl⟩
    · exact ⟨_, rfl⟩

/-- Without a call site there is a wrapper unless the function is variadic and has none yet. -/
theorem isSome_setUse_reference :
    (∃ s', setUse c users f u false s = some s') ↔
      (f.isVarArg = true → s.Knows (.plain f.name)) := by
  unfold setUse getOrCreateWrapperFunction createReplacementFunction Rewriter.Knows
  simp only [Bool.false_eq_true, ↓reduceIte, wrappedName]
  by_cases hknown : WrapperName.plain f.name ∈ s.wrappedFunctions.map Prod.fst
  · simp [hknown]
  · cases hvar : f.isVarArg with
    | true => simp [hknown]
    | false => simp [hknown]

/-- The calls are redirected, each to the wrapper of its own call site, and nothing else. -/
structure RedirectsCalls (c : RewriteConfig) (users : ℕ → User) (f : LlvmFunction)
    (calls : List Use) (s s' : Rewriter) : Prop where
  target : ∀ v ∈ calls, (s'.targets v).map Target.wrapper =
    some (wrappedName c f (users v.user).args?)
  other : ∀ v ∉ calls, s'.targets v = s.targets v
  knows : ∀ name, s'.Knows name ↔
    s.Knows name ∨ ∃ v ∈ calls, name = wrappedName c f (users v.user).args?

theorem redirectsCalls_nil : RedirectsCalls c users f [] s s where
  target v hv := absurd hv List.not_mem_nil
  other v _ := rfl
  knows name := by simp

theorem redirectsCalls_singleton (hu : SetsUse s u (wrappedName c f (users u.user).args?) s') :
    RedirectsCalls c users f [u] s s' where
  target v hv := by
    rw [List.mem_singleton.mp hv]
    exact hu.target
  other v hv := hu.other v fun heq ↦ hv (List.mem_singleton.mpr heq)
  knows name := by
    rw [hu.knows]
    simp

theorem RedirectsCalls.trans {calls calls' : List Use} {s₁ : Rewriter}
    (h : RedirectsCalls c users f calls s s₁) (h' : RedirectsCalls c users f calls' s₁ s') :
    RedirectsCalls c users f (calls ++ calls') s s' where
  target v hv := by
    by_cases hv' : v ∈ calls'
    · exact h'.target v hv'
    · rw [h'.other v hv']
      exact h.target v ((List.mem_append.mp hv).resolve_right hv')
  other v hv := by
    rw [List.mem_append, not_or] at hv
    rw [h'.other v hv.2, h.other v hv.1]
  knows name := by
    rw [h'.knows, h.knows, or_assoc]
    simp only [List.mem_append, or_and_right, exists_or]

theorem RedirectsCalls.congr {calls calls' : List Use} (h : RedirectsCalls c users f calls s s')
    (hmem : ∀ v, v ∈ calls ↔ v ∈ calls') : RedirectsCalls c users f calls' s s' where
  target v hv := h.target v ((hmem v).mpr hv)
  other v hv := h.other v fun hv' ↦ hv ((hmem v).mp hv')
  knows name := by
    rw [h.knows]
    simp only [hmem]

theorem eq_callee_of_isCallee (h : isCallee users u = true) :
    (⟨u.user, .callee⟩ : Use) = u ∧ (users u.user).args?.isSome = true := by
  obtain ⟨hargs, hslot⟩ := (Bool.and_eq_true ..).mp h
  obtain ⟨user, slot⟩ := u
  obtain rfl : slot = .callee := of_decide_eq_true hslot
  exact ⟨rfl, hargs⟩

/-- **Calls first.**  As long as the first use is the callee of a call, the calls are
redirected one after the other. -/
theorem useLoop_calls {calls : List Use} (hcalls : ∀ v ∈ calls, isCallee users v = true)
    (s : Rewriter) :
    ∃ s', RedirectsCalls c users f calls s s' ∧
      ∀ n uses, useLoop c users f (calls.length + n) (calls ++ uses) s =
        useLoop c users f n uses s' := by
  induction calls generalizing s with
  | nil => exact ⟨s, redirectsCalls_nil, fun n uses ↦ by simp⟩
  | cons u calls ih =>
    obtain ⟨hu, hrest⟩ := List.forall_mem_cons.mp hcalls
    obtain ⟨heq, hargs⟩ := eq_callee_of_isCallee hu
    obtain ⟨s₁, hs₁⟩ := isSome_setUse_call (c := c) (f := f) (s := s) hargs
    obtain ⟨s', hs', hloop⟩ := ih hrest s₁
    refine ⟨s', (redirectsCalls_singleton (setsUse_of_setUse hs₁)).trans hs', fun n uses ↦ ?_⟩
    have hcallsF : callsFunction users (u :: (calls ++ uses)) u.user = true := by
      simp [callsFunction, hargs, heq]
    rw [List.length_cons, show calls.length + 1 + n = calls.length + n + 1 by omega,
      List.cons_append, useLoop, if_pos hcallsF, heq, hs₁, Option.bind_some,
      List.erase_cons_head, hloop]

/-- The use is the call of a given user. -/
def isCallOf (users : ℕ → User) (user : ℕ) (v : Use) : Bool :=
  isCallee users v && decide (v.user = user)

theorem isCallOf_iff {user : ℕ} :
    isCallOf users user v = true ↔ v = ⟨user, .callee⟩ ∧ (users user).args?.isSome = true := by
  constructor
  · intro h
    obtain ⟨hcallee, huser⟩ := (Bool.and_eq_true ..).mp h
    obtain rfl := of_decide_eq_true huser
    obtain ⟨heq, hargs⟩ := eq_callee_of_isCallee hcallee
    exact ⟨heq.symm, hargs⟩
  · rintro ⟨rfl, hargs⟩
    simp [isCallOf, isCallee, hargs]

theorem callsFunction_iff {uses : List Use} {user : ℕ} :
    callsFunction users uses user = true ↔ ∃ v ∈ uses, isCallOf users user v = true := by
  simp only [callsFunction, Bool.and_eq_true, decide_eq_true_eq, isCallOf_iff]
  constructor
  · rintro ⟨hargs, hmem⟩
    exact ⟨_, hmem, rfl, hargs⟩
  · rintro ⟨_, hmem, rfl, hargs⟩
    exact ⟨hargs, hmem⟩

section Reference

variable {uses : List Use}

/-- Whether the user of a reference calls the function is told by the uses after it. -/
theorem callsFunction_reference (hu : isCallee users u = false) :
    callsFunction users (u :: uses) u.user = true ↔
      ∃ v ∈ uses, isCallOf users u.user v = true := by
  have hnot : isCallOf users u.user u = false := by
    simp [isCallOf, hu]
  rw [callsFunction_iff, List.exists_mem_cons_iff, hnot]
  exact or_iff_right Bool.false_ne_true

theorem erase_callee (hargs : (users u.user).args?.isSome = true) (hnodup : uses.Nodup) :
    uses.erase ⟨u.user, .callee⟩ = uses.filter (fun v ↦ !isCallOf users u.user v) := by
  rw [hnodup.erase_eq_filter]
  refine List.filter_congr fun v _ ↦ ?_
  rw [Bool.eq_iff_iff, bne_iff_ne, Bool.not_eq_true', ← Bool.not_eq_true, isCallOf_iff]
  exact not_congr (and_iff_left hargs).symm

/-- **The first reference** ends the loop: if its user calls the function too, then the call
is redirected before; all other uses are left. -/
theorem useLoop_reference (hu : isCallee users u = false) (hnodup : (u :: uses).Nodup)
    (s : Rewriter) :
    ∃ s', RedirectsCalls c users f (uses.filter (isCallOf users u.user)) s s' ∧
      ∀ n, useLoop c users f (n + 2) (u :: uses) s = (setUse c users f u false s').map
        (uses.filter (fun v ↦ !isCallOf users u.user v), ·) := by
  by_cases hcalls : ∃ v ∈ uses, isCallOf users u.user v = true
  · obtain ⟨v, hv, hcall⟩ := hcalls
    obtain ⟨rfl, hargs⟩ := isCallOf_iff.mp hcall
    obtain ⟨s₁, hs₁⟩ := isSome_setUse_call (c := c) (f := f) (s := s) (u := ⟨u.user, .callee⟩) hargs
    refine ⟨s₁, ?_, fun n ↦ ?_⟩
    · refine (redirectsCalls_singleton (setsUse_of_setUse hs₁)).congr fun v ↦ ?_
      rw [List.mem_singleton, List.mem_filter, isCallOf_iff]
      exact ⟨fun h ↦ ⟨h ▸ hv, h, hargs⟩, fun h ↦ h.2.1⟩
    · have hne : u ≠ ⟨u.user, .callee⟩ := fun heq ↦
        (List.nodup_cons.mp hnodup).1 (heq ▸ hv)
      have hgone : ¬ callsFunction users (u :: uses.filter (fun v ↦ !isCallOf users u.user v))
          u.user = true := by
        rw [callsFunction_reference hu]
        rintro ⟨w, hw, hcall⟩
        have := (List.mem_filter.mp hw).2
        simp [hcall] at this
      rw [useLoop, if_pos ((callsFunction_reference hu).mpr ⟨_, hv, hcall⟩), hs₁, Option.bind_some,
        List.erase_cons_tail (by simpa using hne), erase_callee hargs (List.nodup_cons.mp hnodup).2,
        useLoop, if_neg hgone]
  · have hnone : ∀ v ∈ uses, isCallOf users u.user v = false := by
      intro v hv
      exact Bool.eq_false_iff.mpr fun h ↦ hcalls ⟨v, hv, h⟩
    refine ⟨s, ?_, fun n ↦ ?_⟩
    · rw [List.filter_eq_nil_iff.mpr fun v hv ↦ by simp [hnone v hv]]
      exact redirectsCalls_nil
    · rw [useLoop, if_neg (mt (callsFunction_reference hu).mp hcalls),
        List.filter_eq_self.mpr fun v hv ↦ by simp [hnone v hv]]

end Reference

theorem useLoop_mono {n : ℕ} {uses : List Use} {r : List Use × Rewriter} (k : ℕ)
    (h : useLoop c users f n uses s = some r) : useLoop c users f (n + k) uses s = some r := by
  induction n generalizing uses s with
  | zero => cases h
  | succ n ih =>
    rw [show n + 1 + k = n + k + 1 by omega]
    cases uses with
    | nil => exact h
    | cons u uses =>
      rw [useLoop] at h ⊢
      split at h
      next hcalls =>
        rw [if_pos hcalls]
        obtain ⟨s₁, hs₁, h⟩ := Option.bind_eq_some_iff.mp h
        rw [hs₁, Option.bind_some]
        exact ih h
      next hcalls => rwa [if_neg hcalls]

/-- A call site that uses the wrapper without further arguments. -/
def HasPlainSite (users : ℕ → User) (f : LlvmFunction) (v : Use) : Prop :=
  ∃ args, (users v.user).args? = some args ∧ f.params.length = args.length

/-- The use lists of which nothing is left: after the first use that is no callee there is at
most the call by the same user; and a variadic function with such a use has a wrapper
already, or gets it from a call without further arguments. -/
def UsesSafe (users : ℕ → User) (f : LlvmFunction) (known : Prop) : Prop :=
  match f.uses.dropWhile (isCallee users) with
  | [] => True
  | u :: uses => (∀ v ∈ uses, isCallOf users u.user v = true) ∧
      (f.isVarArg = true → known ∨ ∃ v ∈ f.uses, isCallee users v = true ∧ HasPlainSite users f v)

/-- All uses are gone, and each call has the wrapper of its own call site. -/
structure Redirected (c : RewriteConfig) (users : ℕ → User) (f : LlvmFunction) (s s' : Rewriter) :
    Prop where
  target : ∀ v ∈ f.uses, isCallee users v = true →
    (s'.targets v).map Target.wrapper = some (wrappedName c f (users v.user).args?)
  other : ∀ v ∉ f.uses, s'.targets v = s.targets v
  knows : ∀ name, name ≠ f.name → (s'.Knows (.plain name) ↔ s.Knows (.plain name))

theorem wrappedName_eq_plain {name : Str} {args? : Option (List Str)}
    (h : WrapperName.plain name = wrappedName c f args?) : name = f.name := by
  unfold wrappedName at h
  split at h
  · exact WrapperName.plain.inj h
  · split at h
    · exact WrapperName.plain.inj h
    · cases h

theorem wrappedName_eq_plain_iff (hvar : f.isVarArg = true) {args? : Option (List Str)}
    (hargs : args?.isSome = true) :
    WrapperName.plain f.name = wrappedName c f args? ↔
      ∃ args, args? = some args ∧ f.params.length = args.length := by
  obtain ⟨args, rfl⟩ := Option.isSome_iff_exists.mp hargs
  simp only [wrappedName, hvar, Bool.true_eq_false, false_or, Option.some.injEq, exists_eq_left']
  split
  next h => simp [h]
  next h => simp [h]

theorem useLoop_of_calls (hcalls : f.uses.dropWhile (isCallee users) = []) (s : Rewriter) :
    ∃ s', RedirectsCalls c users f f.uses s s' ∧
      ∀ n, useLoop c users f (f.uses.length + (n + 1)) f.uses s = some ([], s') := by
  obtain ⟨s', hs', hloop⟩ := useLoop_calls (c := c) (f := f)
    (List.dropWhile_eq_nil_iff.mp hcalls) s
  refine ⟨s', hs', fun n ↦ ?_⟩
  have := hloop (n + 1) []
  rwa [List.append_nil] at this

theorem isCallee_of_dropWhile {uses : List Use}
    (hsplit : f.uses.dropWhile (isCallee users) = u :: uses) : isCallee users u = false := by
  have := List.head_dropWhile_not (isCallee users) (l := f.uses) (by simp [hsplit])
  simpa [hsplit] using this

/-- When only its own call follows the first reference, then all calls are redirected. -/
theorem mem_calls_iff {uses : List Use}
    (hsplit : f.uses.dropWhile (isCallee users) = u :: uses)
    (hall : ∀ v ∈ uses, isCallOf users u.user v = true) :
    v ∈ f.uses.takeWhile (isCallee users) ++ uses.filter (isCallOf users u.user) ↔
      v ∈ f.uses ∧ isCallee users v = true := by
  have huses := List.takeWhile_append_dropWhile (p := isCallee users) (l := f.uses)
  have hu := isCallee_of_dropWhile hsplit
  rw [hsplit] at huses
  rw [List.filter_eq_self.mpr hall]
  constructor
  · intro hv
    rcases List.mem_append.mp hv with hv | hv
    · exact ⟨List.takeWhile_subset _ hv, List.mem_takeWhile_imp hv⟩
    · refine ⟨?_, ((Bool.and_eq_true ..).mp (hall v hv)).1⟩
      rw [← huses]
      exact List.mem_append_right _ (List.mem_cons_of_mem _ hv)
  · rintro ⟨hv, hcallee⟩
    rw [← huses] at hv
    rcases List.mem_append.mp hv with hv | hv
    · exact List.mem_append_left _ hv
    · rcases List.mem_cons.mp hv with rfl | hv
      · exact absurd (hu.symm.trans hcallee) Bool.false_ne_true
      · exact List.mem_append_right _ hv

theorem useLoop_of_reference {uses : List Use} (hnodup : f.uses.Nodup)
    (hsplit : f.uses.dropWhile (isCallee users) = u :: uses) (s : Rewriter) :
    ∃ s', RedirectsCalls c users f
        (f.uses.takeWhile (isCallee users) ++ uses.filter (isCallOf users u.user)) s s' ∧
      ∀ n, useLoop c users f ((f.uses.takeWhile (isCallee users)).length + (n + 2)) f.uses s =
        (setUse c users f u false s').map (uses.filter (fun v ↦ !isCallOf users u.user v), ·) := by
  have huses := List.takeWhile_append_dropWhile (p := isCallee users) (l := f.uses)
  rw [hsplit] at huses
  have hu := isCallee_of_dropWhile hsplit
  have hnodup' : (u :: uses).Nodup := by
    rw [← huses] at hnodup
    exact hnodup.of_append_right
  obtain ⟨s₁, hs₁, hcalls⟩ := useLoop_calls (c := c) (f := f)
    (fun v hv ↦ List.mem_takeWhile_imp hv : ∀ v ∈ f.uses.takeWhile (isCallee users), _) s
  obtain ⟨s', hs', hreference⟩ := useLoop_reference (c := c) (f := f) hu hnodup' s₁
  refine ⟨s', hs₁.trans hs', fun n ↦ ?_⟩
  have := hcalls (n + 2) (u :: uses)
  rw [huses] at this
  rw [this, hreference]

theorem filter_not_eq_nil {uses : List Use} {user : ℕ} :
    uses.filter (fun v ↦ !isCallOf users user v) = [] ↔
      ∀ v ∈ uses, isCallOf users user v = true := by
  simp [List.filter_eq_nil_iff]

/-- **One function.**  The loop ends and leaves nothing exactly for the safe use lists. -/
theorem useLoop_iff (hnodup : f.uses.Nodup) :
    (∃ n s', useLoop c users f n f.uses s = some ([], s')) ↔
      UsesSafe users f (s.Knows (.plain f.name)) := by
  unfold UsesSafe
  cases hsplit : f.uses.dropWhile (isCallee users) with
  | nil =>
    obtain ⟨s', -, hloop⟩ := useLoop_of_calls (c := c) hsplit s
    exact iff_of_true ⟨_, s', hloop 0⟩ trivial
  | cons u uses =>
    obtain ⟨s₁, hs₁, hloop⟩ := useLoop_of_reference (c := c) hnodup hsplit s
    have hknows : (∀ v ∈ uses, isCallOf users u.user v = true) → f.isVarArg = true →
        (s₁.Knows (.plain f.name) ↔ s.Knows (.plain f.name) ∨
          ∃ v ∈ f.uses, isCallee users v = true ∧ HasPlainSite users f v) := by
      intro hall hvar
      rw [hs₁.knows]
      simp only [mem_calls_iff hsplit hall, and_assoc]
      refine or_congr_right (exists_congr fun v ↦ and_congr_right fun _ ↦
        and_congr_right fun hcallee ↦ ?_)
      exact wrappedName_eq_plain_iff hvar (eq_callee_of_isCallee hcallee).2
    constructor
    · rintro ⟨n, s', h⟩
      have h' := useLoop_mono ((f.uses.takeWhile (isCallee users)).length + 2) h
      rw [Nat.add_left_comm, hloop n] at h'
      obtain ⟨s₂, hs₂, heq⟩ := Option.map_eq_some_iff.mp h'
      have hall := filter_not_eq_nil.mp (Prod.mk.inj heq).1
      refine ⟨hall, fun hvar ↦ (hknows hall hvar).mp ?_⟩
      exact isSome_setUse_reference.mp ⟨s₂, hs₂⟩ hvar
    · rintro ⟨hall, hvar⟩
      obtain ⟨s', hs'⟩ : ∃ s', setUse c users f u false s₁ = some s' :=
        isSome_setUse_reference.mpr fun h ↦ (hknows hall h).mpr (hvar h)
      refine ⟨_, s', (hloop 0).trans ?_⟩
      rw [hs', Option.map_some, filter_not_eq_nil.mpr hall]

theorem redirected_of_useLoop (hnodup : f.uses.Nodup) {n : ℕ}
    (h : useLoop c users f n f.uses s = some ([], s')) : Redirected c users f s s' := by
  cases hsplit : f.uses.dropWhile (isCallee users) with
  | nil =>
    obtain ⟨s₁, hs₁, hloop⟩ := useLoop_of_calls (c := c) hsplit s
    have h' := useLoop_mono (f.uses.length + 1) h
    rw [Nat.add_left_comm, hloop n] at h'
    obtain ⟨-, rfl⟩ := Prod.mk.inj (Option.some.inj h')
    refine ⟨fun v hv _ ↦ hs₁.target v hv, hs₁.other, fun name hname ↦ ?_⟩
    rw [hs₁.knows]
    refine or_iff_left ?_
    rintro ⟨v, -, heq⟩
    exact hname (wrappedName_eq_plain heq)
  | cons u uses =>
    obtain ⟨s₁, hs₁, hloop⟩ := useLoop_of_reference (c := c) hnodup hsplit s
    have h' := useLoop_mono ((f.uses.takeWhile (isCallee users)).length + 2) h
    rw [Nat.add_left_comm, hloop n] at h'
    obtain ⟨s₂, hs₂, heq⟩ := Option.map_eq_some_iff.mp h'
    obtain ⟨hleft, rfl⟩ := Prod.mk.inj heq
    have hmem := fun v ↦ mem_calls_iff (v := v) hsplit (filter_not_eq_nil.mp hleft)
    have hset := setsUse_of_setUse hs₂
    have hu := isCallee_of_dropWhile hsplit
    refine ⟨fun v hv hcallee ↦ ?_, fun v hv ↦ ?_, fun name hname ↦ ?_⟩
    · have hne : v ≠ u := fun heq ↦ by
        rw [heq, hu] at hcallee
        cases hcallee
      rw [hset.other v hne]
      exact hs₁.target v ((hmem v).mpr ⟨hv, hcallee⟩)
    · have hne : v ≠ u := fun heq ↦ hv <| by
        rw [heq]
        exact (List.dropWhile_suffix _).subset (hsplit ▸ List.mem_cons_self)
      rw [hset.other v hne]
      exact hs₁.other v fun hv' ↦ hv ((hmem v).mp hv').1
    · rw [hset.knows, hs₁.knows, or_assoc]
      refine or_iff_left ?_
      rintro (⟨v, -, heq⟩ | heq)
      · exact hname (wrappedName_eq_plain heq)
      · exact hname (wrappedName_eq_plain heq)

end OneFunction

/-! ## The module -/

section OneModule

variable {c : RewriteConfig} {users : ℕ → User} {symbols : List Str}
  {functions functions' : List LlvmFunction} {s s' : Rewriter}

theorem rewriteFunctionCalls_mono {n : ℕ} {r : List LlvmFunction × Rewriter} (k : ℕ)
    (h : rewriteFunctionCalls c users symbols n functions s = some r) :
    rewriteFunctionCalls c users symbols (n + k) functions s = some r := by
  induction functions generalizing s r with
  | nil => exact h
  | cons f functions ih =>
    rw [rewriteFunctionCalls] at h ⊢
    split at h
    next himported =>
      obtain ⟨r₁, hr₁, h⟩ := Option.bind_eq_some_iff.mp h
      obtain ⟨r₂, hr₂, rfl⟩ := Option.map_eq_some_iff.mp h
      rw [if_pos himported, useLoop_mono k hr₁, Option.bind_some, ih hr₂, Option.map_some]
    next himported =>
      obtain ⟨r₂, hr₂, rfl⟩ := Option.map_eq_some_iff.mp h
      rw [if_neg himported, ih hr₂, Option.map_some]

/-- What a run that leaves no uses has done. -/
structure RunDone (c : RewriteConfig) (users : ℕ → User) (symbols : List Str)
    (functions : List LlvmFunction) (s s' : Rewriter) : Prop where
  safe : ∀ f ∈ functions, IsImported symbols f → UsesSafe users f (s.Knows (.plain f.name))
  target : ∀ f ∈ functions, IsImported symbols f → ∀ u ∈ f.uses, isCallee users u = true →
    (s'.targets u).map Target.wrapper = some (wrappedName c f (users u.user).args?)
  other : ∀ u ∉ functions.flatMap LlvmFunction.uses, s'.targets u = s.targets u

/-- **A run that leaves no uses.** -/
theorem runDone_of_rewriteFunctionCalls {n : ℕ} (hnames : (functions.map LlvmFunction.name).Nodup)
    (huses : (functions.flatMap LlvmFunction.uses).Nodup)
    (h : rewriteFunctionCalls c users symbols n functions s = some (functions', s'))
    (hleft : ∀ f ∈ functions', IsImported symbols f → f.uses = []) :
    RunDone c users symbols functions s s' := by
  induction functions generalizing s functions' with
  | nil =>
    obtain ⟨-, rfl⟩ := Prod.mk.inj (Option.some.inj h)
    exact ⟨by simp, by simp, fun _ _ ↦ rfl⟩
  | cons f functions ih =>
    obtain ⟨hname, hnames⟩ := List.nodup_cons.mp hnames
    rw [List.flatMap_cons, List.nodup_append'] at huses
    obtain ⟨hf, huses, hdisjoint⟩ := huses
    rw [rewriteFunctionCalls] at h
    split at h
    next himported =>
      obtain ⟨⟨left, s₁⟩, hloop, h⟩ := Option.bind_eq_some_iff.mp h
      obtain ⟨⟨functions₁, s₂⟩, hrun, heq⟩ := Option.map_eq_some_iff.mp h
      obtain ⟨rfl, rfl⟩ := Prod.mk.inj heq
      obtain ⟨hnil, hleft'⟩ := List.forall_mem_cons.mp hleft
      obtain rfl : left = [] := hnil himported
      have hdone := redirected_of_useLoop hf hloop
      have hrest := ih hnames huses hrun hleft'
      refine ⟨List.forall_mem_cons.mpr ⟨fun _ ↦ ?_, fun g hg himp ↦ ?_⟩,
        List.forall_mem_cons.mpr ⟨fun _ u hu hcallee ↦ ?_, hrest.target⟩, fun u hu ↦ ?_⟩
      · exact (useLoop_iff hf).mp ⟨n, s₁, hloop⟩
      · have hne : g.name ≠ f.name := fun heq ↦ hname (List.mem_map.mpr ⟨g, hg, heq⟩)
        have hsafe := hrest.safe g hg himp
        rwa [propext (hdone.knows g.name hne)] at hsafe
      · rw [hrest.other u (hdisjoint hu)]
        exact hdone.target u hu hcallee
      · rw [List.flatMap_cons, List.mem_append, not_or] at hu
        rw [hrest.other u hu.2, hdone.other u hu.1]
    next himported =>
      obtain ⟨⟨functions₁, s₂⟩, hrun, heq⟩ := Option.map_eq_some_iff.mp h
      obtain ⟨rfl, rfl⟩ := Prod.mk.inj heq
      have hrest := ih hnames huses hrun (List.forall_mem_cons.mp hleft).2
      refine ⟨List.forall_mem_cons.mpr ⟨fun h ↦ absurd h himported, hrest.safe⟩,
        List.forall_mem_cons.mpr ⟨fun h ↦ absurd h himported, hrest.target⟩, fun u hu ↦ ?_⟩
      rw [List.flatMap_cons, List.mem_append, not_or] at hu
      exact hrest.other u hu.2

/-- **Safe use lists** make a run that leaves no uses. -/
theorem exists_rewriteFunctionCalls (hnames : (functions.map LlvmFunction.name).Nodup)
    (huses : (functions.flatMap LlvmFunction.uses).Nodup)
    (hsafe : ∀ f ∈ functions, IsImported symbols f → UsesSafe users f (s.Knows (.plain f.name))) :
    ∃ n functions' s', rewriteFunctionCalls c users symbols n functions s = some (functions', s') ∧
      ∀ f ∈ functions', IsImported symbols f → f.uses = [] := by
  induction functions generalizing s with
  | nil => exact ⟨0, [], s, rfl, by simp⟩
  | cons f functions ih =>
    obtain ⟨hname, hnames⟩ := List.nodup_cons.mp hnames
    rw [List.flatMap_cons, List.nodup_append'] at huses
    obtain ⟨hf, huses, -⟩ := huses
    obtain ⟨hsafef, hsafe⟩ := List.forall_mem_cons.mp hsafe
    by_cases himported : IsImported symbols f
    · obtain ⟨n₁, s₁, hloop⟩ := (useLoop_iff (c := c) hf).mpr (hsafef himported)
      have hdone := redirected_of_useLoop hf hloop
      obtain ⟨n₂, functions₁, s', hrun, hleft⟩ := ih (s := s₁) hnames huses fun g hg himp ↦ by
        have hne : g.name ≠ f.name := fun heq ↦ hname (List.mem_map.mpr ⟨g, hg, heq⟩)
        rw [propext (hdone.knows g.name hne)]
        exact hsafe g hg himp
      refine ⟨n₁ + n₂, { f with uses := [] } :: functions₁, s', ?_,
        List.forall_mem_cons.mpr ⟨fun _ ↦ rfl, hleft⟩⟩
      have hrun' := rewriteFunctionCalls_mono n₁ hrun
      rw [Nat.add_comm] at hrun'
      rw [rewriteFunctionCalls, if_pos himported, useLoop_mono n₂ hloop, Option.bind_some, hrun',
        Option.map_some]
    · obtain ⟨n, functions₁, s', hrun, hleft⟩ := ih hnames huses hsafe
      refine ⟨n, f :: functions₁, s', ?_,
        List.forall_mem_cons.mpr ⟨fun h ↦ absurd h himported, hleft⟩⟩
      rw [rewriteFunctionCalls, if_neg himported, hrun, Option.map_some]

/-- The rewriting ends, no use of a function of the other module is left, and each call of one
has the wrapper of its own call site. -/
def RedirectsAll (c : RewriteConfig) (m : LlvmModule) (symbols : List Str) (s : Rewriter) : Prop :=
  ∃ n functions s', rewriteFunctionCalls c m.users symbols n m.functions s = some (functions, s') ∧
    (∀ f ∈ functions, IsImported symbols f → f.uses = []) ∧
    ∀ f ∈ m.functions, IsImported symbols f → ∀ u ∈ f.uses, isCallee m.users u = true →
      (s'.targets u).map Target.wrapper = some (wrappedName c f (m.users u.user).args?)

/-- **Every use is redirected** exactly when the use list of every function of the other
module is safe. -/
theorem redirectsAll_iff (c : RewriteConfig) (m : LlvmModule) (symbols : List Str) (s : Rewriter) :
    RedirectsAll c m symbols s ↔
      ∀ f ∈ m.functions, IsImported symbols f → UsesSafe m.users f (s.Knows (.plain f.name)) := by
  constructor
  · rintro ⟨n, functions, s', hrun, hleft, -⟩
    exact (runDone_of_rewriteFunctionCalls m.names m.uses hrun hleft).safe
  · intro hsafe
    obtain ⟨n, functions, s', hrun, hleft⟩ :=
      exists_rewriteFunctionCalls (c := c) m.names m.uses hsafe
    have hdone := runDone_of_rewriteFunctionCalls m.names m.uses hrun hleft
    exact ⟨n, functions, s', hrun, hleft, hdone.target⟩

end OneModule

/-! ## An instance -/

/-- A declared function whose address is stored by the first use and that is called by the
second one. -/
def storedAndCalled : LlvmModule where
  functions := [{
    name := "png_read".toList, isDeclaration := true, isVarArg := false, params := ["i8*".toList]
    uses := [⟨0, .operand 0⟩, ⟨1, .callee⟩] }]
  users
    | 0 => .instruction "main".toList
    | _ => .call "main".toList ["i8*".toList]
  names := by decide
  uses := by decide

/-- The loop is left after the first use, and the call stays. -/
theorem not_redirectsAll_storedAndCalled :
    (rewriteFunctionCalls ⟨false, List.length⟩ storedAndCalled.users ["png_read".toList] 9
        storedAndCalled.functions {}).map (fun r ↦ r.1.map LlvmFunction.uses) =
      some [[⟨1, .callee⟩]] ∧
    ¬ RedirectsAll ⟨false, List.length⟩ storedAndCalled ["png_read".toList] {} := by
  refine ⟨by decide +kernel, ?_⟩
  rintro ⟨n, functions, s', hrun, hleft, -⟩
  have hdone :=
    runDone_of_rewriteFunctionCalls storedAndCalled.names storedAndCalled.uses hrun hleft
  have hsafe := hdone.safe _ List.mem_cons_self ⟨rfl, by decide⟩
  exact absurd (hsafe.1 ⟨1, .callee⟩ (by decide)) (by decide)

end Cali.Linker
