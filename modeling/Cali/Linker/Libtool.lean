import Cali.Lib.Stack
import Cali.Linker.Arguments

/-!
# The expansion of libtool files

Two loops replace the libtool files among the arguments by what the files name.  Both work in
place: the vector grows while they go through it by index.  `build_libraries` looks at the
replaced position again, the constructor goes on to the flags behind it.  Neither remembers
which files it has seen, so they end only if no file leads back to itself.

`Cali.Linker.Arguments` has the loop of `build_libraries` over the arguments that are left;
here it is with the vector, the index, and the argument that each index was recorded for.
-/

namespace Cali.Linker

open Cali.Lib

variable {env : Env} {l : LinkerArguments}

/-- `replace_libtool_in_arguments` -/
def replaceLibtoolInArguments (env : Env) (arguments : List Str) (libtoolFile : Str)
    (argNumber : ℕ) : List Str :=
  match replaceLibtool env libtoolFile with
  | [] => arguments
  | library :: additionalFlags =>
    let arguments := arguments.set argNumber library
    arguments.take (argNumber + 1) ++ additionalFlags ++ arguments.drop (argNumber + 1)

/-! ## The loops -/

/-- The variables of the loop of `build_libraries`.  `recordedFor` is not in the source: it has
the argument for which an entry of `argumentUsage` was written. -/
structure BuildState where
  arguments : List Str
  i : ℕ
  libraries : Libraries := {}
  recordedFor : ℕ → Option Str := fun _ ↦ none

/-- The argument writes an entry of `argumentUsage`. -/
def records (env : Env) (l : LinkerArguments) (arg : Str) : Bool :=
  match inputFile env l arg with
  | some (filename, true) => (contextOf l.config filename).isSome
  | _ => false

/-- A turn of the loop.  After a replacement `i--` and the `i++` of the loop cancel out, also for
the index zero, where `i--` wraps around. -/
def buildNext (env : Env) (l : LinkerArguments) (s : BuildState) : Option BuildState :=
  match s.arguments[s.i]? with
  | none => none
  | some arg =>
    if endsWith arg la = true then
      some { s with arguments := replaceLibtoolInArguments env s.arguments arg s.i }
    else if takesNext arg = true then some { s with i := s.i + 2 }
    else some { s with
      i := s.i + 1
      libraries := addArgument env l s.libraries arg s.i
      recordedFor := if records env l arg = true then Function.update s.recordedFor s.i (some arg)
        else s.recordedFor }

def BuildStep (env : Env) (l : LinkerArguments) (s s' : BuildState) : Prop :=
  buildNext env l s = some s'

/-- The variables of the loop of the constructor. -/
structure ExpandState where
  arguments : List Str
  i : ℕ
deriving DecidableEq, Repr

/-- A turn of the loop of the constructor. -/
def expandNext (env : Env) (s : ExpandState) : Option ExpandState :=
  match s.arguments[s.i]? with
  | none => none
  | some arg =>
    if endsWith arg la = true then
      some ⟨replaceLibtoolInArguments env s.arguments arg s.i, s.i + 1⟩
    else some ⟨s.arguments, s.i + 1⟩

def ExpandStep (env : Env) (s s' : ExpandState) : Prop := expandNext env s = some s'

/-- The loop reaches a state in which it stops. -/
def Ends {σ : Type} (step : σ → σ → Prop) (s : σ) : Prop :=
  ∃ s', Relation.ReflTransGen step s s' ∧ ∀ s'', ¬ step s' s''

/-- The first argument is one of the flags of the second one, which is a libtool file. -/
def FlagOf (env : Env) (arg libtoolFile : Str) : Prop :=
  endsWith libtoolFile la = true ∧ arg ∈ (replaceLibtool env libtoolFile).tail

/-- **Arguments with a finite expansion.**  An argument that is the value of an option before it is
not looked at.  The first flag says that the first argument is such a value, the second one
that an option at the end waits for its value. -/
inductive Expandable (env : Env) : List Str → Bool → Bool → Prop
  | nil {value : Bool} : Expandable env [] value value
  | value {arg : Str} {args : List Str} {waits : Bool} (h : Expandable env args false waits) :
      Expandable env (arg :: args) true waits
  | file {arg : Str} {args : List Str} {waits waits' : Bool} (hla : endsWith arg la = true)
      (hfile : Expandable env (replaceLibtool env arg) false waits)
      (h : Expandable env args waits waits') : Expandable env (arg :: args) false waits'
  | option {arg : Str} {args : List Str} {waits : Bool} (hla : ¬ endsWith arg la = true)
      (hnext : takesNext arg = true) (h : Expandable env args true waits) :
      Expandable env (arg :: args) false waits
  | input {arg : Str} {args : List Str} {waits : Bool} (hla : ¬ endsWith arg la = true)
      (hnext : ¬ takesNext arg = true) (h : Expandable env args false waits) :
      Expandable env (arg :: args) false waits

/-- **The recorded indices** designate the arguments that they were recorded for. -/
def Designates (s : BuildState) : Prop :=
  ∀ j name, s.libraries.argumentUsage j = some name →
    ∃ arg, s.recordedFor j = some arg ∧ s.arguments[j]? = some arg

/-! ## The arguments around the index -/

section Vector

variable {pre rest : List Str} {arg : Str}

theorem set_append_length {text : Str} :
    (pre ++ arg :: rest).set pre.length text = (pre ++ [text]) ++ rest := by
  rw [List.set_append_right _ _ le_rfl, Nat.sub_self, List.set_cons_zero, List.append_assoc,
    List.singleton_append]

/-- **In place**: the arguments before and after the libtool file stay. -/
theorem replaceLibtoolInArguments_append :
    replaceLibtoolInArguments env (pre ++ arg :: rest) arg pre.length =
      pre ++ (replaceLibtool env arg ++ rest) := by
  have hne : replaceLibtool env arg ≠ [] := List.cons_ne_nil _ _
  unfold replaceLibtoolInArguments
  cases hreplace : replaceLibtool env arg with
  | nil => exact absurd hreplace hne
  | cons library flags =>
    have hlength : pre.length + 1 = (pre ++ [library]).length := by
      rw [List.length_append, List.length_singleton]
    dsimp only
    rw [set_append_length, hlength, List.take_left, List.drop_left]
    simp only [List.append_assoc, List.cons_append, List.nil_append]

theorem getElem?_append_length : (pre ++ arg :: rest)[pre.length]? = some arg := by
  rw [List.getElem?_append_right le_rfl, Nat.sub_self, List.getElem?_cons_zero]

theorem drop_eq_cons_of_getElem? {arguments : List Str} {i : ℕ} (h : arguments[i]? = some arg) :
    arguments.drop i = arg :: arguments.drop (i + 1) := by
  obtain ⟨hlt, rfl⟩ := List.getElem?_eq_some_iff.mp h
  exact List.drop_eq_getElem_cons hlt

theorem exists_split_of_getElem? {arguments : List Str} {i : ℕ} (h : arguments[i]? = some arg) :
    ∃ pre rest, arguments = pre ++ arg :: rest ∧ pre.length = i := by
  have hlt : i < arguments.length := (List.getElem?_eq_some_iff.mp h).1
  refine ⟨arguments.take i, arguments.drop (i + 1), ?_, ?_⟩
  · rw [← drop_eq_cons_of_getElem? h, List.take_append_drop]
  · rw [List.length_take, Nat.min_eq_left hlt.le]

theorem drop_replaceLibtoolInArguments {arguments : List Str} {i : ℕ}
    (h : arguments[i]? = some arg) :
    (replaceLibtoolInArguments env arguments arg i).drop i =
      replaceLibtool env arg ++ arguments.drop (i + 1) := by
  obtain ⟨pre, rest, rfl, rfl⟩ := exists_split_of_getElem? h
  rw [replaceLibtoolInArguments_append, List.drop_left, List.drop_append, List.drop_eq_nil_of_le
    (Nat.le_succ _), Nat.add_sub_cancel_left, List.nil_append, List.drop_succ_cons, List.drop_zero]

theorem getElem?_replaceLibtoolInArguments {arguments : List Str} {i j : ℕ}
    (h : arguments[i]? = some arg) (hj : j < i) :
    (replaceLibtoolInArguments env arguments arg i)[j]? = arguments[j]? := by
  obtain ⟨pre, rest, rfl, rfl⟩ := exists_split_of_getElem? h
  rw [replaceLibtoolInArguments_append, List.getElem?_append_left hj,
    List.getElem?_append_left hj]

end Vector

/-! ## One turn -/

section Turn

variable {s s' : BuildState} {e e' : ExpandState}

/-- What a turn of `build_libraries` does. -/
theorem buildStep_cases (h : BuildStep env l s s') : ∃ arg, s.arguments[s.i]? = some arg ∧
    (endsWith arg la = true ∧
        s' = { s with arguments := replaceLibtoolInArguments env s.arguments arg s.i } ∨
      endsWith arg la = false ∧ takesNext arg = true ∧ s' = { s with i := s.i + 2 } ∨
      endsWith arg la = false ∧ takesNext arg = false ∧ s' = { s with
        i := s.i + 1
        libraries := addArgument env l s.libraries arg s.i
        recordedFor := if records env l arg = true then Function.update s.recordedFor s.i (some arg)
          else s.recordedFor }) := by
  unfold BuildStep buildNext at h
  split at h
  · cases h
  next arg harg =>
    refine ⟨arg, harg, ?_⟩
    split at h
    next hla => exact Or.inl ⟨hla, (Option.some.inj h).symm⟩
    next hla =>
      have hla' : endsWith arg la = false := Bool.eq_false_iff.mpr hla
      split at h
      next hnext => exact Or.inr (Or.inl ⟨hla', hnext, (Option.some.inj h).symm⟩)
      next hnext =>
        exact Or.inr (Or.inr ⟨hla', Bool.eq_false_iff.mpr hnext, (Option.some.inj h).symm⟩)

theorem expandStep_cases (h : ExpandStep env e e') : ∃ arg, e.arguments[e.i]? = some arg ∧
    (endsWith arg la = true ∧
        e' = ⟨replaceLibtoolInArguments env e.arguments arg e.i, e.i + 1⟩ ∨
      endsWith arg la = false ∧ e' = ⟨e.arguments, e.i + 1⟩) := by
  unfold ExpandStep expandNext at h
  split at h
  · cases h
  next arg harg =>
    refine ⟨arg, harg, ?_⟩
    split at h
    next hla => exact Or.inl ⟨hla, (Option.some.inj h).symm⟩
    next hla => exact Or.inr ⟨Bool.eq_false_iff.mpr hla, (Option.some.inj h).symm⟩

theorem expandStep_expands (h : ExpandStep env e e') :
    Expands (fun e ↦ e.arguments.drop e.i) (FlagOf env) e e' := by
  obtain ⟨arg, harg, hcases⟩ := expandStep_cases h
  have hdrop := drop_eq_cons_of_getElem? harg
  rcases hcases with ⟨hla, rfl⟩ | ⟨hla, rfl⟩
  · -- the library is not looked at again
    refine ⟨arg, (replaceLibtool env arg).tail, _, hdrop, ?_,
      fun arg' ↦ ⟨fun hnew ↦ ⟨hla, hnew⟩, And.right⟩⟩
    show (replaceLibtoolInArguments env e.arguments arg e.i).drop (e.i + 1) = _
    rw [← List.drop_drop, drop_replaceLibtoolInArguments harg]
    rfl
  · exact ⟨arg, [], _, hdrop, (List.nil_append _).symm,
      fun arg' ↦ ⟨nofun, fun hnew ↦ absurd hnew.1 (Bool.eq_false_iff.mp hla)⟩⟩

theorem drop_of_expandFinal (h : ∀ e', ¬ ExpandStep env e e') : e.arguments.drop e.i = [] := by
  rw [List.drop_eq_nil_iff, ← List.getElem?_eq_none_iff]
  by_contra hsome
  obtain ⟨arg, harg⟩ := Option.ne_none_iff_exists'.mp hsome
  have hnext : ∃ e', expandNext env e = some e' := by
    unfold expandNext
    rw [harg]
    exact ⟨_, (apply_ite some ..).symm⟩
  obtain ⟨e', he'⟩ := hnext
  exact h e' he'

theorem ends_expandStep_iff :
    Ends (ExpandStep env) e ↔ ∀ arg ∈ e.arguments.drop e.i, Acc (FlagOf env) arg :=
  ends_iff_acc (fun _ _ ↦ expandStep_expands) fun _ ↦ drop_of_expandFinal

end Turn

/-! ## The recorded indices -/

section Recorded

variable {s s' : BuildState}

/-- Whatever is recorded is before the index, and is there. -/
def Behind (s : BuildState) : Prop :=
  ∀ j name, s.libraries.argumentUsage j = some name →
    j < s.i ∧ ∃ arg, s.recordedFor j = some arg ∧ s.arguments[j]? = some arg

theorem argumentUsage_addFileToLibraryList {config : YamlConfig} {libraries : Libraries}
    {filename name : Str} {i : Option ℕ} {j : ℕ}
    (h : (addFileToLibraryList config libraries filename i).argumentUsage j = some name) :
    libraries.argumentUsage j = some name ∨
      i = some j ∧ (contextOf config filename).isSome = true := by
  unfold addFileToLibraryList at h
  cases hcontext : contextOf config filename with
  | none =>
    rw [hcontext] at h
    exact Or.inl h
  | some c =>
    rw [hcontext] at h
    cases i with
    | none => exact Or.inl h
    | some i =>
      by_cases hj : j = i
      · exact Or.inr ⟨congrArg some hj.symm, rfl⟩
      · exact Or.inl ((Function.update_of_ne hj ..).symm.trans h)

theorem argumentUsage_addArgument {libraries : Libraries} {arg name : Str} {i j : ℕ}
    (h : (addArgument env l libraries arg i).argumentUsage j = some name) :
    libraries.argumentUsage j = some name ∨ j = i ∧ records env l arg = true := by
  unfold addArgument at h
  unfold records
  rcases hfile : inputFile env l arg with _ | ⟨filename, _ | _⟩
  · rw [hfile] at h
    exact Or.inl h
  · rw [hfile] at h
    exact Or.inl ((argumentUsage_addFileToLibraryList h).resolve_right fun h ↦ nomatch h.1)
  · rw [hfile] at h
    refine (argumentUsage_addFileToLibraryList h).imp_right fun hrecords ↦ ?_
    exact ⟨(Option.some.inj hrecords.1).symm, hrecords.2⟩

/-- **One turn** writes at the index or behind it, and records the index. -/
theorem behind_step (h : Behind s) (hstep : BuildStep env l s s') : Behind s' := by
  obtain ⟨arg, harg, ⟨-, rfl⟩ | ⟨-, -, rfl⟩ | ⟨-, -, rfl⟩⟩ := buildStep_cases hstep
  · intro j name hj
    obtain ⟨hlt, arg', hrecorded, harg'⟩ := h j name hj
    exact ⟨hlt, arg', hrecorded, (getElem?_replaceLibtoolInArguments harg hlt).trans harg'⟩
  · intro j name hj
    obtain ⟨hlt, harg'⟩ := h j name hj
    exact ⟨Nat.lt_add_right 2 hlt, harg'⟩
  · intro j name hj
    dsimp only at hj ⊢
    by_cases hji : j = s.i
    · subst hji
      have hrecords : records env l arg = true := by
        rcases argumentUsage_addArgument hj with hold | ⟨-, hrecords⟩
        · exact absurd (h _ name hold).1 (Nat.lt_irrefl _)
        · exact hrecords
      refine ⟨Nat.lt_succ_self _, arg, ?_, harg⟩
      rw [if_pos hrecords, Function.update_self]
    · have hold := (argumentUsage_addArgument hj).resolve_right fun h ↦ hji h.1
      obtain ⟨hlt, arg', hrecorded, harg'⟩ := h j name hold
      refine ⟨Nat.lt_succ_of_lt hlt, arg', ?_, harg'⟩
      split
      · rwa [Function.update_of_ne hji]
      · exact hrecorded

end Recorded

/-! ## The loop over the arguments that are left -/

section Refinement

variable {s s' : BuildState} {arg : Str}

theorem buildStep_of_la (harg : s.arguments[s.i]? = some arg) (hla : endsWith arg la = true) :
    BuildStep env l s
      { s with arguments := replaceLibtoolInArguments env s.arguments arg s.i } := by
  unfold BuildStep buildNext
  rw [harg]
  exact if_pos hla

theorem buildStep_of_takesNext (harg : s.arguments[s.i]? = some arg)
    (hla : ¬ endsWith arg la = true) (hnext : takesNext arg = true) :
    BuildStep env l s { s with i := s.i + 2 } := by
  unfold BuildStep buildNext
  rw [harg]
  exact (if_neg hla).trans (if_pos hnext)

theorem buildStep_of_input (harg : s.arguments[s.i]? = some arg)
    (hla : ¬ endsWith arg la = true) (hnext : ¬ takesNext arg = true) :
    BuildStep env l s { s with
      i := s.i + 1
      libraries := addArgument env l s.libraries arg s.i
      recordedFor := if records env l arg = true then Function.update s.recordedFor s.i (some arg)
        else s.recordedFor } := by
  unfold BuildStep buildNext
  rw [harg]
  exact (if_neg hla).trans (if_neg hnext)

theorem final_iff : (∀ s', ¬ BuildStep env l s s') ↔ s.arguments.length ≤ s.i := by
  rw [← List.getElem?_eq_none_iff]
  constructor
  · intro h
    by_contra hsome
    obtain ⟨arg, harg⟩ := Option.ne_none_iff_exists'.mp hsome
    by_cases hla : endsWith arg la = true
    · exact h _ (buildStep_of_la harg hla)
    · by_cases hnext : takesNext arg = true
      · exact h _ (buildStep_of_takesNext harg hla hnext)
      · exact h _ (buildStep_of_input harg hla hnext)
  · intro hnone s' hstep
    obtain ⟨arg, harg, -⟩ := buildStep_cases hstep
    rw [hnone] at harg
    cases harg

/-- The state of the vector loop has been reached, and it is the result of the other one. -/
def Result (env : Env) (l : LinkerArguments) (s : BuildState) (arguments : List Str)
    (libraries : Libraries) : Prop :=
  ∃ s', Relation.ReflTransGen (BuildStep env l) s s' ∧ s'.arguments.length ≤ s'.i ∧
    s'.arguments = arguments ∧ s'.libraries = libraries

theorem Result.head {arguments : List Str} {libraries : Libraries} (hstep : BuildStep env l s s')
    (h : Result env l s' arguments libraries) : Result env l s arguments libraries := by
  obtain ⟨x, hreach, hx⟩ := h
  exact ⟨x, .head hstep hreach, hx⟩

/-- **The loop over the vector** computes what the loop over the rest computes. -/
theorem result_of_buildLoop {fuel : ℕ} {pre args : List Str} {libraries : Libraries}
    {recordedFor : ℕ → Option Str} {r : List Str × Libraries}
    (h : buildLoop env l fuel pre.length args libraries = some r) :
    Result env l ⟨pre ++ args, pre.length, libraries, recordedFor⟩ (pre ++ r.1) r.2 := by
  induction fuel generalizing pre args libraries recordedFor r with
  | zero => cases h
  | succ fuel ih =>
    cases args with
    | nil =>
      obtain rfl := Option.some.inj h
      exact ⟨_, .refl, Nat.le_of_eq (by rw [List.append_nil]), rfl, rfl⟩
    | cons arg args =>
      have harg : (pre ++ arg :: args)[pre.length]? = some arg := getElem?_append_length
      let s : BuildState := ⟨pre ++ arg :: args, pre.length, libraries, recordedFor⟩
      simp only [buildLoop] at h
      split at h
      next hla =>
        refine Result.head (s := s) (buildStep_of_la harg hla) ?_
        rw [replaceLibtoolInArguments_append]
        exact ih h
      next hla =>
        split at h
        next hnext =>
          refine Result.head (s := s) (buildStep_of_takesNext harg hla hnext) ?_
          cases args with
          | nil =>
            obtain rfl := Option.some.inj h
            refine ⟨_, .refl, ?_, rfl, rfl⟩
            show (pre ++ [arg]).length ≤ pre.length + 2
            rw [List.length_append, List.length_singleton]
            exact Nat.le_succ _
          | cons next args =>
            obtain ⟨r', hr', rfl⟩ := Option.map_eq_some_iff.mp h
            have hloop : buildLoop env l fuel (pre ++ [arg, next]).length args libraries =
                some r' := by rwa [List.length_append]
            have hrest : Result env l ⟨_, _, libraries, recordedFor⟩ _ _ := ih hloop
            rw [List.length_append, List.append_assoc, List.append_assoc] at hrest
            exact hrest
        next hnext =>
          refine Result.head (s := s) (buildStep_of_input harg hla hnext) ?_
          obtain ⟨r', hr', rfl⟩ := Option.map_eq_some_iff.mp h
          have hloop : buildLoop env l fuel (pre ++ [arg]).length args
              (addArgument env l libraries arg pre.length) = some r' := by
            rwa [List.length_append]
          have hrest : Result env l ⟨_, _, addArgument env l libraries arg pre.length,
              if records env l arg = true then
                Function.update recordedFor pre.length (some arg)
              else recordedFor⟩ _ _ := ih hloop
          rw [List.length_append, List.append_assoc, List.append_assoc] at hrest
          exact hrest

theorem exists_buildLoop_of_reaches (h : Relation.ReflTransGen (BuildStep env l) s s')
    (hend : s'.arguments.length ≤ s'.i) :
    ∃ fuel r, buildLoop env l fuel s.i (s.arguments.drop s.i) s.libraries = some r := by
  induction h using Relation.ReflTransGen.head_induction_on with
  | refl =>
    rw [List.drop_eq_nil_of_le hend]
    exact ⟨1, _, rfl⟩
  | @head s _ hstep _ ih =>
    obtain ⟨fuel, r, hr⟩ := ih
    obtain ⟨arg, harg, hcases⟩ := buildStep_cases hstep
    refine ⟨fuel + 1, ?_⟩
    rw [drop_eq_cons_of_getElem? harg]
    simp only [buildLoop]
    rcases hcases with ⟨hla, rfl⟩ | ⟨hla, hnext, rfl⟩ | ⟨hla, hnext, rfl⟩
    · rw [if_pos hla]
      rw [drop_replaceLibtoolInArguments harg] at hr
      exact ⟨r, hr⟩
    · rw [hla, hnext, if_neg Bool.false_ne_true, if_pos rfl]
      cases hrest : s.arguments.drop (s.i + 1) with
      | nil => exact ⟨_, rfl⟩
      | cons next args =>
        have hargs : s.arguments.drop (s.i + 1 + 1) = args := by
          rw [← List.drop_drop, hrest, List.drop_one, List.tail_cons]
        rw [← hargs]
        exact ⟨_, Option.map_eq_some_iff.mpr ⟨r, hr, rfl⟩⟩
    · rw [hla, hnext, if_neg Bool.false_ne_true, if_neg Bool.false_ne_true]
      exact ⟨_, Option.map_eq_some_iff.mpr ⟨r, hr, rfl⟩⟩

end Refinement

/-- `build_libraries` has a result exactly if its loop ends. -/
theorem exists_buildLibraries_iff :
    (∃ fuel r, buildLibraries env l fuel = some r) ↔
      Ends (BuildStep env l) { arguments := l.arguments, i := 0 } := by
  constructor
  · rintro ⟨fuel, r, hr⟩
    obtain ⟨r', hr', -⟩ := Option.map_eq_some_iff.mp hr
    have hresult : Result env l ⟨[] ++ l.arguments, 0, {}, fun _ ↦ none⟩ ([] ++ r'.1) r'.2 :=
      result_of_buildLoop hr'
    obtain ⟨s', hreach, hend, -⟩ := hresult
    exact ⟨s', hreach, final_iff.mpr hend⟩
  · rintro ⟨s', hreach, hend⟩
    obtain ⟨fuel, r, hr⟩ := exists_buildLoop_of_reaches hreach (final_iff.mp hend)
    exact ⟨fuel, _, Option.map_eq_some_iff.mpr ⟨r, hr, rfl⟩⟩

/-! ## Finite expansions -/

section Expansion

variable {args args' : List Str} {value waits : Bool}

theorem Expandable.exists_append (h : Expandable env (args ++ args') value waits) :
    ∃ between, Expandable env args value between ∧ Expandable env args' between waits := by
  induction args generalizing value with
  | nil => exact ⟨value, .nil, h⟩
  | cons arg args ih =>
    cases h with
    | value h =>
      obtain ⟨between, hargs, hargs'⟩ := ih h
      exact ⟨between, .value hargs, hargs'⟩
    | file hla hfile h =>
      obtain ⟨between, hargs, hargs'⟩ := ih h
      exact ⟨between, .file hla hfile hargs, hargs'⟩
    | option hla hnext h =>
      obtain ⟨between, hargs, hargs'⟩ := ih h
      exact ⟨between, .option hla hnext hargs, hargs'⟩
    | input hla hnext h =>
      obtain ⟨between, hargs, hargs'⟩ := ih h
      exact ⟨between, .input hla hnext hargs, hargs'⟩

theorem exists_expandable_of_buildLoop {fuel i : ℕ} {libraries : Libraries}
    {r : List Str × Libraries} (h : buildLoop env l fuel i args libraries = some r) :
    ∃ waits, Expandable env args false waits := by
  induction fuel generalizing i args libraries r with
  | zero => cases h
  | succ fuel ih =>
    cases args with
    | nil => exact ⟨false, .nil⟩
    | cons arg args =>
      simp only [buildLoop] at h
      split at h
      next hla =>
        obtain ⟨waits, hargs⟩ := ih h
        obtain ⟨between, hfile, hargs⟩ := hargs.exists_append
        exact ⟨waits, .file hla hfile hargs⟩
      next hla =>
        split at h
        next hnext =>
          cases args with
          | nil => exact ⟨true, .option hla hnext .nil⟩
          | cons next args =>
            obtain ⟨r', hr', -⟩ := Option.map_eq_some_iff.mp h
            obtain ⟨waits, hargs⟩ := ih hr'
            exact ⟨waits, .option hla hnext (.value hargs)⟩
        next hnext =>
          obtain ⟨r', hr', -⟩ := Option.map_eq_some_iff.mp h
          obtain ⟨waits, hargs⟩ := ih hr'
          exact ⟨waits, .input hla hnext hargs⟩

/-- The loop ends on the arguments, the first one of which may be a value. -/
def LoopEnds (env : Env) (l : LinkerArguments) (value : Bool) (args : List Str) : Prop :=
  ∀ i libraries, ∃ fuel r,
    buildLoop env l fuel i (if value = true then args.tail else args) libraries = some r

/-- The loop ends on arguments with a finite expansion if it ends on those behind. -/
theorem Expandable.loopEnds (h : Expandable env args value waits)
    (hargs' : LoopEnds env l waits args') : LoopEnds env l value (args ++ args') := by
  induction h generalizing args' with
  | nil => exact hargs'
  | value _ ih => exact ih hargs'
  | file hla _ _ ihfile ih =>
    intro i libraries
    obtain ⟨fuel, r, hr⟩ := ihfile (ih hargs') i libraries
    exact ⟨fuel + 1, r, (if_pos hla).trans hr⟩
  | @option arg args _ hla hnext _ ih =>
    intro i libraries
    obtain ⟨fuel, r, hr⟩ := ih hargs' (i + 2) libraries
    refine ⟨fuel + 1, ?_⟩
    show ∃ r, buildLoop env l (fuel + 1) i (arg :: (args ++ args')) libraries = some r
    simp only [buildLoop, if_neg hla, if_pos hnext]
    cases hrest : args ++ args' with
    | nil => exact ⟨_, rfl⟩
    | cons next rest =>
      rw [hrest] at hr
      exact ⟨_, Option.map_eq_some_iff.mpr ⟨r, hr, rfl⟩⟩
  | @input arg args _ hla hnext _ ih =>
    intro i libraries
    obtain ⟨fuel, r, hr⟩ := ih hargs' (i + 1) (addArgument env l libraries arg i)
    refine ⟨fuel + 1, ?_⟩
    show ∃ r, buildLoop env l (fuel + 1) i (arg :: (args ++ args')) libraries = some r
    simp only [buildLoop, if_neg hla, if_neg hnext]
    exact ⟨_, Option.map_eq_some_iff.mpr ⟨r, hr, rfl⟩⟩

theorem exists_buildLibraries_iff_expandable : (∃ fuel r, buildLibraries env l fuel = some r) ↔
    ∃ waits, Expandable env l.arguments false waits := by
  constructor
  · rintro ⟨fuel, r, hr⟩
    obtain ⟨r', hr', -⟩ := Option.map_eq_some_iff.mp hr
    exact exists_expandable_of_buildLoop hr'
  · rintro ⟨waits, h⟩
    have hnil : LoopEnds env l waits [] := by
      intro i libraries
      rw [List.tail_nil, ite_self]
      exact ⟨1, _, rfl⟩
    obtain ⟨fuel, r, hr⟩ := h.loopEnds hnil 0 {}
    rw [List.append_nil, if_neg Bool.false_ne_true] at hr
    exact ⟨fuel, _, Option.map_eq_some_iff.mpr ⟨r, hr, rfl⟩⟩

end Expansion

/-- **Libtool expansion.**  The loop of `build_libraries` ends, with a result, exactly if the
arguments have a finite expansion, and the loop of the constructor exactly if no argument starts
an endless chain of files that are flags of each other.  In any case every index that
`build_libraries` records designates the argument that it was recorded for, in every turn. -/
theorem expansion_ends_iff (env : Env) (l : LinkerArguments) :
    (Ends (BuildStep env l) { arguments := l.arguments, i := 0 } ↔
      ∃ waits, Expandable env l.arguments false waits) ∧
    ((∃ fuel r, buildLibraries env l fuel = some r) ↔
      ∃ waits, Expandable env l.arguments false waits) ∧
    (Ends (ExpandStep env) ⟨l.arguments, 0⟩ ↔ ∀ arg ∈ l.arguments, Acc (FlagOf env) arg) ∧
    ∀ s, Relation.ReflTransGen (BuildStep env l) { arguments := l.arguments, i := 0 } s →
      Designates s := by
  refine ⟨exists_buildLibraries_iff.symm.trans exists_buildLibraries_iff_expandable,
    exists_buildLibraries_iff_expandable, ends_expandStep_iff, fun s hs j name hj ↦ ?_⟩
  have hstart : Behind { arguments := l.arguments, i := 0 } := by
    intro j name hj
    cases hj
  have hbehind : Behind s := invariant_of_reaches (I := Behind) (fun _ _ ↦ behind_step) hs hstart
  exact (hbehind j name hj).2

/-! ## A libtool file -/

section File

/-- A directory with one libtool file. -/
def libtoolEnv (lines : List Str) : Env where
  cwd := "/w".toList
  content path := if path = "/w/x.la".toList then some (.text lines) else none
  nm _ := ⟨[], []⟩
  stubs := ⟨[], []⟩
  links _ _ := true
  linked := .union
  defines_linked := Bitcode.defines_union
  declares_linked := Bitcode.declares_union
  verifies _ := true
  applicationDir := "/cali".toList
  randomString _ := []
  newFiles := []

def libtoolLinker : LinkerArguments where
  arguments := ["x.la".toList]
  config := { contexts := [] }

/-- The file is its own library. -/
def isItsOwnLibrary : List Str := ["old_library='x.la'".toList]

/-- The file is the value of an option. -/
def libtoolOutput : LinkerArguments where
  arguments := ["-o".toList, "x.la".toList]
  config := { contexts := [] }

/-- The file depends on itself and is its own library. -/
def dependsOnItself : List Str := ["old_library='x.la'".toList, "dependency_libs='x.la'".toList]

theorem expansion_ends_isItsOwnLibrary :
    Ends (BuildStep (libtoolEnv isItsOwnLibrary) libtoolOutput)
        { arguments := ["-o".toList, "x.la".toList], i := 0 } ∧
      Ends (ExpandStep (libtoolEnv isItsOwnLibrary)) ⟨["-o".toList, "x.la".toList], 0⟩ := by
  obtain ⟨hbuild, -, hexpand, -⟩ := expansion_ends_iff (libtoolEnv isItsOwnLibrary) libtoolOutput
  have hflags : ∀ arg ∈ libtoolOutput.arguments,
      (replaceLibtool (libtoolEnv isItsOwnLibrary) arg).tail = [] := by decide +kernel
  refine ⟨hbuild.mpr ⟨false, .option (by decide) (by decide) (.value .nil)⟩,
    hexpand.mpr fun arg harg ↦ Acc.intro arg fun arg' hflag ↦ ?_⟩
  rw [FlagOf, hflags arg harg] at hflag
  exact absurd hflag.2 List.not_mem_nil

/-- All arguments are the file, and there is one at the index. -/
def OnlyItself (arguments : List Str) (i : ℕ) : Prop :=
  (∀ arg ∈ arguments, arg = "x.la".toList) ∧ i < arguments.length

theorem OnlyItself.getElem? {arguments : List Str} {i : ℕ} (h : OnlyItself arguments i) :
    arguments[i]? = some "x.la".toList := by
  rw [List.getElem?_eq_getElem h.2, h.1 _ (List.getElem_mem h.2)]

theorem OnlyItself.replace {arguments : List Str} {i : ℕ} (h : OnlyItself arguments i) :
    OnlyItself (replaceLibtoolInArguments (libtoolEnv dependsOnItself) arguments "x.la".toList i)
      (i + 1) := by
  have hreplace : replaceLibtool (libtoolEnv dependsOnItself) "x.la".toList =
      ["x.la".toList, "x.la".toList] := by decide +kernel
  obtain ⟨pre, rest, rfl, rfl⟩ := exists_split_of_getElem? h.getElem?
  rw [replaceLibtoolInArguments_append, hreplace]
  constructor
  · intro arg harg
    refine h.1 arg ?_
    simp only [List.mem_append, List.mem_cons, List.not_mem_nil, or_false, or_self] at harg ⊢
    exact harg
  · simp only [List.length_append, List.length_cons, List.length_nil]
    omega

/-- A file that names itself keeps both loops going. -/
theorem not_ends_dependsOnItself :
    ¬ Ends (BuildStep (libtoolEnv dependsOnItself) libtoolLinker)
        { arguments := ["x.la".toList], i := 0 } ∧
      ¬ Ends (ExpandStep (libtoolEnv dependsOnItself)) ⟨["x.la".toList], 0⟩ := by
  have hstart : OnlyItself ["x.la".toList] 0 := ⟨by simp, by simp⟩
  constructor
  · rintro ⟨s, hreach, hend⟩
    have hs : OnlyItself s.arguments s.i := by
      refine invariant_of_reaches (I := fun s : BuildState ↦ OnlyItself s.arguments s.i)
        (fun s s' h hstep ↦ ?_) hreach hstart
      obtain rfl := Option.some.inj (hstep.symm.trans (buildStep_of_la h.getElem? rfl))
      exact ⟨h.replace.1, Nat.lt_of_succ_lt h.replace.2⟩
    exact hend _ (buildStep_of_la hs.getElem? rfl)
  · rintro ⟨s, hreach, hend⟩
    have hstep : ∀ s : ExpandState, OnlyItself s.arguments s.i →
        ExpandStep (libtoolEnv dependsOnItself) s
          ⟨replaceLibtoolInArguments (libtoolEnv dependsOnItself) s.arguments "x.la".toList s.i,
            s.i + 1⟩ := by
      intro s hs
      unfold ExpandStep expandNext
      rw [hs.getElem?]
      rfl
    have hs : OnlyItself s.arguments s.i := by
      refine invariant_of_reaches (I := fun s : ExpandState ↦ OnlyItself s.arguments s.i)
        (fun s s' h hst ↦ ?_) hreach hstart
      obtain rfl := Option.some.inj (hst.symm.trans (hstep s h))
      exact h.replace
    exact hend _ (hstep s hs)

end File

end Cali.Linker
