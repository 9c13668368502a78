import Cali.Nsjail.Mounts

/-!
# Mounts derived from the arguments

`nsjail_addMount` with `$ARGV` and `$ARGV_FOLDERS` mounts what the arguments of the program
name.  Each argument is cut at its commas; a part counts as what follows its first `=`, and
is dropped if it then starts with `-`.

For `$ARGV` exactly the candidates that can be resolved are mounted.  For `$ARGV_FOLDERS` the
same holds of their folders as long as each of them can be resolved; the first one that
cannot ends the process.
-/

namespace Cali.Nsjail

open Cali.Lib Cali.Linker

variable {env : Env}

/-! ## Candidates -/

/-- The candidate of a part of an argument -/
def candidate (part : Str) : Option Str :=
  let pos := splitParameter part
  if pos.head? = some '-' then none else some pos

/-- The candidates of an argument -/
def candidates (arg : Str) : List Str := (arg.splitOn ',').filterMap candidate

namespace Env

/-- The candidates of all arguments of the program -/
def candidates (env : Env) : List Str := (env.argv.drop 1).flatMap Nsjail.candidates

/-- The candidates that can be resolved, as resolved -/
def resolved (env : Env) : List Str :=
  env.candidates.filterMap fun pos ↦ (env.realpath pos).map Subtype.val

/-- The folders of the candidates that can be resolved, as resolved -/
def resolvedFolders (env : Env) : List Str :=
  env.candidates.filterMap fun pos ↦ (folder env pos).map Subtype.val

end Env

/-- The call returns, and it appends one bind mount for each of the paths that is not mounted
yet, in the order of first occurrence. -/
def AddsExactly (env : Env) (kind : Bind) (mountpts : List Mount) (paths : List Str)
    (result : Option (List Mount)) : Prop :=
  result = some (mountpts ++ (newKeys Mount.dst mountpts paths).map (bindMount env kind))

/-! ## The splitter -/

/-- The splitter calls `mount` with the parts between the commas, one after the other. -/
theorem forParts_eq (mount : List Mount → Str → Option (List Mount)) {fuel : ℕ} {pos : Str}
    (hfuel : pos.length < fuel) (mountpts : List Mount) :
    forParts mount fuel mountpts pos = (pos.splitOn ',').foldlM mount mountpts := by
  induction fuel generalizing pos mountpts with
  | zero => exact absurd hfuel (Nat.not_lt_zero _)
  | succ fuel ih =>
    rw [forParts]
    cases hsep : strchr pos ',' with
    | none =>
      rw [List.splitOn_eq_singleton (cut_eq_none_iff.mp hsep)]
      simp
    | some split =>
      obtain ⟨part, rest⟩ := split
      obtain ⟨rfl, hpart⟩ := cut_eq_some_iff.mp hsep
      have hrest : rest.length < fuel := by
        simp only [List.length_append, List.length_cons] at hfuel
        omega
      have hnext : (forParts mount fuel · rest) = (rest.splitOn ',').foldlM mount :=
        funext fun l ↦ ih hrest l
      rw [splitOn_append_cons hpart, List.foldlM_cons, ← hnext]
      rfl

/-- The parts of all arguments of the program -/
def Env.parts (env : Env) : List Str := (env.argv.drop 1).flatMap (List.splitOn ',')

theorem forArguments_eq (mount : List Mount → Str → Option (List Mount)) (mountpts : List Mount) :
    forArguments env mount mountpts = env.parts.foldlM mount mountpts := by
  unfold forArguments Env.parts
  induction env.argv.drop 1 generalizing mountpts with
  | nil => rfl
  | cons arg args ih =>
    rw [List.foldlM_cons, List.flatMap_cons, List.foldlM_append,
      forParts_eq mount (Nat.lt_succ_self _)]
    exact congrArg _ (funext fun l ↦ ih l)

theorem filterMap_candidates {α : Type} (f : Str → Option α) :
    env.candidates.filterMap f = env.parts.filterMap fun part ↦ (candidate part).bind f := by
  unfold Env.candidates Env.parts candidates
  simp only [List.filterMap_flatMap, List.filterMap_filterMap]

theorem mem_candidates {pos : Str} :
    pos ∈ env.candidates ↔ ∃ part ∈ env.parts, candidate part = some pos := by
  unfold Env.candidates Env.parts candidates
  simp only [List.mem_flatMap, List.mem_filterMap]
  exact ⟨fun ⟨arg, harg, part, hpart, h⟩ ↦ ⟨part, ⟨arg, harg, hpart⟩, h⟩,
    fun ⟨part, ⟨arg, harg, hpart⟩, h⟩ ↦ ⟨arg, harg, part, hpart, h⟩⟩

/-! ## The bodies of the splitter -/

section

variable (kind : Bind) (mountpts : List Mount) {part pos : Str}

theorem elim_candidate {β : Type} (x : β) (f : Str → β) :
    (candidate part).elim x f =
      if (splitParameter part).head? = some '-' then x else f (splitParameter part) := by
  unfold candidate
  rw [apply_ite fun pos : Option Str ↦ pos.elim x f]
  rfl

theorem mountPart_elim (part : Str) :
    mountPart env kind.flags [] mountpts part =
      (candidate part).elim (some mountpts) fun pos ↦ (env.realpath pos).elim (some mountpts)
        fun path ↦ some (appendNew Mount.dst (bindMount env kind) mountpts path) := by
  rw [elim_candidate]
  unfold mountPart
  rw [ite_not]
  refine if_congr Iff.rfl rfl ?_
  cases env.realpath (splitParameter part) with
  | none => rfl
  | some path => exact addMountSimple_bind path.property kind

theorem mountFolder_elim (part : Str) :
    mountFolder env kind.flags [] mountpts part =
      (candidate part).elim (some mountpts) fun pos ↦ (folder env pos).elim none
        fun path ↦ some (appendNew Mount.dst (bindMount env kind) mountpts path) := by
  rw [elim_candidate]
  unfold mountFolder
  rw [ite_not]
  refine if_congr Iff.rfl rfl ?_
  cases folder env (splitParameter part) with
  | none => rfl
  | some path => exact addMountSimple_bind path.property kind

/-- The turn of `$ARGV`: a candidate that cannot be resolved is passed over. -/
theorem mountPart_eq (part : Str) :
    mountPart env kind.flags [] mountpts part =
      some (((candidate part).bind fun pos ↦ (env.realpath pos).map Subtype.val).elim mountpts
        (appendNew Mount.dst (bindMount env kind) mountpts)) := by
  rw [mountPart_elim]
  cases candidate part with
  | none => rfl
  | some pos =>
    rw [Option.elim_some, Option.bind_some]
    cases env.realpath pos <;> rfl

/-- The turn of `$ARGV_FOLDERS`, for a candidate whose folder can be resolved -/
theorem mountFolder_eq (h : ∀ pos, candidate part = some pos → (folder env pos).isSome) :
    mountFolder env kind.flags [] mountpts part =
      some (((candidate part).bind fun pos ↦ (folder env pos).map Subtype.val).elim mountpts
        (appendNew Mount.dst (bindMount env kind) mountpts)) := by
  rw [mountFolder_elim]
  cases hcand : candidate part with
  | none => rfl
  | some pos =>
    obtain ⟨path, hpath⟩ := Option.isSome_iff_exists.mp (h pos hcand)
    simp only [Option.elim_some, Option.bind_some, hpath, Option.map_some]

/-- The turn of `$ARGV_FOLDERS`, for a candidate whose folder cannot be resolved -/
theorem mountFolder_eq_none (hcand : candidate part = some pos) (h : folder env pos = none) :
    mountFolder env kind.flags [] mountpts part = none := by
  rw [mountFolder_elim, hcand, Option.elim_some, h]
  rfl

end

/-! ## The two calls -/

theorem addsExactly_foldl (kind : Bind) (mountpts : List Mount) (paths : List Str) :
    AddsExactly env kind mountpts paths
      (some (paths.foldl (appendNew Mount.dst (bindMount env kind)) mountpts)) :=
  congrArg some (foldl_appendNew (bindMount_dst env kind) paths mountpts)

theorem addsExactly_argv (kind : Bind) (mountpts : List Mount) :
    AddsExactly env kind mountpts env.resolved
      (addMount env mountpts "$ARGV".toList kind.flags []) := by
  have hrun : addMount env mountpts "$ARGV".toList kind.flags [] =
      some (env.resolved.foldl (appendNew Mount.dst (bindMount env kind)) mountpts) := by
    change forArguments env (mountPart env kind.flags []) mountpts = _
    rw [forArguments_eq, Env.resolved, filterMap_candidates]
    exact foldlM_eq_foldl_appendNew (fun part _ l ↦ mountPart_eq kind l part) mountpts
  rw [hrun]
  exact addsExactly_foldl kind mountpts env.resolved

theorem addMount_folders (kind : Bind) (mountpts : List Mount) :
    addMount env mountpts "$ARGV_FOLDERS".toList kind.flags [] =
      env.parts.foldlM (mountFolder env kind.flags []) mountpts := by
  change forArguments env (mountFolder env kind.flags []) mountpts = _
  exact forArguments_eq _ mountpts

/-- **The mounts derived from the arguments are the resolvable ones.**  For `$ARGV` always; for
`$ARGV_FOLDERS` exactly if the folder of each candidate can be resolved. -/
theorem argument_mounts_exact (env : Env) (kind : Bind) (mountpts : List Mount) :
    AddsExactly env kind mountpts env.resolved
        (addMount env mountpts "$ARGV".toList kind.flags []) ∧
      (AddsExactly env kind mountpts env.resolvedFolders
          (addMount env mountpts "$ARGV_FOLDERS".toList kind.flags []) ↔
        ∀ pos ∈ env.candidates, (folder env pos).isSome) := by
  refine ⟨addsExactly_argv kind mountpts, fun hadds pos hpos ↦ ?_, fun hfolders ↦ ?_⟩
  · by_contra hnone
    rw [Option.not_isSome_iff_eq_none] at hnone
    obtain ⟨part, hpart, hcand⟩ := mem_candidates.mp hpos
    have hrun : addMount env mountpts "$ARGV_FOLDERS".toList kind.flags [] = none := by
      rw [addMount_folders]
      exact foldlM_eq_none hpart (fun l ↦ mountFolder_eq_none kind l hcand hnone) mountpts
    rw [hrun] at hadds
    exact Option.some_ne_none _ hadds.symm
  · have hrun : addMount env mountpts "$ARGV_FOLDERS".toList kind.flags [] =
        some (env.resolvedFolders.foldl (appendNew Mount.dst (bindMount env kind)) mountpts) := by
      rw [addMount_folders, Env.resolvedFolders, filterMap_candidates]
      apply foldlM_eq_foldl_appendNew
      intro part hpart l
      apply mountFolder_eq
      exact fun pos hcand ↦ hfolders pos (mem_candidates.mpr ⟨part, hpart, hcand⟩)
    rw [hrun]
    exact addsExactly_foldl kind mountpts env.resolvedFolders

/-- A path that does not exist in a folder that does not exist: `$ARGV` leaves it out, and
`$ARGV_FOLDERS` ends the process. -/
theorem not_addsExactly_missing_folder :
    let env : Env := ⟨fun _ ↦ none, none, fun _ ↦ none, fun _ ↦ "missing".toList, fun _ ↦ true,
      ["prog".toList, "missing/file".toList], none⟩
    addMount env [] "$ARGV".toList (Bind.flags .readonly) [] = some [] ∧
      addMount env [] "$ARGV_FOLDERS".toList (Bind.flags .readonly) [] = none ∧
      ¬ AddsExactly env .readonly [] env.resolvedFolders
        (addMount env [] "$ARGV_FOLDERS".toList (Bind.flags .readonly) []) := by
  intro env
  have hrun : addMount env [] "$ARGV_FOLDERS".toList (Bind.flags .readonly) [] = none := by decide
  refine ⟨by decide, hrun, fun hadds ↦ ?_⟩
  rw [hrun] at hadds
  exact Option.some_ne_none _ hadds.symm

end Cali.Nsjail
