import Cali.Lib.AppendNew
import Cali.Lib.Cut
import Cali.Linker.Config

/-!
# The mounts of a jail

The mount calls of `libnsjail/api.cc`, the list `conf->mountpts` they fill, and the calls that
`CommunicationPair::setNsjailConfig` emits for a permission configuration.

A path that is mounted already is left alone, so the order of the calls decides between the
lists: read-only wins over writable.  `setNsjailConfig` looks each function up in the compiled
snippet, which has prototypes for five of them only; for any other function, among them the one
that mounts a `tmpfs`, the linker calls a null pointer.  The listed paths are mounted as listed
exactly if no setting needs such a function.  `nsjail_addMountSimple` moreover takes the
destination of a `tmpfs` from the global `optarg` of `getopt` and not from its argument.
-/

namespace Cali.Nsjail

open Cali.Lib Cali.Linker

/-! ## Mount entries -/

/-- `MS_RDONLY` -/
def msRdonly : ℕ := 1

/-- `MS_BIND` -/
def msBind : ℕ := 4096

/-- `MS_REC` -/
def msRec : ℕ := 16384

/-- `MS_PRIVATE` -/
def msPrivate : ℕ := 262144

/-- `isDir_t` -/
inductive IsDir where
  | no | yes | maybe
deriving DecidableEq, Repr

/-- `mount_t` -/
structure Mount where
  src : Str
  srcContent : Str
  dst : Str
  fsType : Str
  options : Str
  flags : ℕ
  isDir : Bool
  isSymlink : Bool
  isMandatory : Bool
  mounted : Bool
deriving DecidableEq, Repr

/-- What the mount calls read of their process: the C library and the file system behind it,
the arguments of the program, and the global `optarg` of `getopt`.  A path that `realpath`
returns is never empty. -/
structure Env where
  getenv : Str → Option Str
  getcwd : Option Str
  realpath : Str → Option {path : Str // path ≠ []}
  dirname : Str → Str
  isDir : Str → Bool
  argv : List Str
  optarg : Option Str

variable (env : Env)

/-- The text that `addMountPt` puts in front of a path. -/
def envText (var : Str) : Option Str := if var = [] then some [] else env.getenv var

/-- `addMountPt` -/
def addMountPt (src dst fstype options : Str) (flags : ℕ) (isDir : IsDir) (isMandatory : Bool)
    (srcEnv dstEnv srcContent : Str) (isSymlink : Bool) : Option Mount := do
  let src := (← envText env srcEnv) ++ src
  let dst := (← envText env dstEnv) ++ dst
  return { src, dst, options, flags, isSymlink, isMandatory, srcContent
           fsType := fstype
           mounted := false
           isDir := match isDir with
             | .yes => true
             | .no => false
             | .maybe =>
               if srcContent ≠ [] then false
               else if src = [] then true
               else if flags &&& msBind ≠ 0 then env.isDir src
               else true }

/-- `addMountPtTail`; without an entry to add the list stays as it is. -/
def addMountPtTail (mountpts : List Mount) (src dst fstype options : Str) (flags : ℕ)
    (isDir : IsDir) (isMandatory : Bool) (srcEnv dstEnv srcContent : Str) (isSymlink : Bool) :
    List Mount :=
  match addMountPt env src dst fstype options flags isDir isMandatory srcEnv dstEnv srcContent
    isSymlink with
  | some mnt => mountpts ++ [mnt]
  | none => mountpts

/-! ## The mount calls

A call that builds a string from a null pointer ends the process; its result is `none`. -/

/-- `nsjail_addMountSimple` -/
def addMountSimple (mountpts : List Mount) (path : Str) (flags : ℕ) (fsType : Str) :
    Option (List Mount) :=
  if path = [] then some mountpts
  else if mountpts.any (·.dst == path) then some mountpts
  else if fsType = "tmpfs".toList then
    -- the destination is the global `optarg`, whatever the path
    env.optarg.map fun optarg ↦
      addMountPtTail env mountpts [] optarg "tmpfs".toList "size=4194304".toList 0 .yes true
        [] [] [] false
  else
    some (addMountPtTail env mountpts path path [] [] flags .maybe true [] [] [] false)

/-- `strchr`: the text before the first `c` and the text behind it -/
def strchr (s : Str) (c : Char) : Option (Str × Str) := cut c s

/-- `splitParameter` -/
def splitParameter (s : Str) : Str :=
  match strchr s '=' with
  | some (_, behind) => behind
  | none => s

/-- `folder` -/
def folder (s : Str) : Option {path : Str // path ≠ []} := env.realpath (env.dirname s)

/-- The splitter of one argument: `mount` is called with each part in front of a comma and
with what is left.  Each round takes a comma away, so the length of the text is fuel enough. -/
def forParts (mount : List Mount → Str → Option (List Mount)) :
    ℕ → List Mount → Str → Option (List Mount)
  | 0, _, _ => none
  | fuel + 1, mountpts, pos =>
    match strchr pos ',' with
    | some (part, rest) => (mount mountpts part).bind (forParts mount fuel · rest)
    | none => mount mountpts pos

/-- The loop over the arguments behind the program name. -/
def forArguments (mount : List Mount → Str → Option (List Mount)) (mountpts : List Mount) :
    Option (List Mount) :=
  (env.argv.drop 1).foldlM (fun mountpts arg ↦ forParts mount (arg.length + 1) mountpts arg)
    mountpts

/-- The body of the splitter for `$ARGV` -/
def mountPart (flags : ℕ) (fsType : Str) (mountpts : List Mount) (part : Str) :
    Option (List Mount) :=
  let pos := splitParameter part
  if pos.head? ≠ some '-' then
    match env.realpath pos with
    | some finalPath => addMountSimple env mountpts finalPath flags fsType
    | none => some mountpts
  else some mountpts

/-- The body of the splitter for `$ARGV_FOLDERS`; here the null pointer of an unresolvable
folder is not tested. -/
def mountFolder (flags : ℕ) (fsType : Str) (mountpts : List Mount) (part : Str) :
    Option (List Mount) :=
  let pos := splitParameter part
  if pos.head? ≠ some '-' then
    match folder env pos with
    | some path => addMountSimple env mountpts path flags fsType
    | none => none
  else some mountpts

/-- The folders that are mounted for `/` -/
def rootFolders : List Str :=
  ["/bin", "/dev", "/etc", "/home", "/lib", "/lib64", "/opt", "/run", "/srv", "/usr",
    "/var"].map String.toList

/-- `nsjail_addMount` -/
def addMount (mountpts : List Mount) (path : Str) (flags : ℕ) (fsType : Str) :
    Option (List Mount) :=
  if path.head? = some '$' then
    if path = "$ARGV".toList then forArguments env (mountPart env flags fsType) mountpts
    else if path = "$ARGV_FOLDERS".toList then
      forArguments env (mountFolder env flags fsType) mountpts
    else if startsWith path "$HOME".toList then
      (env.getenv "HOME".toList).bind fun home ↦
        addMountSimple env mountpts (home ++ path.drop 5) flags fsType
    else if startsWith path "$CWD".toList then
      env.getcwd.bind fun cwd ↦ addMountSimple env mountpts (cwd ++ path.drop 4) flags fsType
    else some mountpts
  else if path = ['/'] then
    rootFolders.foldlM (fun mountpts path ↦ addMountSimple env mountpts path flags fsType)
      mountpts
  else addMountSimple env mountpts path flags fsType

/-- The two kinds of bind mounts -/
inductive Bind where
  | readonly | readwrite
deriving DecidableEq, Repr

def Bind.flags : Bind → ℕ
  | .readonly => msBind ||| msRec ||| msPrivate ||| msRdonly
  | .readwrite => msBind ||| msRec ||| msPrivate

/-- `nsjail_addMountRO` -/
def addMountRO (mountpts : List Mount) (path : Str) : Option (List Mount) :=
  addMount env mountpts path (Bind.flags .readonly) []

/-- `nsjail_addMountRW` -/
def addMountRW (mountpts : List Mount) (path : Str) : Option (List Mount) :=
  addMount env mountpts path (Bind.flags .readwrite) []

/-- `nsjail_addMountTmp` -/
def addMountTmp (mountpts : List Mount) (path : Str) : Option (List Mount) :=
  addMount env mountpts path 0 "tmpfs".toList

/-! ## The emitted calls -/

/-- `RlimitConfig` -/
@[ext]
structure RlimitConfig where
  as : Str := []
  core : Str := []
  cpu : Str := []
  fsize : Str := []
  nofile : Str := []
  nproc : Str := []
  stack : Str := []
deriving DecidableEq, Repr

/-- `PermissionConfig` -/
structure PermissionConfig where
  readonly : List Str := []
  readwrite : List Str := []
  tmpfs : List Str := []
  user : Str := []
  group : Str := []
  network : Str := []
  seccomp : Str := []
  capabilities : List Str := []
  maxCpus : Int := 0
  silent : Bool := false
  rlimit : RlimitConfig := {}
  cgroupMemMax : Int := 0
  cgroupPidsMax : Int := 0
  cgroupCpuMsPerSec : Int := 0
deriving DecidableEq, Repr

/-- A call in the body of `nsjail_configure`; of a call that does not touch the mounts only the
function is kept. -/
inductive Call where
  | addMountRO (path : Str)
  | addMountRW (path : Str)
  | addMountTmp (path : Str)
  | other (function : String)
deriving DecidableEq, Repr

def Call.function : Call → String
  | .addMountRO _ => "nsjail_addMountRO"
  | .addMountRW _ => "nsjail_addMountRW"
  | .addMountTmp _ => "nsjail_addMountTmp"
  | .other function => function

/-- The functions with a prototype in the module, those that
`__unused_stuff_for_nsjail_configure` names -/
def prototypes : List String :=
  ["nsjail_addMountRO", "nsjail_addMountRW", "nsjail_setUID", "nsjail_setGID",
    "nsjail_setNetwork"]

/-- `CreateCall` for what `getFunction` finds; the null pointer it gives for a function without
prototype ends the linker. -/
def createCall (call : Call) : Option Call :=
  if call.function ∈ prototypes then some call else none

/-- The call of a function for a setting that is used. -/
def callIf (used : Prop) [Decidable used] (function : String) : List Call :=
  if used then [.other function] else []

/-- The calls that `setNsjailConfig` creates behind the mount calls. -/
def otherCalls (permissions : PermissionConfig) : List Call :=
  callIf (permissions.user ≠ []) "nsjail_setUID" ++
  callIf (permissions.group ≠ []) "nsjail_setGID" ++
  callIf (permissions.network ≠ []) "nsjail_setNetwork" ++
  callIf (permissions.seccomp ≠ []) "nsjail_setSeccomp" ++
  permissions.capabilities.map (fun _ ↦ .other "nsjail_addCapability") ++
  callIf (permissions.maxCpus > 0) "nsjail_setMaxCPU" ++
  callIf (permissions.silent = true) "nsjail_setSilent" ++
  callIf (permissions.rlimit.as ≠ []) "nsjail_set_rlimit_as" ++
  callIf (permissions.rlimit.core ≠ []) "nsjail_set_rlimit_core" ++
  callIf (permissions.rlimit.cpu ≠ []) "nsjail_set_rlimit_cpu" ++
  callIf (permissions.rlimit.fsize ≠ []) "nsjail_set_rlimit_fsize" ++
  callIf (permissions.rlimit.nofile ≠ []) "nsjail_set_rlimit_nofile" ++
  callIf (permissions.rlimit.nproc ≠ []) "nsjail_set_rlimit_nproc" ++
  callIf (permissions.rlimit.stack ≠ []) "nsjail_set_rlimit_stack" ++
  callIf (permissions.cgroupMemMax > 0) "nsjail_set_cgroup_mem_max" ++
  callIf (permissions.cgroupPidsMax > 0) "nsjail_set_cgroup_pids_max" ++
  callIf (permissions.cgroupCpuMsPerSec > 0) "nsjail_set_cgroup_cpu_ms_per_sec"

/-- The mount calls that `setNsjailConfig` creates. -/
def mountCalls (permissions : PermissionConfig) : List Call :=
  permissions.readonly.map .addMountRO ++ permissions.readwrite.map .addMountRW ++
    permissions.tmpfs.map .addMountTmp

/-- `setNsjailConfig` -/
def setNsjailConfig (permissions : PermissionConfig) : Option (List Call) :=
  (mountCalls permissions ++ otherCalls permissions).mapM createCall

def Call.exec (mountpts : List Mount) : Call → Option (List Mount)
  | .addMountRO path => Nsjail.addMountRO env mountpts path
  | .addMountRW path => Nsjail.addMountRW env mountpts path
  | .addMountTmp path => Nsjail.addMountTmp env mountpts path
  | .other _ => some mountpts

/-- `nsjail_configure` with the calls that were emitted, as far as the mounts are concerned -/
def nsjailConfigure (calls : List Call) (mountpts : List Mount) : Option (List Mount) :=
  calls.foldlM (Call.exec env) mountpts

/-! ## What the calls add -/

/-- The bind mount of a path at itself -/
def bindMount (kind : Bind) (path : Str) : Mount where
  src := path
  srcContent := []
  dst := path
  fsType := []
  options := []
  flags := kind.flags
  isDir := env.isDir path
  isSymlink := false
  isMandatory := true
  mounted := false

/-- The mount of an empty file system at a path -/
def tmpMount (path : Str) : Mount where
  src := []
  srcContent := []
  dst := path
  fsType := "tmpfs".toList
  options := "size=4194304".toList
  flags := 0
  isDir := true
  isSymlink := false
  isMandatory := true
  mounted := false

@[simp] theorem bindMount_dst (kind : Bind) (path : Str) : (bindMount env kind path).dst = path :=
  rfl

@[simp] theorem tmpMount_dst (path : Str) : (tmpMount path).dst = path := rfl

variable {env} {mountpts : List Mount} {path : Str}

theorem any_dst_iff : mountpts.any (·.dst == path) = true ↔ path ∈ mountpts.map Mount.dst := by
  simp [List.any_eq_true]

theorem addMountSimple_bind (hpath : path ≠ []) (kind : Bind) :
    addMountSimple env mountpts path kind.flags [] =
      some (appendNew Mount.dst (bindMount env kind) mountpts path) := by
  have hflag : kind.flags &&& msBind ≠ 0 := by cases kind <;> decide
  have hpt : addMountPtTail env mountpts path path [] [] kind.flags .maybe true [] [] [] false =
      mountpts ++ [bindMount env kind path] := by
    simp [addMountPtTail, addMountPt, envText, bindMount, hpath, hflag]
  unfold addMountSimple
  rw [if_neg hpath]
  by_cases hmem : path ∈ mountpts.map Mount.dst
  · rw [if_pos (any_dst_iff.mpr hmem), appendNew_of_mem hmem]
  · rw [if_neg (mt any_dst_iff.mp hmem), if_neg (by decide), hpt, appendNew_of_notMem hmem]

/-! ## Listed paths -/

/-- A path that `nsjail_addMount` hands on as it is -/
structure Absolute (path : Str) : Prop where
  head : path.head? = some '/'
  ne_root : path ≠ ['/']

instance : Decidable (Absolute path) :=
  decidable_of_iff (path.head? = some '/' ∧ path ≠ ['/']) ⟨fun h ↦ ⟨h.1, h.2⟩, fun h ↦ ⟨h.1, h.2⟩⟩

theorem Absolute.ne_nil (h : Absolute path) : path ≠ [] := by
  rintro rfl
  exact absurd h.head (by decide)

theorem Absolute.addMount_eq (h : Absolute path) (flags : ℕ) (fsType : Str) :
    addMount env mountpts path flags fsType = addMountSimple env mountpts path flags fsType := by
  have hdollar : path.head? ≠ some '$' := by rw [h.head]; decide
  unfold addMount
  rw [if_neg hdollar, if_neg h.ne_root]

theorem foldlM_bind {paths : List Str} (habs : ∀ path ∈ paths, Absolute path) (kind : Bind)
    (mountpts : List Mount) :
    paths.foldlM (fun mountpts path ↦ addMount env mountpts path kind.flags []) mountpts =
      some (paths.foldl (appendNew Mount.dst (bindMount env kind)) mountpts) := by
  have hstep : ∀ path ∈ paths, ∀ l, addMount env l path kind.flags [] =
      some ((some path).elim l (appendNew Mount.dst (bindMount env kind) l)) := by
    intro path hpath l
    rw [(habs path hpath).addMount_eq, addMountSimple_bind (habs path hpath).ne_nil]
    rfl
  rw [foldlM_eq_foldl_appendNew hstep, List.filterMap_some]

/-! ## The permission lists -/

namespace PermissionConfig

variable (env) (permissions : PermissionConfig)

/-- All listed paths -/
def paths : List Str := permissions.readonly ++ permissions.readwrite ++ permissions.tmpfs

/-- The mount that a listed path asks for: of the lists it is in, the first one decides. -/
def mountOf (path : Str) : Mount :=
  if path ∈ permissions.readonly then bindMount env .readonly path
  else if path ∈ permissions.readwrite then bindMount env .readwrite path
  else tmpMount path

/-- No setting is used whose function has no prototype. -/
@[mk_iff]
structure Prototyped : Prop where
  tmpfs : permissions.tmpfs = []
  seccomp : permissions.seccomp = []
  capabilities : permissions.capabilities = []
  maxCpus : permissions.maxCpus ≤ 0
  silent : permissions.silent = false
  rlimit : permissions.rlimit = {}
  cgroupMemMax : permissions.cgroupMemMax ≤ 0
  cgroupPidsMax : permissions.cgroupPidsMax ≤ 0
  cgroupCpuMsPerSec : permissions.cgroupCpuMsPerSec ≤ 0

/-- The calls are emitted and return, each listed path is then the destination of one entry,
the one it asks for, and each entry they append is at a listed path. -/
def MountedAsListed (mountpts : List Mount) : Prop :=
  ∃ calls added, setNsjailConfig permissions = some calls ∧
    nsjailConfigure env calls mountpts = some (mountpts ++ added) ∧
    (∀ path ∈ permissions.paths, (mountpts ++ added).filter (Mount.dst · = path) =
      [permissions.mountOf env path]) ∧
    ∀ mnt ∈ added, mnt.dst ∈ permissions.paths

variable {env} {permissions}

/-- The linker gets through exactly if each function it looks up has a prototype. -/
theorem mapM_createCall {calls calls' : List Call} :
    calls.mapM createCall = some calls' ↔
      calls' = calls ∧ ∀ call ∈ calls, call.function ∈ prototypes := by
  induction calls generalizing calls' with
  | nil => simp [eq_comm]
  | cons call calls ih =>
    rw [List.mapM_cons]
    by_cases hcall : call.function ∈ prototypes
    · have hcreate : createCall call = some call := if_pos hcall
      simp only [hcreate, Option.pure_def, Option.bind_eq_bind, Option.bind_some,
        Option.bind_eq_some_iff, ih, Option.some.injEq, List.forall_mem_cons]
      constructor
      · rintro ⟨_, ⟨rfl, h⟩, rfl⟩
        exact ⟨rfl, hcall, h⟩
      · rintro ⟨rfl, -, h⟩
        exact ⟨calls, ⟨rfl, h⟩, rfl⟩
    · have hcreate : createCall call = none := if_neg hcall
      simp [hcreate, hcall]

theorem forall_callIf {used : Prop} [Decidable used] {function : String} {p : Call → Prop} :
    (∀ call ∈ callIf used function, p call) ↔ (used → p (.other function)) := by
  by_cases hused : used <;> simp [callIf, hused]

theorem forall_calls :
    (∀ call ∈ mountCalls permissions ++ otherCalls permissions, call.function ∈ prototypes) ↔
      permissions.Prototyped := by
  unfold mountCalls otherCalls
  simp only [List.forall_mem_append, forall_callIf, List.forall_mem_map]
  simp [Call.function, prototypes, prototyped_iff, RlimitConfig.ext_iff, and_assoc,
    List.eq_nil_iff_forall_not_mem]

variable (habs : ∀ path ∈ permissions.paths, Absolute path)
  (hnew : ∀ path ∈ permissions.paths, path ∉ mountpts.map Mount.dst)

theorem exec_otherCalls :
    ∀ call ∈ otherCalls permissions, ∀ mountpts, call.exec env mountpts = some mountpts := by
  unfold otherCalls
  simp only [List.forall_mem_append, forall_callIf, List.forall_mem_map, Call.exec, implies_true,
    and_self]

/-- The entries after the calls for the two bind kinds -/
def bound (env : Env) (permissions : PermissionConfig) (mountpts : List Mount) : List Mount :=
  permissions.readwrite.foldl (appendNew Mount.dst (bindMount env .readwrite))
    (permissions.readonly.foldl (appendNew Mount.dst (bindMount env .readonly)) mountpts)

include habs in
theorem nsjailConfigure_eq (htmpfs : permissions.tmpfs = []) :
    nsjailConfigure env (mountCalls permissions ++ otherCalls permissions) mountpts =
      some (permissions.bound env mountpts) := by
  have hro := @foldlM_bind env permissions.readonly
    (fun path h ↦ habs path (by simp [paths, h])) .readonly mountpts
  have hrw := @foldlM_bind env permissions.readwrite
    (fun path h ↦ habs path (by simp [paths, h])) .readwrite
    (permissions.readonly.foldl (appendNew Mount.dst (bindMount env .readonly)) mountpts)
  have hmounts : (mountCalls permissions).foldlM (Call.exec env) mountpts =
      some (permissions.bound env mountpts) := by
    unfold mountCalls
    simp only [htmpfs, List.map_nil, List.append_nil, List.foldlM_append, List.foldlM_map,
      Call.exec]
    unfold addMountRO addMountRW
    rw [hro, Option.bind_eq_bind, Option.bind_some, hrw]
    rfl
  unfold nsjailConfigure
  rw [List.foldlM_append, hmounts, Option.bind_eq_bind, Option.bind_some,
    foldlM_eq_self exec_otherCalls]

include hnew in
theorem filter_bound (htmpfs : permissions.tmpfs = []) (hpath : path ∈ permissions.paths) :
    (permissions.bound env mountpts).filter (Mount.dst · = path) =
      [permissions.mountOf env path] := by
  have hnone : mountpts.filter (Mount.dst · = path) = [] :=
    not_not.mp (mt mem_keys_iff_filter_ne_nil.mpr (hnew path hpath))
  unfold bound mountOf
  rw [filter_foldl_appendNew (bindMount_dst env .readwrite)]
  simp only [mem_keys_iff_filter_ne_nil, filter_foldl_appendNew (bindMount_dst env .readonly),
    hnone]
  by_cases hro : path ∈ permissions.readonly
  · simp [hro]
  · have hrw : path ∈ permissions.readwrite := by simpa [paths, hro, htmpfs] using hpath
    simp [hro, hrw]

theorem exists_bound (env : Env) (permissions : PermissionConfig) (mountpts : List Mount) :
    ∃ added, permissions.bound env mountpts = mountpts ++ added ∧
      ∀ mnt ∈ added, mnt.dst ∈ permissions.paths := by
  obtain ⟨added₁, h₁, hmem₁⟩ :=
    exists_foldl_appendNew (bindMount_dst env .readonly) permissions.readonly mountpts
  obtain ⟨added₂, h₂, hmem₂⟩ :=
    exists_foldl_appendNew (bindMount_dst env .readwrite) permissions.readwrite (mountpts ++ added₁)
  refine ⟨added₁ ++ added₂, ?_, fun mnt hmnt ↦ ?_⟩
  · unfold bound
    rw [h₁, h₂, List.append_assoc]
  · simp only [paths, List.mem_append] at hmnt ⊢
    exact .inl (hmnt.imp (hmem₁ mnt) (hmem₂ mnt))

end PermissionConfig

end Cali.Nsjail
