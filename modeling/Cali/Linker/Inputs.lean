import Cali.Linker.Collect
import Cali.Linker.Loading

/-!
# The inputs of the real linker

The arguments that a rewritten context uses are replaced by the arguments of its new files
at the place of the first one.  The new files are the bitcode that has been linked and the
archives that had other members too.  Every other binary file of a rewritten context is
left out: its argument is gone, and a `BinaryIpcModule` names its own file only when it is
a mixed archive.
-/

namespace Cali.Linker

variable {env : Env}

/-! ## The argument list -/

section ArgumentList

variable {libraries : List LibraryContext} {argumentUsage : ℕ → Option Str}

/-- The name of the rewritten context that uses an argument. -/
def rewrittenNameAt (libraries : List LibraryContext) (argumentUsage : ℕ → Option Str) (i : ℕ) :
    Option Str :=
  (rewrittenAt libraries argumentUsage i).map (·.config.name)

/-- What stands in the new list for an argument: the argument itself, unless a rewritten
context uses it; the new arguments of the context, if it is the first one; or nothing. -/
def piece (libraries : List LibraryContext) (argumentUsage : ℕ → Option Str) (arg : Str × ℕ) :
    List Str :=
  match rewrittenAt libraries argumentUsage arg.2 with
  | none => [arg.1]
  | some lib =>
    if ∃ j < arg.2, rewrittenNameAt libraries argumentUsage j = some lib.config.name then []
    else lib.rewrittenArgs

/-- **The loop** puts the pieces together; what has been processed are the contexts of the
arguments before. -/
theorem argumentListLoop_eq {processed args : List Str} {i : ℕ}
    (hprocessed : ∀ name, name ∈ processed ↔
      ∃ j < i, rewrittenNameAt libraries argumentUsage j = some name) :
    argumentListLoop libraries argumentUsage processed i args =
      (args.zipIdx i).flatMap (piece libraries argumentUsage) := by
  induction args generalizing processed i with
  | nil => rfl
  | cons arg args ih =>
    have hnext : ∀ name, (∃ j < i + 1, rewrittenNameAt libraries argumentUsage j = some name) ↔
        name ∈ processed ∨ rewrittenNameAt libraries argumentUsage i = some name := by
      intro name
      rw [hprocessed]
      simp only [Nat.lt_succ_iff_lt_or_eq, or_and_right, exists_or, exists_eq_left]
    rw [List.zipIdx_cons, List.flatMap_cons, argumentListLoop, piece]
    cases hat : rewrittenAt libraries argumentUsage i with
    | none =>
      have hname : rewrittenNameAt libraries argumentUsage i = none := by
        rw [rewrittenNameAt, hat, Option.map_none]
      refine congrArg (arg :: ·) (ih fun name ↦ ?_)
      rw [hnext, hname]
      simp
    | some lib =>
      have hname : rewrittenNameAt libraries argumentUsage i = some lib.config.name := by
        rw [rewrittenNameAt, hat, Option.map_some]
      simp only [← hprocessed]
      by_cases hmem : lib.config.name ∈ processed
      · simp only [hmem, ↓reduceIte, List.nil_append]
        refine ih fun name ↦ ?_
        rw [hnext, hname]
        refine ⟨Or.inl, fun h ↦ h.elim id fun h ↦ ?_⟩
        obtain rfl := Option.some.inj h
        exact hmem
      · simp only [hmem, ↓reduceIte]
        refine congrArg (lib.rewrittenArgs ++ ·) (ih fun name ↦ ?_)
        rw [hnext, hname, List.mem_cons, or_comm, Option.some.injEq, eq_comm]

theorem buildLinkerArgumentList_eq (args : List Str) :
    buildLinkerArgumentList libraries argumentUsage args =
      args.zipIdx.flatMap (piece libraries argumentUsage) :=
  argumentListLoop_eq (by simp)

end ArgumentList

/-! ## The files of a context -/

/-- The modules that have been linked into the saved module. -/
def Part.linked : Part → List LinkedModule
  | llvm _ linked => linked
  | binary _ => []

def IpcModule.linked (m : IpcModule) : List LinkedModule := m.parts.flatMap Part.linked

/-- All that the file has is bitcode, and all of it has been linked. -/
def Contributed (linked : List LinkedModule) (p : Str) : Content → Prop
  | .blob (.bitcode m) => ⟨p, none, m⟩ ∈ linked
  | .archive members =>
    ∀ member ∈ members, ∃ m, member.2 = .bitcode m ∧ ⟨p, some member.1, m⟩ ∈ linked
  | _ => False

/-- The member has bitcode, and its name is one of those that are looked at. -/
def isBitcodeMember (member : Str × Blob) : Bool :=
  match member.2 with
  | .bitcode _ => Loading.isObjectName member.1
  | _ => false

/-- The files that are not lost: bitcode, and archives of which a member that is looked at is
an ELF object or of which all members are bitcode. -/
def Keepable (p : Str) : Content → Prop
  | .blob (.bitcode _) => endsWith p bc = true ∨ endsWith p ll = true ∨ endsWith p o = true
  | .archive members => members = [] ∨
      endsWith p a = true ∧ (members.any isElfMember = true ∨ members.all isBitcodeMember = true)
  | _ => False

section Files

variable {p x source : Str} {ct : Content} {members : List (Str × Blob)} {s : Loading}

theorem mem_filterMap_memberLinked {member : Str × Blob} {m : Bitcode} (hmember : member ∈ members)
    (hm : member.2 = .bitcode m) :
    ⟨p, some member.1, m⟩ ∈ members.filterMap (memberLinked p) ↔
      Loading.isObjectName member.1 = true := by
  rw [List.mem_filterMap]
  constructor
  · rintro ⟨member', -, h⟩
    unfold memberLinked at h
    split at h
    next =>
      split at h
      next hname =>
        have heq := congrArg LinkedModule.member (Option.some.inj h)
        rw [← Option.some.inj heq]
        exact hname
      next => cases h
    next => cases h
  · intro hname
    exact ⟨member, hmember, by simp [memberLinked, hm, hname]⟩

theorem contributed_archive (ha : endsWith p a = true) :
    Contributed (linkedOf p (.archive members)) p (.archive members) ↔
      members.all isBitcodeMember = true := by
  have hso : endsWith p so = false := endsWith_exclusive ha (by decide) (by decide)
  simp only [Contributed, linkedOf, hso, ha, Bool.false_eq_true, ↓reduceIte, List.all_eq_true]
  refine forall₂_congr fun member hmember ↦ ?_
  unfold isBitcodeMember
  cases hblob : member.2 with
  | bitcode m =>
    simp only [Blob.bitcode.injEq, exists_eq_left']
    exact mem_filterMap_memberLinked hmember hblob
  | elf => simp
  | other => simp

theorem contributed_archive_of_not (ha : endsWith p a = false) :
    Contributed (linkedOf p (.archive members)) p (.archive members) ↔ members = [] := by
  have hlinked : linkedOf p (.archive members) = [] := by
    simp [linkedOf, ha]
  rw [hlinked]
  cases members with
  | nil => simp [Contributed]
  | cons member members =>
    refine iff_of_false (fun h ↦ ?_) (List.cons_ne_nil _ _)
    obtain ⟨m, -, hm⟩ := h member List.mem_cons_self
    cases hm

theorem contributed_bitcode {m : Bitcode} :
    Contributed (linkedOf p (.blob (.bitcode m))) p (.blob (.bitcode m)) ↔
      endsWith p bc = true ∨ endsWith p ll = true ∨ endsWith p o = true := by
  cases hso : endsWith p so with
  | true =>
    have hbc : endsWith p bc = false := endsWith_exclusive hso (by decide) (by decide)
    have hll : endsWith p ll = false := endsWith_exclusive hso (by decide) (by decide)
    have ho : endsWith p o = false := endsWith_exclusive hso (by decide) (by decide)
    simp [Contributed, linkedOf, hso, hbc, hll, ho]
  | false =>
    simp [Contributed, linkedOf, hso, or_assoc]

theorem binaryKind_archive :
    binaryKind p (.archive members) = some true ↔
      endsWith p a = true ∧ members.any isElfMember = true := by
  cases hso : endsWith p so with
  | true =>
    have ha : endsWith p a = false := endsWith_exclusive hso (by decide) (by decide)
    simp [binaryKind, hso, ha]
  | false => simp [binaryKind, hso]

/-- **Keepable files** are those that are a mixed archive or that contribute all they have. -/
theorem keepable_iff :
    Keepable p ct ↔ binaryKind p ct = some true ∨ Contributed (linkedOf p ct) p ct := by
  have hblob : ∀ b, binaryKind p (.blob b) ≠ some true := by
    intro b
    unfold binaryKind
    cases b <;> repeat' split
    all_goals simp_all
  cases ct with
  | blob b =>
    cases b with
    | bitcode m =>
      rw [contributed_bitcode]
      exact (or_iff_right (hblob _)).symm
    | elf => exact iff_of_false id fun h ↦ h.elim (hblob _) id
    | other => exact iff_of_false id fun h ↦ h.elim (hblob _) id
  | archive members =>
    rw [binaryKind_archive]
    cases ha : endsWith p a with
    | true =>
      rw [contributed_archive ha]
      cases members with
      | nil => simp [Keepable]
      | cons member members => simp [Keepable, ha]
    | false =>
      rw [contributed_archive_of_not ha]
      simp [Keepable, ha]
  | text lines =>
    refine iff_of_false id fun h ↦ h.elim (fun h ↦ ?_) id
    unfold binaryKind at h
    split at h <;> simp at h

theorem file_of_mem_linkedOf {m : LinkedModule} (h : m ∈ linkedOf p ct) : m.file = p := by
  unfold linkedOf at h
  split at h
  · cases h
  split at h
  · split at h
    · rw [List.mem_singleton.mp h]
    · cases h
  · split at h
    · obtain ⟨member, -, hm⟩ := List.mem_filterMap.mp h
      unfold memberLinked at hm
      split at hm
      · split at hm
        · rw [← Option.some.inj hm]
        · cases hm
      · cases hm
    · cases h
  · cases h

/-- A file contributes to the module of its context what it contributes alone. -/
theorem contributed_congr {files : List Str} {linked : List LinkedModule}
    (hp : Available env files p ct) (hlinked : ∀ m, m ∈ linked ↔ LinkedFrom env files m) :
    Contributed linked p ct ↔ Contributed (linkedOf p ct) p ct := by
  have hmem : ∀ member m, ⟨p, member, m⟩ ∈ linked ↔ ⟨p, member, m⟩ ∈ linkedOf p ct := by
    intro member m
    rw [hlinked]
    constructor
    · rintro ⟨p', ct', hp', hm⟩
      obtain rfl : p = p' := file_of_mem_linkedOf hm
      rwa [Option.some.inj (hp.1.symm.trans hp'.1)]
    · intro hm
      exact ⟨p, ct, hp, hm⟩
  unfold Contributed
  split
  · exact hmem none _
  · simp only [hmem]
  · exact Iff.rfl

theorem mem_linked_buildComposite {m : LinkedModule} :
    m ∈ (buildComposite source s).linked ↔ m ∈ s.linked := by
  simp only [IpcModule.linked, List.mem_flatMap, mem_parts_buildComposite]
  constructor
  · rintro ⟨_, ⟨-, rfl⟩ | ⟨b, -, rfl⟩, hm⟩
    · exact hm
    · cases hm
  · intro hm
    exact ⟨_, Or.inl ⟨List.ne_nil_of_mem hm, rfl⟩, hm⟩

theorem mem_rewrittenFilename_buildComposite (hne : s.linked ≠ []) :
    x ∈ (buildComposite source s).rewrittenFilename ↔
      x ∈ (Part.llvm source []).rewrittenFilename ∨
        ∃ b ∈ s.binaryModules, b.isMixedArchive = true ∧ b.source = x := by
  simp only [IpcModule.rewrittenFilename, List.mem_flatMap, mem_parts_buildComposite,
    or_and_right, exists_or]
  refine or_congr ⟨?_, ?_⟩ ⟨?_, ?_⟩
  · rintro ⟨_, ⟨-, rfl⟩, hx⟩
    exact hx
  · intro hx
    exact ⟨_, ⟨hne, rfl⟩, hx⟩
  · rintro ⟨_, ⟨b, hb, rfl⟩, hx⟩
    refine ⟨b, hb, ?_⟩
    cases hmixed : b.isMixedArchive with
    | true => exact ⟨rfl, by simpa [Part.rewrittenFilename, hmixed, eq_comm] using hx⟩
    | false => simp [Part.rewrittenFilename, hmixed] at hx
  · rintro ⟨b, hb, hmixed, rfl⟩
    exact ⟨_, ⟨b, hb, rfl⟩, by simp [Part.rewrittenFilename, hmixed]⟩

end Files

/-! ## Kept inputs -/

/-- The file at the path is named by the new arguments of its context, or its bitcode is part
of the saved module. -/
def Kept (env : Env) (rewrittenArgs : List Str) (linked : List LinkedModule) (p : Str)
    (ct : Content) : Prop :=
  (∃ arg ∈ rewrittenArgs, env.absolute arg = p) ∨ Contributed linked p ct

/-- **No input is lost.** -/
structure KeepsInputs (env : Env) (arguments : List Str) (argumentUsage : ℕ → Option Str)
    (p : Prepared) : Prop where
  list : buildLinkerArgumentList (p.libraries env) argumentUsage arguments =
    arguments.zipIdx.flatMap (piece (p.libraries env) argumentUsage)
  placed : ∀ m ∈ p.modules, m.2.canRewrite = true → ∃ i < arguments.length,
    rewrittenAt (p.libraries env) argumentUsage i = some (setOutputFiles env m)
  kept : ∀ m ∈ p.modules, m.2.canRewrite = true → ∀ f ∈ m.1.files, ∀ ct,
    env.content (env.absolute f) = some ct →
      Kept env (setOutputFiles env m).rewrittenArgs m.2.linked (env.absolute f) ct

/-- The arguments that a rewritten context gets whatever its files are: those of the main
module, and the name of the saved bitcode. -/
def ownArgs (env : Env) (l : LinkerArguments) (lib : LibraryContext) (k : ℕ) : List Str :=
  mainArgs env lib ++ (Part.llvm (moduleIdentifier env (outputName l) k) []).rewrittenFilename

/-- Every context with bitcode has an argument of its own, and its files are keepable or
named by its own arguments. -/
def InputsSafe (env : Env) (l : LinkerArguments) (arguments : List Str) (s : Libraries) : Prop :=
  ∀ k lib, s.libraries[k]? = some lib → (∃ m, LinkedFrom env lib.files m) →
    (∃ i < arguments.length, s.argumentUsage i = some lib.config.name) ∧
    ∀ f ∈ lib.files, ∀ ct, env.content (env.absolute f) = some ct →
      Keepable (env.absolute f) ct ∨ ∃ arg ∈ ownArgs env l lib k, env.absolute arg = env.absolute f

section Contexts

variable {l : LinkerArguments} {lib : LibraryContext} {m : IpcModule} {k : ℕ} {f : Str}
  {ct : Content} {p : Prepared}

/-- **One file** of a rewritten context. -/
theorem kept_iff (h : newIpcModulesFromFiles env (outputName l) k lib.files = some m)
    (hfresh : lib.rewrittenArgs = []) (hrewrite : m.canRewrite = true) (hf : f ∈ lib.files)
    (hct : env.content (env.absolute f) = some ct) :
    Kept env (setOutputFiles env (lib, m)).rewrittenArgs m.linked (env.absolute f) ct ↔
      Keepable (env.absolute f) ct ∨
        ∃ arg ∈ ownArgs env l lib k, env.absolute arg = env.absolute f := by
  have havail : Available env lib.files (env.absolute f) ct := ⟨hct, f, hf, rfl⟩
  obtain ⟨s, hs, hm⟩ := exists_loaded h
  have hne : s.linked ≠ [] := by
    obtain ⟨m', hm'⟩ := (canRewrite_iff h).mp hrewrite
    exact List.ne_nil_of_mem (hs.linkedFrom.mpr hm')
  have hlinked : ∀ m', m' ∈ m.linked ↔ LinkedFrom env lib.files m' := by
    intro m'
    rw [hm, mem_linked_buildComposite, hs.linkedFrom]
  -- the mixed archives among the binary modules are named by their own names
  have hmixed : (∃ b ∈ s.binaryModules, b.isMixedArchive = true ∧
      env.absolute b.source = env.absolute f) ↔ binaryKind (env.absolute f) ct = some true := by
    have hb := hs.binary (env.absolute f) true
    simp only [and_comm (a := _ = env.absolute f)] at hb
    rw [hb]
    constructor
    · rintro ⟨ct', hct', hkind⟩
      rwa [Option.some.inj (hct.symm.trans hct'.1)]
    · intro hkind
      exact ⟨ct, havail, hkind⟩
  have hnamed : (∃ arg ∈ (setOutputFiles env (lib, m)).rewrittenArgs,
      env.absolute arg = env.absolute f) ↔
      (∃ arg ∈ ownArgs env l lib k, env.absolute arg = env.absolute f) ∨
        binaryKind (env.absolute f) ct = some true := by
    have hargs : (setOutputFiles env (lib, m)).rewrittenArgs =
        mainArgs env lib ++ m.rewrittenFilename := by
      simp [setOutputFiles, hrewrite, hfresh]
    rw [← hmixed, hargs, hm]
    simp only [ownArgs, List.mem_append, mem_rewrittenFilename_buildComposite hne, or_and_right,
      exists_or, or_assoc]
    refine or_congr_right (or_congr_right ⟨?_, ?_⟩)
    · rintro ⟨_, ⟨b, hb, hmix, rfl⟩, habs⟩
      exact ⟨b, hb, hmix, habs⟩
    · rintro ⟨b, hb, hmix, habs⟩
      exact ⟨_, ⟨b, hb, hmix, rfl⟩, habs⟩
  rw [Kept, hnamed, contributed_congr havail hlinked, keepable_iff,
    or_assoc]
  exact or_comm

theorem names_fresh_of_buildLibraries {n : ℕ} {arguments : List Str} {s : Libraries}
    (hs : buildLibraries env l n = some (arguments, s)) :
    (s.libraries.map (·.config.name)).Nodup ∧ ∀ lib ∈ s.libraries, lib.rewrittenArgs = [] := by
  obtain ⟨r, hr, heq⟩ := Option.map_eq_some_iff.mp hs
  obtain ⟨rfl, rfl⟩ := Prod.mk.inj heq
  obtain ⟨es, hes⟩ := exists_collect_buildLoop hr
  have hcollected := collected_collect es
  change r.2.libraries = collect es [] at hes
  rw [← hes] at hcollected
  refine ⟨?_, fun lib hlib ↦ ?_⟩
  · rw [map_markMain _ fun _ ↦ rfl]
    exact hcollected.names
  · have hargs := List.mem_map_of_mem (f := LibraryContext.rewrittenArgs) hlib
    rw [map_markMain _ fun _ ↦ rfl] at hargs
    obtain ⟨lib', hlib', heq⟩ := List.mem_map.mp hargs
    rw [← heq]
    exact (hcollected.fresh lib' hlib').2

theorem modules_of_prepareIpc {s : Libraries} (hp : prepareIpc env l s = some p) :
    p.modules.map Prod.fst = s.libraries ∧ ∀ k m, p.modules[k]? = some m →
      newIpcModulesFromFiles env (outputName l) k m.1.files = some m.2 := by
  obtain ⟨ms, hms, h⟩ := Option.bind_eq_some_iff.mp hp
  have hmodules := modules_of_getModules hms
  simp only [Nat.zero_add] at hmodules
  match ms, h, hmodules with
  | m₁ :: m₂ :: ms, h, hmodules =>
    obtain rfl := Option.some.inj h
    exact hmodules

theorem find?_name_of_nodup {libraries : List LibraryContext}
    (hnodup : (libraries.map (·.config.name)).Nodup) (hlib : lib ∈ libraries) :
    libraries.find? (·.config.name == lib.config.name) = some lib := by
  induction libraries with
  | nil => cases hlib
  | cons lib' libraries ih =>
    obtain ⟨hnew, hnodup⟩ := List.nodup_cons.mp hnodup
    rcases List.mem_cons.mp hlib with rfl | hlib
    · simp
    · have hne : lib'.config.name ≠ lib.config.name := fun heq ↦
        hnew (List.mem_map.mpr ⟨lib, hlib, heq.symm⟩)
      rw [List.find?_cons, beq_false_of_ne hne]
      exact ih hnodup hlib

theorem config_setOutputFiles (env : Env) (m : LibraryContext × IpcModule) :
    (setOutputFiles env m).config = m.1.config := by
  unfold setOutputFiles
  split <;> rfl

/-- **The place of a context**: one of the arguments that it uses. -/
theorem rewrittenAt_iff {argumentUsage : ℕ → Option Str} {i : ℕ} {m : LibraryContext × IpcModule}
    (hnodup : (p.modules.map (·.1.config.name)).Nodup) (hm : m ∈ p.modules)
    (hrewrite : m.2.canRewrite = true) :
    rewrittenAt (p.libraries env) argumentUsage i = some (setOutputFiles env m) ↔
      argumentUsage i = some m.1.config.name := by
  have hnames : ((p.libraries env).map (·.config.name)).Nodup := by
    rw [Prepared.libraries, List.map_map]
    simpa only [Function.comp_def, config_setOutputFiles] using hnodup
  have hmem : setOutputFiles env m ∈ p.libraries env := List.mem_map_of_mem hm
  have hrewritten : (setOutputFiles env m).isRewritten = true := by
    simp [setOutputFiles, hrewrite]
  unfold rewrittenAt
  constructor
  · intro h
    obtain ⟨hfind, -⟩ := Option.filter_eq_some_iff.mp h
    obtain ⟨name, hname, hfind⟩ := Option.bind_eq_some_iff.mp hfind
    have heq := List.find?_some hfind
    rw [hname, ← config_setOutputFiles env, eq_of_beq heq]
  · intro h
    have hfind := find?_name_of_nodup hnames hmem
    rw [config_setOutputFiles] at hfind
    rw [h, Option.bind_some, hfind]
    simp [Option.filter, hrewritten]

/-- **No input is lost** exactly when every context with bitcode is used by an argument and
all its files are keepable. -/
theorem keepsInputs_iff {n : ℕ} {arguments : List Str} {s : Libraries}
    (hs : buildLibraries env l n = some (arguments, s)) (hp : prepareIpc env l s = some p) :
    KeepsInputs env arguments s.argumentUsage p ↔ InputsSafe env l arguments s := by
  obtain ⟨hnodup, hfresh⟩ := names_fresh_of_buildLibraries hs
  obtain ⟨hmodules, hmade⟩ := modules_of_prepareIpc hp
  have hnames : (p.modules.map (·.1.config.name)).Nodup := by
    rw [← hmodules, List.map_map] at hnodup
    exact hnodup
  have hlib : ∀ (k : ℕ) (m : LibraryContext × IpcModule), p.modules[k]? = some m →
      s.libraries[k]? = some m.1 := by
    intro k m hm
    rw [← hmodules, List.getElem?_map, hm, Option.map_some]
  constructor
  · intro h k lib hk hlinked
    rw [← hmodules, List.getElem?_map] at hk
    obtain ⟨m, hm, rfl⟩ := Option.map_eq_some_iff.mp hk
    have hmem := List.mem_of_getElem? hm
    have hrewrite := (canRewrite_iff (hmade k m hm)).mpr hlinked
    refine ⟨?_, fun f hf ct hct ↦ ?_⟩
    · obtain ⟨i, hi, hat⟩ := h.placed m hmem hrewrite
      exact ⟨i, hi, (rewrittenAt_iff hnames hmem hrewrite).mp hat⟩
    · have hfresh' := hfresh m.1 (List.mem_of_getElem? (hlib k m hm))
      exact (kept_iff (hmade k m hm) hfresh' hrewrite hf hct).mp
        (h.kept m hmem hrewrite f hf ct hct)
  · intro h
    refine ⟨buildLinkerArgumentList_eq arguments, fun m hmem hrewrite ↦ ?_,
      fun m hmem hrewrite f hf ct hct ↦ ?_⟩
    · obtain ⟨k, hm⟩ := List.mem_iff_getElem?.mp hmem
      obtain ⟨⟨i, hi, huse⟩, -⟩ :=
        h k m.1 (hlib k m hm) ((canRewrite_iff (hmade k m hm)).mp hrewrite)
      exact ⟨i, hi, (rewrittenAt_iff hnames hmem hrewrite).mpr huse⟩
    · obtain ⟨k, hm⟩ := List.mem_iff_getElem?.mp hmem
      have hfresh' := hfresh m.1 (List.mem_of_getElem? (hlib k m hm))
      obtain ⟨-, hkeep⟩ := h k m.1 (hlib k m hm) ((canRewrite_iff (hmade k m hm)).mp hrewrite)
      exact (kept_iff (hmade k m hm) hfresh' hrewrite hf hct).mpr (hkeep f hf ct hct)

end Contexts

/-! ## An instance -/

section Zip

def zipEnv : Env where
  cwd := "/w".toList
  content path :=
    if path = "/w/main.o".toList then some (.blob (.bitcode ⟨["inflate".toList], ["main".toList]⟩))
    else if path = "/w/asm.o".toList then some (.blob .elf)
    else if path = "/w/libutil.a".toList then some (.archive
      [("a.o".toList, .bitcode ⟨[], ["load".toList]⟩), ("b.o".toList, .elf)])
    else if path = "/w/libz.so".toList then some (.blob .elf)
    else none
  nm path := if path = "/w/libz.so".toList then ⟨[], ["inflate".toList]⟩ else ⟨[], []⟩
  stubs := ⟨[], []⟩
  links _ _ := true
  linked := .union
  defines_linked := Bitcode.defines_union
  declares_linked := Bitcode.declares_union
  verifies _ := true
  applicationDir := "/cali".toList
  randomString _ := []
  newFiles := []

def zipLibrary : ContextConfig := { name := "library".toList, selectors := ["libz.so".toList] }

def zipMain : ContextConfig := { name := mainName, selectors := [".o".toList, ".a".toList] }

def zipLinker (arguments : List Str) : LinkerArguments where
  arguments := arguments
  config := { contexts := [zipLibrary, zipMain] }

def zipArguments : List Str := ["main.o".toList, "libutil.a".toList, "libz.so".toList]

/-- Bitcode and mixed archives are kept. -/
theorem keepsInputs_mixedArchive :
    ∃ arguments s p, buildLibraries zipEnv (zipLinker zipArguments) 9 = some (arguments, s) ∧
      prepareIpc zipEnv (zipLinker zipArguments) s = some p ∧
      KeepsInputs zipEnv arguments s.argumentUsage p := by
  obtain ⟨arguments, s, p, hs, hp, hlength, husage, hlibraries⟩ :
      ∃ arguments s p, buildLibraries zipEnv (zipLinker zipArguments) 9 = some (arguments, s) ∧
        prepareIpc zipEnv (zipLinker zipArguments) s = some p ∧
        arguments.length = 3 ∧ s.argumentUsage 0 = some mainName ∧
        s.libraries =
          [{ config := zipMain, isMainModule := true,
             files := ["main.o".toList, "libutil.a".toList] },
            { config := zipLibrary, files := ["libz.so".toList] }] :=
    ⟨_, _, _, rfl, rfl, rfl, rfl, by decide +kernel⟩
  refine ⟨arguments, s, p, hs, hp, (keepsInputs_iff hs hp).mpr fun k lib hk hlinked ↦ ?_⟩
  rw [hlibraries] at hk
  match k, hk with
  | 0, hk =>
    obtain rfl := Option.some.inj hk
    refine ⟨⟨0, by omega, husage⟩, fun f hf ct hct ↦ Or.inl ?_⟩
    rcases List.mem_cons.mp hf with rfl | hf
    · obtain rfl := Option.some.inj hct
      exact Or.inr (Or.inr rfl)
    · obtain rfl := List.mem_singleton.mp hf
      obtain rfl := Option.some.inj hct
      exact Or.inr ⟨rfl, Or.inl rfl⟩
  | 1, hk =>
    obtain rfl := Option.some.inj hk
    obtain ⟨m, _, ct, ⟨hct, f, hf, rfl⟩, hm⟩ := hlinked
    obtain rfl := List.mem_singleton.mp hf
    obtain rfl := Option.some.inj hct
    cases hm

/-- An object file that is not bitcode is lost when its context is rewritten. -/
theorem not_keepsInputs_object :
    ∃ arguments s p,
      buildLibraries zipEnv (zipLinker ["main.o".toList, "asm.o".toList, "libz.so".toList]) 9 =
        some (arguments, s) ∧
      prepareIpc zipEnv (zipLinker ["main.o".toList, "asm.o".toList, "libz.so".toList]) s =
        some p ∧
      changesRequired (zipLinker ["main.o".toList, "asm.o".toList, "libz.so".toList]) s = true ∧
      "asm.o".toList ∉ buildLinkerArgumentList (p.libraries zipEnv) s.argumentUsage arguments ∧
      ¬ KeepsInputs zipEnv arguments s.argumentUsage p := by
  refine ⟨_, _, _, rfl, rfl, rfl, by decide +kernel, fun h ↦ ?_⟩
  have hkept := h.kept _ List.mem_cons_self rfl "asm.o".toList (by decide +kernel) (.blob .elf) rfl
  exact hkept.elim (by decide +kernel) id

end Zip

end Cali.Linker
