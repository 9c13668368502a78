import Cali.Linker.Modules

/-!
# What the files of a context contribute

The loop of `newIpcModulesFromFiles` skips files that do not exist and files that it has
seen under another name.  So what has been loaded in the end depends on the set of the
absolute paths only, which is `Loaded`: not on the order of the files, and not on how
often or under which names they are given.
-/

namespace Cali.Linker

variable {env : Env}

theorem endsWith_absolute (path : Str) {ext : Str} (hext : '/' ∉ ext) :
    endsWith (env.absolute path) ext = endsWith path ext := by
  unfold Env.absolute endsWith
  split
  · rfl
  · rw [Bool.eq_iff_iff, List.isSuffixOf_iff_suffix, List.isSuffixOf_iff_suffix]
    constructor
    · intro h
      rcases List.suffix_or_suffix_of_suffix h (List.suffix_append env.cwd ('/' :: path)) with h | h
      · rcases List.suffix_cons_iff.mp h with rfl | h
        · exact absurd List.mem_cons_self hext
        · exact h
      · exact absurd (h.subset List.mem_cons_self) hext
    · intro h
      exact h.trans ((List.suffix_cons '/' path).trans (List.suffix_append ..))

/-! ## One file -/

/-- The bitcode of a member that is linked. -/
def memberLinked (path : Str) (member : Str × Blob) : Option LinkedModule :=
  match member.2 with
  | .bitcode m =>
    if Loading.isObjectName member.1 = true then some ⟨path, some member.1, m⟩ else none
  | _ => none

/-- The member makes its archive a mixed one. -/
def isElfMember (member : Str × Blob) : Bool :=
  match member.2 with
  | .elf => Loading.isObjectName member.1
  | _ => false

/-- What is linked of a file. -/
def linkedOf (path : Str) (content : Content) : List LinkedModule :=
  if endsWith path so = true then []
  else
    match content with
    | .blob (.bitcode m) =>
      if (endsWith path bc || endsWith path ll || endsWith path o) = true then [⟨path, none, m⟩]
      else []
    | .archive members =>
      if endsWith path a = true then members.filterMap (memberLinked path) else []
    | _ => []

/-- Whether a file becomes a binary module, and whether it is a mixed archive. -/
def binaryKind (path : Str) (content : Content) : Option Bool :=
  if endsWith path so = true then some false
  else
    match content with
    | .blob .elf => if endsWith path o = true then some false else none
    | .archive members =>
      if (endsWith path a && members.any isElfMember) = true then some true else none
    | _ => none

/-- The binary module that a file becomes. -/
def binaryOf (filename : Str) (content : Content) : List BinaryIpcModule :=
  ((binaryKind filename content).map fun mixed ↦ ⟨filename, mixed⟩).toList

theorem endsWith_exclusive {s x y : Str} (hx : endsWith s x = true) (hxy : ¬ x <:+ y)
    (hyx : ¬ y <:+ x) : endsWith s y = false := by
  rw [Bool.eq_false_iff]
  intro hy
  unfold endsWith at hx hy
  rw [List.isSuffixOf_iff_suffix] at hx hy
  exact (List.suffix_or_suffix_of_suffix hx hy).elim hxy hyx

variable {s s' : Loading} {f : Str}

/-- These modules have been added, and nothing else. -/
structure Gains (s s' : Loading) (linked : List LinkedModule) (binary : List BinaryIpcModule) :
    Prop where
  seenFiles : s'.seenFiles = s.seenFiles
  linked : s'.linked = s.linked ++ linked
  binaryModules : s'.binaryModules = s.binaryModules ++ binary

theorem Gains.none (s : Loading) : Gains s s [] [] :=
  ⟨rfl, (List.append_nil _).symm, (List.append_nil _).symm⟩

theorem Gains.trans {s₁ s₂ s₃ : Loading} {linked₁ linked₂ : List LinkedModule}
    {binary₁ binary₂ : List BinaryIpcModule} (h₁ : Gains s₁ s₂ linked₁ binary₁)
    (h₂ : Gains s₂ s₃ linked₂ binary₂) :
    Gains s₁ s₃ (linked₁ ++ linked₂) (binary₁ ++ binary₂) where
  seenFiles := h₂.seenFiles.trans h₁.seenFiles
  linked := by rw [h₂.linked, h₁.linked, List.append_assoc]
  binaryModules := by rw [h₂.binaryModules, h₁.binaryModules, List.append_assoc]

theorem gains_addBinary (s : Loading) (f : Str) (mixed : Bool) :
    Gains s (s.addBinary f mixed) [] [⟨f, mixed⟩] :=
  ⟨rfl, (List.append_nil _).symm, rfl⟩

theorem gains_addLlvmModule {m : LinkedModule} (h : s.addLlvmModule env m = some s') :
    Gains s s' [m] [] := by
  unfold Loading.addLlvmModule at h
  split at h
  · obtain rfl := Option.some.inj h
    exact ⟨rfl, rfl, (List.append_nil _).symm⟩
  · cases h

/-- The binary module for the first member that is not bitcode; the flag tells whether there is
one already. -/
def mixedArchive (filename : Str) (added elf : Bool) : List BinaryIpcModule :=
  if added = false ∧ elf = true then [⟨filename, true⟩] else []

theorem mixedArchive_append (filename : Str) (added elf elf' : Bool) :
    mixedArchive filename added elf ++ mixedArchive filename (added || elf) elf' =
      mixedArchive filename added (elf || elf') := by
  cases added <;> cases elf <;> cases elf' <;> rfl

/-- **One member** of an archive. -/
theorem addMember_eq_some {member : Str × Blob} {r r' : Loading × Bool}
    (h : Loading.addMember env f r member = some r') :
    Gains r.1 r'.1 (memberLinked (env.absolute f) member).toList
        (mixedArchive f r.2 (isElfMember member)) ∧
      r'.2 = (r.2 || isElfMember member) := by
  obtain ⟨s, added⟩ := r
  obtain ⟨name, blob⟩ := member
  unfold Loading.addMember at h
  unfold memberLinked isElfMember
  by_cases hname : Loading.isObjectName name = true
  · rw [if_pos hname] at h
    cases blob with
    | bitcode m =>
      obtain ⟨s₁, hs₁, rfl⟩ := Option.map_eq_some_iff.mp h
      simpa [hname, mixedArchive] using gains_addLlvmModule hs₁
    | elf =>
      cases added with
      | true =>
        obtain rfl := Option.some.inj h
        exact ⟨Gains.none s, rfl⟩
      | false =>
        obtain rfl := Option.some.inj h
        simpa [hname, mixedArchive] using gains_addBinary s f true
    | other =>
      obtain rfl := Option.some.inj h
      simpa [mixedArchive] using Gains.none s
  · rw [if_neg hname] at h
    obtain rfl := Option.some.inj h
    cases blob with
    | bitcode m => simpa [hname, mixedArchive] using Gains.none s
    | elf => simpa [hname, mixedArchive] using Gains.none s
    | other => simpa [mixedArchive] using Gains.none s

/-- **The members of an archive.** -/
theorem foldlM_addMember {members : List (Str × Blob)} {r r' : Loading × Bool}
    (h : members.foldlM (Loading.addMember env f) r = some r') :
    Gains r.1 r'.1 (members.filterMap (memberLinked (env.absolute f)))
      (mixedArchive f r.2 (members.any isElfMember)) := by
  induction members generalizing r with
  | nil =>
    obtain rfl := Option.some.inj h
    simpa [mixedArchive] using Gains.none r.1
  | cons member members ih =>
    rw [List.foldlM_cons] at h
    obtain ⟨r₁, hr₁, h⟩ := Option.bind_eq_some_iff.mp h
    obtain ⟨hmember, hadded⟩ := addMember_eq_some hr₁
    have hall := hmember.trans (ih h)
    rw [hadded, mixedArchive_append] at hall
    rw [List.any_cons, List.filterMap_cons]
    cases hlinked : memberLinked (env.absolute f) member with
    | none => simpa [hlinked] using hall
    | some m => simpa [hlinked] using hall

theorem addLlvmFile_eq (hbc : endsWith f bc = false) (hll : endsWith f ll = false) (c : Content) :
    s.addLlvmFile env f c = some s := by
  simp [Loading.addLlvmFile, hbc, hll]

theorem addObjectFile_eq (ho : endsWith f o = false) (c : Content) :
    s.addObjectFile env f c = some s := by
  simp [Loading.addObjectFile, ho]

theorem addArchive_eq (ha : endsWith f a = false) (c : Content) :
    s.addArchive env f c = some s := by
  simp [Loading.addArchive, ha]

theorem linkedOf_absolute (f : Str) (c : Content) :
    linkedOf (env.absolute f) c = if endsWith f so = true then [] else
      match c with
      | .blob (.bitcode m) => if (endsWith f bc || endsWith f ll || endsWith f o) = true then
          [⟨env.absolute f, none, m⟩] else []
      | .archive members => if endsWith f a = true then
          members.filterMap (memberLinked (env.absolute f)) else []
      | _ => [] := by
  simp only [linkedOf, endsWith_absolute f (by decide : '/' ∉ so),
    endsWith_absolute f (by decide : '/' ∉ bc), endsWith_absolute f (by decide : '/' ∉ ll),
    endsWith_absolute f (by decide : '/' ∉ o), endsWith_absolute f (by decide : '/' ∉ a)]

section NewFile

variable {c : Content}

theorem gains_addLlvmFile (hllvm : (endsWith f bc || endsWith f ll) = true)
    (h : s.addLlvmFile env f c = some s') :
    Gains s s' (linkedOf (env.absolute f) c) (binaryOf f c) := by
  have hso : endsWith f so = false := by
    rcases (Bool.or_eq_true ..).mp hllvm with hx | hx
    · exact endsWith_exclusive hx (by decide) (by decide)
    · exact endsWith_exclusive hx (by decide) (by decide)
  unfold Loading.addLlvmFile at h
  rw [if_pos hllvm] at h
  unfold binaryOf binaryKind
  rw [linkedOf_absolute, hso]
  cases c with
  | blob b =>
    cases b with
    | bitcode m => simpa [hllvm] using gains_addLlvmModule h
    | elf => cases h
    | other => cases h
  | archive members => cases h
  | text lines => cases h

theorem gains_addObjectFile (ho : endsWith f o = true) (h : s.addObjectFile env f c = some s') :
    Gains s s' (linkedOf (env.absolute f) c) (binaryOf f c) := by
  have hso : endsWith f so = false := endsWith_exclusive ho (by decide) (by decide)
  have ha : endsWith f a = false := endsWith_exclusive ho (by decide) (by decide)
  unfold Loading.addObjectFile at h
  rw [if_pos ho] at h
  unfold binaryOf binaryKind
  rw [linkedOf_absolute, hso, ho, ha]
  cases c with
  | blob b =>
    cases b with
    | bitcode m => simpa using gains_addLlvmModule h
    | elf =>
      obtain rfl := Option.some.inj h
      exact gains_addBinary s f false
    | other =>
      obtain rfl := Option.some.inj h
      exact Gains.none s
  | archive members =>
    obtain rfl := Option.some.inj h
    exact Gains.none s
  | text lines =>
    obtain rfl := Option.some.inj h
    exact Gains.none s

theorem gains_addArchive (ha : endsWith f a = true) (h : s.addArchive env f c = some s') :
    Gains s s' (linkedOf (env.absolute f) c) (binaryOf f c) := by
  have hso : endsWith f so = false := endsWith_exclusive ha (by decide) (by decide)
  unfold Loading.addArchive at h
  rw [if_pos ha] at h
  unfold binaryOf binaryKind
  rw [linkedOf_absolute, hso, ha]
  cases c with
  | blob b => cases h
  | archive members =>
    obtain ⟨r', hr', rfl⟩ := Option.map_eq_some_iff.mp h
    have hmembers := foldlM_addMember hr'
    cases hany : members.any isElfMember with
    | false => simpa [hany, mixedArchive] using hmembers
    | true => simpa [hany, mixedArchive] using hmembers
  | text lines => cases h

theorem addNewFile_eq_some
    (h : (if endsWith f so = true then some (s.addBinary f false)
      else (s.addLlvmFile env f c).bind fun s ↦
        (s.addObjectFile env f c).bind fun s ↦ s.addArchive env f c) = some s') :
    Gains s s' (linkedOf (env.absolute f) c) (binaryOf f c) := by
  by_cases hso : endsWith f so = true
  · rw [if_pos hso] at h
    obtain rfl := Option.some.inj h
    unfold binaryOf binaryKind
    rw [linkedOf_absolute, hso]
    exact gains_addBinary s f false
  rw [if_neg hso] at h
  by_cases hllvm : (endsWith f bc || endsWith f ll) = true
  · have hother : endsWith f o = false ∧ endsWith f a = false := by
      rcases (Bool.or_eq_true ..).mp hllvm with hx | hx
      · exact ⟨endsWith_exclusive hx (by decide) (by decide),
          endsWith_exclusive hx (by decide) (by decide)⟩
      · exact ⟨endsWith_exclusive hx (by decide) (by decide),
          endsWith_exclusive hx (by decide) (by decide)⟩
    simp only [addObjectFile_eq hother.1, addArchive_eq hother.2, Option.bind_fun_some] at h
    exact gains_addLlvmFile hllvm h
  obtain ⟨hbc, hll⟩ := (Bool.or_eq_false_iff).mp (Bool.eq_false_iff.mpr hllvm)
  rw [addLlvmFile_eq hbc hll, Option.bind_some] at h
  by_cases ho : endsWith f o = true
  · have ha : endsWith f a = false := endsWith_exclusive ho (by decide) (by decide)
    simp only [addArchive_eq ha, Option.bind_fun_some] at h
    exact gains_addObjectFile ho h
  rw [addObjectFile_eq (Bool.eq_false_iff.mpr ho), Option.bind_some] at h
  by_cases ha : endsWith f a = true
  · exact gains_addArchive ha h
  -- no extension that is looked at
  rw [addArchive_eq (Bool.eq_false_iff.mpr ha)] at h
  obtain rfl := Option.some.inj h
  unfold binaryOf binaryKind
  rw [linkedOf_absolute]
  simp only [hso, hbc, hll, ho, ha, Bool.false_or, Bool.false_eq_true, ↓reduceIte]
  cases c with
  | blob b => cases b <;> exact Gains.none s
  | archive members => exact Gains.none s
  | text lines => exact Gains.none s

end NewFile

/-- **One file.**  A file that does not exist or that has been seen changes nothing; of any
other file all that it contributes is added. -/
theorem addFile_eq_some (h : s.addFile env f = some s') :
    (s' = s ∧ ∀ c, env.content (env.absolute f) = some c → env.absolute f ∈ s.seenFiles) ∨
      ∃ c, env.content (env.absolute f) = some c ∧ env.absolute f ∉ s.seenFiles ∧
        s'.seenFiles = env.absolute f :: s.seenFiles ∧
        s'.linked = s.linked ++ linkedOf (env.absolute f) c ∧
        s'.binaryModules = s.binaryModules ++ binaryOf f c := by
  unfold Loading.addFile at h
  cases hc : env.content (env.absolute f) with
  | none =>
    rw [hc] at h
    exact Or.inl ⟨(Option.some.inj h).symm, nofun⟩
  | some c =>
    simp only [hc] at h
    by_cases hseen : env.absolute f ∈ s.seenFiles
    · rw [if_pos hseen] at h
      exact Or.inl ⟨(Option.some.inj h).symm, fun _ _ ↦ hseen⟩
    · rw [if_neg hseen] at h
      obtain ⟨hfiles, hlinked, hbinary⟩ := addNewFile_eq_some h
      exact Or.inr ⟨c, rfl, hseen, hfiles, hlinked, hbinary⟩

/-! ## All files -/

/-- One of the files is at the path, and it has the content. -/
def Available (env : Env) (files : List Str) (p : Str) (c : Content) : Prop :=
  env.content p = some c ∧ ∃ f ∈ files, env.absolute f = p

/-- What has been loaded after the files: the linked modules are those of all files that
exist, and there is a binary module for the path of each file that becomes one. -/
structure Loaded (env : Env) (files : List Str) (s : Loading) : Prop where
  seen : ∀ p, p ∈ s.seenFiles ↔ ∃ c, Available env files p c
  linked : ∀ m, m ∈ s.linked ↔ ∃ p c, Available env files p c ∧ m ∈ linkedOf p c
  binary : ∀ p mixed,
    (∃ b ∈ s.binaryModules, env.absolute b.source = p ∧ b.isMixedArchive = mixed) ↔
      ∃ c, Available env files p c ∧ binaryKind p c = some mixed

theorem available_concat {files : List Str} {p : Str} {c : Content} :
    Available env (files ++ [f]) p c ↔
      Available env files p c ∨ env.absolute f = p ∧ env.content p = some c := by
  unfold Available
  constructor
  · rintro ⟨hc, f', hf', rfl⟩
    rcases List.mem_append.mp hf' with hf' | hf'
    · exact Or.inl ⟨hc, f', hf', rfl⟩
    · obtain rfl := List.mem_singleton.mp hf'
      exact Or.inr ⟨rfl, hc⟩
  · rintro (⟨hc, f', hf', hp⟩ | ⟨hp, hc⟩)
    · exact ⟨hc, f', List.mem_append_left _ hf', hp⟩
    · exact ⟨hc, f, List.mem_append_right _ (List.mem_singleton_self f), hp⟩

theorem binaryKind_absolute (f : Str) (c : Content) :
    binaryKind (env.absolute f) c = binaryKind f c := by
  simp only [binaryKind, endsWith_absolute f (by decide : '/' ∉ so),
    endsWith_absolute f (by decide : '/' ∉ o), endsWith_absolute f (by decide : '/' ∉ a)]

theorem loaded_nil : Loaded env [] {} where
  seen p := by simp [Available]
  linked m := by simp [Available]
  binary p mixed := by simp [Available]

theorem Loaded.skip {files : List Str} (h : Loaded env files s)
    (hskip : ∀ c, env.content (env.absolute f) = some c → env.absolute f ∈ s.seenFiles) :
    Loaded env (files ++ [f]) s := by
  have hsame : Available env (files ++ [f]) = Available env files := by
    funext p c
    refine propext (available_concat.trans (or_iff_left_of_imp ?_))
    rintro ⟨rfl, hc⟩
    obtain ⟨c', hc', hfile⟩ := (h.seen _).mp (hskip c hc)
    exact ⟨hc, hfile⟩
  refine ⟨?_, ?_, ?_⟩
  · rw [hsame]
    exact h.seen
  · rw [hsame]
    exact h.linked
  · rw [hsame]
    exact h.binary

theorem Loaded.add {files : List Str} {c : Content} (h : Loaded env files s)
    (hc : env.content (env.absolute f) = some c)
    (hseen : s'.seenFiles = env.absolute f :: s.seenFiles)
    (hlinked : s'.linked = s.linked ++ linkedOf (env.absolute f) c)
    (hbinary : s'.binaryModules = s.binaryModules ++ binaryOf f c) :
    Loaded env (files ++ [f]) s' := by
  have havail : ∀ p c', Available env (files ++ [f]) p c' ↔
      Available env files p c' ∨ p = env.absolute f ∧ c' = c := by
    intro p c'
    rw [available_concat]
    refine or_congr_right ⟨?_, ?_⟩
    · rintro ⟨rfl, hc'⟩
      exact ⟨rfl, Option.some.inj (hc'.symm.trans hc)⟩
    · rintro ⟨rfl, rfl⟩
      exact ⟨rfl, hc⟩
  refine ⟨fun p ↦ ?_, fun m ↦ ?_, fun p mixed ↦ ?_⟩
  · rw [hseen, List.mem_cons, h.seen]
    simp only [havail, exists_or, exists_and_left, exists_eq, and_true]
    exact or_comm
  · rw [hlinked, List.mem_append, h.linked]
    simp only [havail, or_and_right, exists_or]
    refine or_congr_right ⟨fun hm ↦ ⟨_, _, ⟨rfl, rfl⟩, hm⟩, ?_⟩
    rintro ⟨p, c', ⟨rfl, rfl⟩, hm⟩
    exact hm
  · simp only [hbinary, List.mem_append, or_and_right, exists_or, h.binary, havail]
    refine or_congr_right ?_
    unfold binaryOf
    rw [← (binaryKind_absolute f c : binaryKind (env.absolute f) c = binaryKind f c)]
    constructor
    · rintro ⟨b, hb, rfl, rfl⟩
      obtain ⟨mixed, hmixed, rfl⟩ := Option.map_eq_some_iff.mp (Option.mem_toList.mp hb)
      exact ⟨c, ⟨rfl, rfl⟩, hmixed⟩
    · rintro ⟨c', ⟨rfl, rfl⟩, hkind⟩
      exact ⟨⟨f, mixed⟩, by simp [hkind], rfl, rfl⟩

/-- **All files**: the loop loads what is available. -/
theorem loaded_of_foldlM {files : List Str} (h : files.foldlM (Loading.addFile env) {} = some s) :
    Loaded env files s := by
  have hrun : ∀ (files done : List Str) (s : Loading), Loaded env done s →
      ∀ s', files.foldlM (Loading.addFile env) s = some s' → Loaded env (done ++ files) s' := by
    intro files
    induction files with
    | nil =>
      intro done s hs s' hs'
      obtain rfl := Option.some.inj hs'
      rwa [List.append_nil]
    | cons f files ih =>
      intro done s hs s' hs'
      rw [List.foldlM_cons] at hs'
      obtain ⟨s₁, hs₁, hs'⟩ := Option.bind_eq_some_iff.mp hs'
      have hstep : Loaded env (done ++ [f]) s₁ := by
        rcases addFile_eq_some hs₁ with ⟨rfl, hskip⟩ | ⟨c, hc, -, hseen, hlinked, hbinary⟩
        · exact hs.skip hskip
        · exact hs.add hc hseen hlinked hbinary
      have hrest := ih _ _ hstep _ hs'
      rwa [List.append_assoc] at hrest
  exact hrun files [] {} loaded_nil s h

/-! ## The module -/

section Symbols

variable (env : Env) (c : ContextConfig) (files : List Str)

/-- The bitcode of the files. -/
def LinkedFrom (m : LinkedModule) : Prop := ∃ p ct, Available env files p ct ∧ m ∈ linkedOf p ct

/-- The files that become binary modules. -/
def BinaryFrom (p : Str) : Prop :=
  ∃ ct mixed, Available env files p ct ∧ binaryKind p ct = some mixed

/-- A function that the bitcode of the files declares, together with the stubs. -/
def Declares (x : Str) : Prop :=
  ∃ m, LinkedFrom env files m ∧ (x ∈ env.stubs.declares ∨ x ∈ m.bitcode.declares)

/-- A function that the bitcode of the files defines, together with the stubs. -/
def Defines (x : Str) : Prop :=
  ∃ m, LinkedFrom env files m ∧ (x ∈ env.stubs.defines ∨ x ∈ m.bitcode.defines)

/-- What a context exports, by the set of its files. -/
def Exports (x : Str) : Prop :=
  Defines env files x ∨
    ∃ p, BinaryFrom env files p ∧ x ∈ (env.nm p).exports ∧ x ∉ c.ignoredFunctions

/-- What a context imports, by the set of its files. -/
def Imports (x : Str) : Prop :=
  Declares env files x ∧ ¬ Defines env files x ∨
    ∃ p, BinaryFrom env files p ∧ x ∈ (env.nm p).imports ∧ x ∉ c.ignoredFunctions

end Symbols

section Module

variable {c : ContextConfig} {files : List Str} {m : IpcModule} {source outputFilename x : Str}
  {n : ℕ}

theorem Loaded.linkedFrom (h : Loaded env files s) {m : LinkedModule} :
    m ∈ s.linked ↔ LinkedFrom env files m := h.linked m

theorem Loaded.binaryFrom (h : Loaded env files s) {p : Str} :
    (∃ b ∈ s.binaryModules, env.absolute b.source = p) ↔ BinaryFrom env files p := by
  unfold BinaryFrom
  rw [exists_comm]
  simp only [← h.binary]
  constructor
  · rintro ⟨b, hb, hp⟩
    exact ⟨b.isMixedArchive, b, hb, hp, rfl⟩
  · rintro ⟨mixed, b, hb, hp, -⟩
    exact ⟨b, hb, hp⟩

/-- The parts of the module that is built: the bitcode as one part, if there is any, and
the binary modules. -/
theorem mem_parts_buildComposite {p : Part} :
    p ∈ (buildComposite source s).parts ↔
      (s.linked ≠ [] ∧ p = .llvm source s.linked) ∨ ∃ b ∈ s.binaryModules, p = .binary b := by
  unfold buildComposite
  split <;> simp_all [IpcModule.parts, eq_comm]

/-- A property of some part: of the linked modules, or of one of the binary modules. -/
theorem exists_part_buildComposite {q : Part → Prop} :
    (∃ p ∈ (buildComposite source s).parts, q p) ↔
      (s.linked ≠ [] ∧ q (.llvm source s.linked)) ∨ ∃ b ∈ s.binaryModules, q (.binary b) := by
  simp only [mem_parts_buildComposite]
  constructor
  · rintro ⟨_, ⟨hne, rfl⟩ | ⟨b, hb, rfl⟩, hq⟩
    · exact Or.inl ⟨hne, hq⟩
    · exact Or.inr ⟨b, hb, hq⟩
  · rintro (⟨hne, hq⟩ | ⟨b, hb, hq⟩)
    · exact ⟨_, Or.inl ⟨hne, rfl⟩, hq⟩
    · exact ⟨_, Or.inr ⟨b, hb, rfl⟩, hq⟩

theorem exists_mem_or {α : Type} {xs : List α} {p : Prop} {q : α → Prop} :
    (∃ a ∈ xs, p ∨ q a) ↔ xs ≠ [] ∧ (p ∨ ∃ a ∈ xs, q a) := by
  constructor
  · rintro ⟨a, ha, h⟩
    exact ⟨List.ne_nil_of_mem ha, h.imp_right fun h ↦ ⟨a, ha, h⟩⟩
  · rintro ⟨hne, h | ⟨a, ha, h⟩⟩
    · obtain ⟨a, ha⟩ := List.exists_mem_of_ne_nil xs hne
      exact ⟨a, ha, Or.inl h⟩
    · exact ⟨a, ha, Or.inr h⟩

theorem Loaded.defines (h : Loaded env files s) (c : ContextConfig) (source : Str) :
    Defines env files x ↔ s.linked ≠ [] ∧ x ∈ (Part.llvm source s.linked).exports env c := by
  simp only [Defines, ← h.linkedFrom, exists_mem_or]
  simp [Part.exports, Part.llvmModule, env.defines_linked]

theorem Loaded.declares (h : Loaded env files s) (c : ContextConfig) (source : Str) :
    Declares env files x ∧ ¬ Defines env files x ↔
      s.linked ≠ [] ∧ x ∈ (Part.llvm source s.linked).imports env c := by
  have hmodule : x ∈ (Part.llvm source s.linked).imports env c ↔
      (x ∈ env.stubs.declares ∨ ∃ m ∈ s.linked, x ∈ m.bitcode.declares) ∧
        x ∉ (Part.llvm source s.linked).exports env c := by
    simp [Part.imports, Part.exports, Part.llvmModule, env.defines_linked, env.declares_linked]
  rw [h.defines c source, hmodule]
  simp only [Declares, ← h.linkedFrom, exists_mem_or]
  tauto

theorem exists_loaded (h : newIpcModulesFromFiles env outputFilename n files = some m) :
    ∃ s, Loaded env files s ∧ m = buildComposite (moduleIdentifier env outputFilename n) s := by
  obtain ⟨s, hs, h⟩ := Option.bind_eq_some_iff.mp h
  refine ⟨s, loaded_of_foldlM hs, ?_⟩
  split at h
  · exact (Option.some.inj h).symm
  · cases h

/-- **Exports.**  What the module of a context exports depends on the set of its files only. -/
theorem mem_exports_iff (h : newIpcModulesFromFiles env outputFilename n files = some m) :
    x ∈ m.exports env c ↔ Exports env c files x := by
  obtain ⟨s, hs, rfl⟩ := exists_loaded h
  unfold Exports
  simp only [IpcModule.exports, Finset.mem_biUnion, List.mem_toFinset, exists_part_buildComposite,
    hs.defines c (moduleIdentifier env outputFilename n), ← hs.binaryFrom]
  exact or_congr_right (by simp [Part.exports])

/-- **Imports.**  What the module of a context imports depends on the set of its files only. -/
theorem mem_imports_iff (h : newIpcModulesFromFiles env outputFilename n files = some m) :
    x ∈ m.imports env c ↔ Imports env c files x := by
  obtain ⟨s, hs, rfl⟩ := exists_loaded h
  unfold Imports
  simp only [IpcModule.imports, Finset.mem_biUnion, List.mem_toFinset, exists_part_buildComposite,
    hs.declares c (moduleIdentifier env outputFilename n), ← hs.binaryFrom]
  exact or_congr_right (by simp [Part.imports])

theorem canRewrite_iff (h : newIpcModulesFromFiles env outputFilename n files = some m) :
    m.canRewrite = true ↔ ∃ m, LinkedFrom env files m := by
  obtain ⟨s, hs, rfl⟩ := exists_loaded h
  simp only [← hs.linkedFrom, IpcModule.canRewrite, List.any_eq_true, mem_parts_buildComposite]
  constructor
  · rintro ⟨_, ⟨hne, rfl⟩ | ⟨b, -, rfl⟩, hp⟩
    · exact List.exists_mem_of_ne_nil _ hne
    · cases hp
  · rintro ⟨m, hm⟩
    exact ⟨_, Or.inl ⟨List.ne_nil_of_mem hm, rfl⟩, rfl⟩

theorem available_congr {files' : List Str} (h : ∀ f, f ∈ files ↔ f ∈ files') :
    Available env files = Available env files' := by
  funext p ct
  simp only [Available, h]

theorem linkedFrom_congr {files' : List Str} (h : ∀ f, f ∈ files ↔ f ∈ files') :
    LinkedFrom env files = LinkedFrom env files' := by
  unfold LinkedFrom
  rw [available_congr h]

theorem exports_congr {files' : List Str} (h : ∀ f, f ∈ files ↔ f ∈ files') :
    Exports env c files = Exports env c files' := by
  unfold Exports Defines BinaryFrom
  rw [available_congr h, linkedFrom_congr h]

theorem imports_congr {files' : List Str} (h : ∀ f, f ∈ files ↔ f ∈ files') :
    Imports env c files = Imports env c files' := by
  unfold Imports Declares Defines BinaryFrom
  rw [available_congr h, linkedFrom_congr h]

end Module

end Cali.Linker
