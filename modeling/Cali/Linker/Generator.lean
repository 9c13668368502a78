import Cali.Lib.Cut
import Cali.Linker.Collect
import Cali.Linker.Glob

/-!
# Generated configurations

`internalGenerateBoilerplateConfiguration` derives a template configuration from a link command.
Its second loop goes through the arguments as `build_libraries` does, and puts a glob pattern
for each local object file into the selectors of the context `main`.

The pattern of an object file is its directory, a star and its extension.  Whatever the
characters of the directory mean in a pattern, they match themselves, so the pattern selects
the file it was made from, with one exception: a path that starts with `^` and has a
directory gives a selector that starts with `^`, which `ContextConfig::matches` reads as an
anchor.
-/

namespace Cali.Linker

open Cali.Lib

/-! ## The generator -/

/-- `rfind`: the text before the last `c` and the text behind it -/
def rfind (s : Str) (c : Char) : Option (Str × Str) := cutLast c s

/-- The variables of the first loop -/
structure CommandLine where
  skipNext : Bool := false
  nextOutput : Bool := false
  outputFilename : Str := []
  librarySearchpath : List Str := []
deriving DecidableEq, Repr

/-- One turn of the first loop; the result for a shared library is its message. -/
def scanArgument (p : CommandLine) (s : Str) : Except Str CommandLine :=
  if p.skipNext = true then .ok { p with skipNext := false }
  else if p.nextOutput = true then .ok { p with outputFilename := s, nextOutput := false }
  else if startsWith s "-L".toList = true then
    .ok { p with librarySearchpath := p.librarySearchpath ++ [s.drop 2] }
  else if s = "-o".toList then .ok { p with nextOutput := true }
  else if s = "-plugin".toList ∨ s = "-rpath".toList then .ok { p with skipNext := true }
  else if s = "-shared".toList then
    .error "This build config is creating a shared library.".toList
  else .ok p

/-- The sets that the second loop fills, and the keys of the rows of `precompiledLibraries`
whose texts are `modifications` -/
structure Generated where
  suggestLibStdCxx : Bool := false
  mainSelectors : List Str := []
  librarySelectors : List Str := []
  replaceArguments : List Str := []
  modifications : List Str := []
deriving DecidableEq, Repr

/-- The keys of `precompiledLibraries` -/
def precompiledLibraries : List Str := ["-lgcrypt".toList]

/-- The selector of a shared library -/
def librarySelector (lib : Str) : Str :=
  match rfind lib '/' with
  | some (_, name) => name
  | none => lib

/-- The selector of a static library -/
def archiveSelector (lib : Str) : Str :=
  if "/.libs/".toList <:+: lib then ".libs/*.a".toList
  else match rfind lib '/' with
    | some (dir, _) => '^' :: dir ++ "/*.a".toList
    | none => lib

/-- The selector of a local object file -/
def objectSelector (s : Str) : Str :=
  let extension := match rfind s '.' with
    | some (_, extension) => extension
    | none => s
  match rfind s '/' with
  | some (dir, _) => dir ++ "/*.".toList ++ extension
  | none => "*.".toList ++ extension

/-- The branch of the second loop for libraries -/
def addLibrary (env : Env) (librarySearchpath : List Str) (g : Generated) (s : Str) : Generated :=
  let libname := "/usr/cali-lib/lib".toList ++ s.drop 2 ++ a
  if s ∈ precompiledLibraries then { g with modifications := g.modifications ++ [s] }
  else if startsWith s "-l".toList = true ∧ env.fileExists libname = true then
    { g with
      replaceArguments := g.replaceArguments.insert
        ('"' :: s ++ "\": [\"".toList ++ libname ++ "\"]".toList)
      mainSelectors := g.mainSelectors.insert ("lib".toList ++ s.drop 2 ++ a) }
  else
    match findLibrary env librarySearchpath
      (if startsWith s "-l".toList = true then "lib".toList ++ s.drop 2 else s) with
    | none => g
    | some lib =>
      if (endsWith lib so || startsWith lib "/usr/".toList ||
          startsWith lib "/lib".toList) = true then
        { g with librarySelectors := g.librarySelectors.insert (librarySelector lib) }
      else if endsWith lib a = true then
        { g with mainSelectors := g.mainSelectors.insert (archiveSelector lib) }
      else g

/-- One turn of the second loop -/
def addSelectors (env : Env) (librarySearchpath : List Str) (g : Generated) (s : Str) :
    Generated :=
  if s = "-lstdc++".toList then
    { g with
      suggestLibStdCxx := true
      mainSelectors := g.mainSelectors.insert "libstdc++.bc".toList }
  else if (startsWith s "-l".toList || endsWith s so || endsWith s a) = true then
    addLibrary env librarySearchpath g s
  else if ((endsWith s o || endsWith s bc || endsWith s lo) &&
      !startsWith s "/usr/".toList) = true then
    { g with mainSelectors := g.mainSelectors.insert (objectSelector s) }
  else g

/-- The second loop.  As in `buildLoop`, the flags that take the next argument may be tested
for first. -/
def generateLoop (env : Env) (librarySearchpath : List Str) : List Str → Generated → Generated
  | [], g => g
  | s :: arguments, g =>
    if takesNext s = true then
      match arguments with
      | [] => g
      | _ :: arguments => generateLoop env librarySearchpath arguments g
    else generateLoop env librarySearchpath arguments (addSelectors env librarySearchpath g s)

/-- `internalGenerateBoilerplateConfiguration`, up to the text that is made of the sets -/
def internalGenerateBoilerplateConfiguration (env : Env) (arguments : List Str) :
    Except Str Generated := do
  let p ← arguments.foldlM scanArgument {}
  return generateLoop env p.librarySearchpath arguments {}

/-- The context `main` of the generated configuration -/
def Generated.main (g : Generated) : ContextConfig where
  name := mainName
  selectors := g.mainSelectors

/-! ## The arguments that the loops look at -/

/-- The arguments without the values of the flags that take the next argument -/
def visited : List Str → List Str
  | [] => []
  | arg :: arguments =>
    if takesNext arg = true then
      match arguments with
      | [] => []
      | _ :: arguments => visited arguments
    else arg :: visited arguments

/-- An argument that `build_libraries` treats as a local object file -/
def isLocalObject (arg : Str) : Bool :=
  (endsWith arg o || endsWith arg bc || endsWith arg lo) && !startsWith arg "-l".toList &&
    !startsWith arg "/usr/".toList

theorem visited_cons_cons {arg : Str} (h : takesNext arg = true) (value : Str)
    (arguments : List Str) : visited (arg :: value :: arguments) = visited arguments := by
  rw [visited, if_pos h]

theorem visited_cons {arg : Str} (h : ¬ takesNext arg = true) (arguments : List Str) :
    visited (arg :: arguments) = arg :: visited arguments := by
  rw [visited.eq_def]
  exact if_neg h

theorem generateLoop_eq (env : Env) (librarySearchpath : List Str) (arguments : List Str)
    (g : Generated) :
    generateLoop env librarySearchpath arguments g =
      (visited arguments).foldl (addSelectors env librarySearchpath) g := by
  fun_induction generateLoop env librarySearchpath arguments g with
  | case1 g => rfl
  | case2 g s hs => simp [visited, hs]
  | case3 g s hs value arguments ih => rw [ih, visited_cons_cons hs]
  | case4 s arguments g hs ih => rw [ih, visited_cons hs, List.foldl_cons]

/-! ## Local objects -/

section

variable {env : Env} {librarySearchpath : List Str} {g : Generated} {s : Str}

theorem exists_extension (h : isLocalObject s = true) : ∃ ext ∈ [o, bc, lo], ext <:+ s := by
  simp only [isLocalObject, endsWith, Bool.and_eq_true, Bool.or_eq_true,
    List.isSuffixOf_iff_suffix] at h
  rcases h.1.1 with (h | h) | h
  · exact ⟨o, by simp, h⟩
  · exact ⟨bc, by simp, h⟩
  · exact ⟨lo, by simp, h⟩

theorem endsWith_of_isLocalObject (h : isLocalObject s = true) :
    ∀ ending ∈ [so, a, la], endsWith s ending = false := by
  intro ending hending
  obtain ⟨ext, hext, hsuffix⟩ := exists_extension h
  have hapart : ∀ ext ∈ [o, bc, lo], ∀ ending ∈ [so, a, la],
      ¬ ext <:+ ending ∧ ¬ ending <:+ ext := by
    decide
  obtain ⟨hne, hne'⟩ := hapart ext hext ending hending
  rw [Bool.eq_false_iff, endsWith, ne_eq, List.isSuffixOf_iff_suffix]
  intro hends
  exact (List.suffix_or_suffix_of_suffix hsuffix hends).elim hne hne'

/-- The tests that `build_libraries` and the generator make of an argument, for a local object -/
theorem tests_of_isLocalObject (h : isLocalObject s = true) :
    s ≠ "-lstdc++".toList ∧
      (startsWith s "-l".toList || endsWith s so || endsWith s a) = false ∧
      ((endsWith s o || endsWith s bc || endsWith s lo) &&
        !startsWith s "/usr/".toList) = true := by
  have hends := endsWith_of_isLocalObject h
  simp only [isLocalObject, Bool.and_eq_true, Bool.not_eq_true'] at h
  obtain ⟨⟨hext, hl⟩, husr⟩ := h
  refine ⟨?_, ?_, ?_⟩
  · rintro rfl
    exact absurd hl (by decide)
  · rw [hl, hends so (by simp), hends a (by simp)]
    rfl
  · rw [hext, husr]
    rfl

theorem addSelectors_of_isLocalObject (h : isLocalObject s = true) :
    addSelectors env librarySearchpath g s =
      { g with mainSelectors := g.mainSelectors.insert (objectSelector s) } := by
  obtain ⟨hstd, hlib, hobj⟩ := tests_of_isLocalObject h
  unfold addSelectors
  rw [if_neg hstd, if_neg (Bool.eq_false_iff.mp hlib), if_pos hobj]

/-- `build_libraries` adds a local object as it is. -/
theorem inputFile_of_isLocalObject (l : LinkerArguments) (h : isLocalObject s = true) :
    inputFile env l s = some (s, true) := by
  obtain ⟨hstd, hlib, hobj⟩ := tests_of_isLocalObject h
  unfold inputFile
  rw [if_neg fun hcond ↦ hstd hcond.2, if_neg (Bool.eq_false_iff.mp hlib), if_pos hobj]

theorem mainSelectors_addLibrary (env : Env) (librarySearchpath : List Str) (g : Generated)
    (s : Str) : g.mainSelectors ⊆ (addLibrary env librarySearchpath g s).mainSelectors := by
  intro sel hsel
  unfold addLibrary
  dsimp only
  split
  · exact hsel
  split
  · exact List.mem_insert_of_mem hsel
  split
  · exact hsel
  split
  · exact hsel
  split
  · exact List.mem_insert_of_mem hsel
  · exact hsel

theorem mainSelectors_addSelectors (env : Env) (librarySearchpath : List Str) (g : Generated)
    (s : Str) : g.mainSelectors ⊆ (addSelectors env librarySearchpath g s).mainSelectors := by
  intro sel hsel
  unfold addSelectors
  split
  · exact List.mem_insert_of_mem hsel
  split
  · exact mainSelectors_addLibrary env librarySearchpath g s hsel
  split
  · exact List.mem_insert_of_mem hsel
  · exact hsel

theorem mainSelectors_foldl (arguments : List Str) (g : Generated) :
    g.mainSelectors ⊆ (arguments.foldl (addSelectors env librarySearchpath) g).mainSelectors := by
  induction arguments generalizing g with
  | nil => exact List.Subset.refl _
  | cons s arguments ih =>
    exact List.Subset.trans (mainSelectors_addSelectors env librarySearchpath g s) (ih _)

theorem suffix_archiveSelector {lib : Str} (h : a <:+ lib) : ['a'] <:+ archiveSelector lib := by
  unfold archiveSelector
  split
  · exact ⟨".libs/*.".toList, rfl⟩
  split
  next dir _ _ => exact ⟨'^' :: dir ++ "/*.".toList, List.append_assoc ..⟩
  next => exact List.IsSuffix.trans (show ['a'] <:+ a from ⟨['.'], rfl⟩) h

theorem mem_mainSelectors_addLibrary {sel : Str}
    (h : sel ∈ (addLibrary env librarySearchpath g s).mainSelectors) :
    sel ∈ g.mainSelectors ∨ ['a'] <:+ sel := by
  unfold addLibrary at h
  dsimp only at h
  split at h
  · exact Or.inl h
  split at h
  · rcases List.mem_insert_iff.mp h with rfl | h
    · exact Or.inr ⟨"lib".toList ++ s.drop 2 ++ ".".toList, List.append_assoc ..⟩
    · exact Or.inl h
  split at h
  · exact Or.inl h
  split at h
  · exact Or.inl h
  split at h
  next ha =>
    rw [endsWith, List.isSuffixOf_iff_suffix] at ha
    refine (List.mem_insert_iff.mp h).symm.imp_right fun h ↦ ?_
    rw [h]
    exact suffix_archiveSelector ha
  · exact Or.inl h

theorem mem_mainSelectors_addSelectors {sel : Str}
    (h : sel ∈ (addSelectors env librarySearchpath g s).mainSelectors) :
    sel ∈ g.mainSelectors ∨ ['a'] <:+ sel ∨ s = "-lstdc++".toList ∧ sel = "libstdc++.bc".toList ∨
      isLocalObject s = true ∧ sel = objectSelector s := by
  unfold addSelectors at h
  split at h
  next hstd => exact (List.mem_insert_iff.mp h).symm.imp_right fun h ↦ Or.inr (Or.inl ⟨hstd, h⟩)
  split at h
  · exact (mem_mainSelectors_addLibrary h).imp_right Or.inl
  split at h
  next hlib hobj =>
    refine (List.mem_insert_iff.mp h).symm.imp_right fun h ↦ Or.inr (Or.inr ⟨?_, h⟩)
    simp only [Bool.or_eq_true, not_or, Bool.not_eq_true] at hlib
    simp only [Bool.and_eq_true] at hobj
    simp only [isLocalObject, hobj, hlib, Bool.not_false, Bool.and_self]
  · exact Or.inl h

theorem mem_mainSelectors_foldl {arguments : List Str} {sel : Str} (hs : s ∈ arguments)
    (hadds : ∀ g, sel ∈ (addSelectors env librarySearchpath g s).mainSelectors) (g : Generated) :
    sel ∈ (arguments.foldl (addSelectors env librarySearchpath) g).mainSelectors := by
  induction arguments generalizing g with
  | nil => cases hs
  | cons t arguments ih =>
    rw [List.foldl_cons]
    rcases List.mem_cons.mp hs with rfl | hs
    · apply mainSelectors_foldl
      exact hadds g
    · exact ih hs _

theorem exists_of_mem_foldl {arguments : List Str} {sel : Str}
    (h : sel ∈ (arguments.foldl (addSelectors env librarySearchpath) g).mainSelectors) :
    sel ∈ g.mainSelectors ∨ ['a'] <:+ sel ∨ ∃ t ∈ arguments,
      t = "-lstdc++".toList ∧ sel = "libstdc++.bc".toList ∨
        isLocalObject t = true ∧ sel = objectSelector t := by
  induction arguments generalizing g with
  | nil => exact Or.inl h
  | cons t arguments ih =>
    rcases ih h with h | h | ⟨t', ht', h⟩
    · refine (mem_mainSelectors_addSelectors h).imp_right (Or.imp_right fun h ↦ ?_)
      exact ⟨t, List.mem_cons_self, h⟩
    · exact Or.inr (Or.inl h)
    · exact Or.inr (Or.inr ⟨t', List.mem_cons_of_mem t ht', h⟩)

end

/-! ## What a selector selects -/

section

variable {s : Str}

/-- The extension of a local object is behind its last dot and its last slash. -/
theorem exists_stem (h : isLocalObject s = true) :
    ∃ stem extension, s = stem ++ '.' :: extension ∧ '.' ∉ extension ∧ '/' ∉ extension := by
  obtain ⟨ext, hext, stem, rfl⟩ := exists_extension h
  have hplain : ∀ ext ∈ [o, bc, lo], ∃ extension, ext = '.' :: extension ∧
      '.' ∉ extension ∧ '/' ∉ extension := by
    simp [o, bc, lo]
  obtain ⟨extension, rfl, hdot, hslash⟩ := hplain ext hext
  exact ⟨stem, extension, rfl, hdot, hslash⟩

theorem mem_globLanguage_star (dir name extension : Str) :
    dir ++ (name ++ '.' :: extension) ∈ globLanguage (dir ++ '*' :: '.' :: extension) := by
  refine append_mem_product_append (mem_globLanguage_self dir) ?_
  exact mem_product_cons.mpr ⟨name, mem_lang_of_eq_top charLanguage_star name, _,
    mem_globLanguage_self ('.' :: extension), rfl⟩

theorem mem_globLanguage_objectSelector (h : isLocalObject s = true) :
    s ∈ globLanguage (objectSelector s) := by
  obtain ⟨stem, extension, hs, hdot, hslash⟩ := exists_stem h
  have hext : rfind s '.' = some (stem, extension) := cutLast_eq_some_iff.mpr ⟨hs, hdot⟩
  unfold objectSelector
  simp only [hext]
  cases hdir : rfind s '/' with
  | none =>
    rw [hs]
    exact mem_globLanguage_star [] stem extension
  | some cut =>
    obtain ⟨dir, name⟩ := cut
    obtain ⟨hcut, -⟩ := cutLast_eq_some_iff.mp hdir
    -- the dot is behind the slash, as there is no slash behind the dot
    have hsuffix : '.' :: extension <:+ name := by
      rcases List.suffix_or_suffix_of_suffix ⟨stem, hs.symm⟩ ⟨dir, hcut.symm⟩ with h | h
      · exact (List.suffix_cons_iff.mp h).resolve_left (by simp)
      · exact absurd (h.subset List.mem_cons_self) (by simp [hslash])
    obtain ⟨base, rfl⟩ := hsuffix
    rw [hcut]
    simpa using mem_globLanguage_star (dir ++ ['/']) base extension

/-- **The selector of an object file selects it**, unless the path starts with `^` and has a
slash. -/
theorem selects_objectSelector (h : isLocalObject s = true) (hcaret : ¬ (['^'] <+: s ∧ '/' ∈ s)) :
    Selects (objectSelector s) s := by
  refine Or.inr ⟨?_, s, List.suffix_refl s, mem_globLanguage_objectSelector h⟩
  rintro ⟨rest, hrest⟩
  unfold objectSelector at hrest
  cases hdir : rfind s '/' with
  | none =>
    rw [hdir] at hrest
    exact absurd (List.head_eq_of_cons_eq hrest) (by decide)
  | some cut =>
    obtain ⟨dir, name⟩ := cut
    obtain ⟨rfl, -⟩ := cutLast_eq_some_iff.mp hdir
    rw [hdir] at hrest
    cases dir with
    | nil => exact absurd (List.head_eq_of_cons_eq hrest) (by decide)
    | cons c dir =>
      obtain rfl := List.head_eq_of_cons_eq hrest
      exact hcaret ⟨⟨_, rfl⟩, by simp⟩

theorem Selects.getLast {selector : Str} (h : Selects (selector ++ ['a']) s) : ['a'] <:+ s := by
  have hlast : ∀ {q w : Str}, w ∈ globLanguage (q ++ ['a']) → ['a'] <:+ w := by
    intro q w hw
    obtain ⟨u, -, v, hv, rfl⟩ := mem_product_concat.mp hw
    obtain ⟨c, rfl, hc⟩ := (mem_charLanguage (by decide)).mp hv
    obtain rfl := hc.resolve_left (by decide)
    exact List.suffix_append u _
  rcases h with ⟨rest, heq, hmem⟩ | ⟨-, suffix, hsuffix, hmem⟩
  · rcases List.eq_nil_or_concat' rest with rfl | ⟨q, c, rfl⟩
    · exact absurd (congrArg List.getLast? heq) (by simp)
    · obtain rfl : 'a' = c :=
        (List.append_singleton_inj.mp (heq.trans (List.cons_append ..).symm)).2
      exact hlast hmem
  · exact (hlast hmem).trans hsuffix

theorem not_selects_of_suffix {selector : Str} (hsel : ['a'] <:+ selector)
    (h : isLocalObject s = true) : ¬ Selects selector s := by
  intro hselects
  obtain ⟨q, rfl⟩ := hsel
  obtain ⟨ext, hext, hsuffix⟩ := exists_extension h
  have hapart : ∀ ext ∈ [o, bc, lo], ¬ ext <:+ ['a'] ∧ ¬ ['a'] <:+ ext := by decide
  exact (List.suffix_or_suffix_of_suffix hsuffix hselects.getLast).elim (hapart ext hext).1
    (hapart ext hext).2

end

/-! ## Templates select the objects they were generated from -/

/-- The pattern that is made of the argument `t` selects `s`. -/
def PatternSelects (t s : Str) : Prop :=
  t = "-lstdc++".toList ∧ Selects "libstdc++.bc".toList s ∨
    isLocalObject t = true ∧ Selects (objectSelector t) s

theorem exists_scan {arguments : List Str} (h : "-shared".toList ∉ arguments) (p : CommandLine) :
    ∃ p', arguments.foldlM scanArgument p = .ok p' := by
  induction arguments generalizing p with
  | nil => exact ⟨p, rfl⟩
  | cons s arguments ih =>
    rw [List.mem_cons, not_or] at h
    have hstep : ∃ p', scanArgument p s = .ok p' := by
      unfold scanArgument
      rw [if_neg (Ne.symm h.1)]
      repeat' split
      all_goals exact ⟨_, rfl⟩
    obtain ⟨p', hp'⟩ := hstep
    rw [List.foldlM_cons, hp']
    exact ih h.2 p'

theorem generated_eq {env : Env} {arguments : List Str} {p : CommandLine}
    (hp : arguments.foldlM scanArgument {} = .ok p) :
    internalGenerateBoilerplateConfiguration env arguments =
      .ok (generateLoop env p.librarySearchpath arguments {}) := by
  unfold internalGenerateBoilerplateConfiguration
  rw [hp]
  rfl

theorem exists_generateLoop {env : Env} {arguments : List Str} {g : Generated}
    (hg : internalGenerateBoilerplateConfiguration env arguments = .ok g) :
    ∃ librarySearchpath, g = generateLoop env librarySearchpath arguments {} := by
  cases hp : arguments.foldlM scanArgument {} with
  | error message =>
    unfold internalGenerateBoilerplateConfiguration at hg
    rw [hp] at hg
    cases hg
  | ok p =>
    rw [generated_eq hp] at hg
    exact ⟨_, (Except.ok.inj hg).symm⟩

/-- The context `main` matches each local object, with the exception of those with `^` that no
pattern of another argument selects. -/
theorem matches_generateLoop {env : Env} {librarySearchpath arguments : List Str} {s : Str}
    (hs : s ∈ visited arguments) (hobj : isLocalObject s = true) :
    (generateLoop env librarySearchpath arguments {}).main.matches s = true ↔
      ¬ (['^'] <+: s ∧ '/' ∈ s) ∨ ∃ t ∈ visited arguments, PatternSelects t s := by
  rw [generateLoop_eq]
  constructor
  · intro h
    obtain ⟨sel, hmem, hsel⟩ := List.any_eq_true.mp h
    have hselects := selector_iff.mp hsel
    rcases exists_of_mem_foldl hmem with hmem | ha | ⟨t, ht, ⟨rfl, rfl⟩ | ⟨ht', rfl⟩⟩
    · cases hmem
    · exact absurd hselects (not_selects_of_suffix ha hobj)
    · exact Or.inr ⟨_, ht, Or.inl ⟨rfl, hselects⟩⟩
    · exact Or.inr ⟨t, ht, Or.inr ⟨ht', hselects⟩⟩
  · intro h
    have hobject : ∀ t ∈ visited arguments, isLocalObject t = true → objectSelector t ∈
        ((visited arguments).foldl (addSelectors env librarySearchpath) {}).mainSelectors := by
      intro t ht ht'
      refine mem_mainSelectors_foldl ht (fun g ↦ ?_) {}
      rw [addSelectors_of_isLocalObject ht']
      exact List.mem_insert_self
    apply List.any_eq_true.mpr
    rcases h with hcaret | ⟨t, ht, ⟨rfl, hsel⟩ | ⟨ht', hsel⟩⟩
    · exact ⟨_, hobject s hs hobj, selector_iff.mpr (selects_objectSelector hobj hcaret)⟩
    · refine ⟨_, mem_mainSelectors_foldl ht (fun g ↦ ?_) {}, selector_iff.mpr hsel⟩
      rw [addSelectors, if_pos rfl]
      exact List.mem_insert_self
    · exact ⟨_, hobject t ht ht', selector_iff.mpr hsel⟩

/-- A directory without files -/
def emptyEnv : Env where
  cwd := "/w".toList
  content _ := none
  nm _ := ⟨[], []⟩
  stubs := ⟨[], []⟩
  links _ _ := true
  linked := .union
  defines_linked := Bitcode.defines_union
  declares_linked := Bitcode.declares_union
  verifies _ := true
  applicationDir := "/cali".toList
  randomString _ := []
  newFiles := []

section

variable {env : Env} {l : LinkerArguments}

theorem endsWith_la_of_takesNext {arg : Str} (h : takesNext arg = true) :
    endsWith arg la = false := by
  simp only [takesNext, Bool.or_eq_true, beq_iff_eq] at h
  rcases h with (rfl | rfl) | rfl <;> decide

/-- Without libtool files `build_libraries` collects the contexts of the visited arguments. -/
theorem exists_buildLoop_visited (env : Env) (l : LinkerArguments) {arguments : List Str}
    (hla : ∀ s ∈ visited arguments, endsWith s la = false) {fuel : ℕ}
    (hfuel : arguments.length < fuel) (i : ℕ) (libraries : Libraries) :
    ∃ r, buildLoop env l fuel i arguments libraries = some r ∧ r.1 = arguments ∧
      r.2.libraries = collect ((visited arguments).filterMap (contextFile env l))
        libraries.libraries := by
  induction fuel generalizing arguments i libraries with
  | zero => exact absurd hfuel (Nat.not_lt_zero _)
  | succ fuel ih =>
    cases arguments with
    | nil => exact ⟨_, rfl, rfl, rfl⟩
    | cons arg arguments =>
      have hfuel : arguments.length < fuel := Nat.lt_of_succ_lt_succ hfuel
      by_cases hnext : takesNext arg = true
      · have hnotla := Bool.eq_false_iff.mp (endsWith_la_of_takesNext hnext)
        cases arguments with
        | nil =>
          rw [buildLoop, if_neg hnotla, if_pos hnext]
          exact ⟨_, rfl, rfl, by rw [visited, if_pos hnext]; rfl⟩
        | cons value arguments =>
          rw [visited_cons_cons hnext] at hla ⊢
          obtain ⟨r, hr, hargs, hlibs⟩ :=
            ih hla (Nat.lt_of_succ_lt hfuel) (i + 2) libraries
          rw [buildLoop, if_neg hnotla, if_pos hnext, hr]
          exact ⟨_, rfl, congrArg (arg :: value :: ·) hargs, hlibs⟩
      · rw [visited_cons hnext] at hla ⊢
        obtain ⟨harg, hla⟩ := List.forall_mem_cons.mp hla
        obtain ⟨r, hr, hargs, hlibs⟩ :=
          ih hla hfuel (i + 1) (addArgument env l libraries arg i)
        rw [buildLoop.eq_def]
        simp only [harg, hnext, hr]
        refine ⟨_, rfl, congrArg (arg :: ·) hargs, ?_⟩
        rw [hlibs, libraries_addArgument]
        cases hfile : contextFile env l arg <;> simp [collect, hfile]

/-- With the template as the only context, each local object is a file of `main`. -/
theorem objects_in_main {arguments : List Str} {g : Generated}
    (hg : internalGenerateBoilerplateConfiguration env arguments = .ok g)
    (hla : ∀ s ∈ visited arguments, endsWith s la = false) (hl : l.config.contexts = [g.main]) :
    ∃ r, buildLoop env l (arguments.length + 1) 0 arguments {} = some r ∧ r.1 = arguments ∧
      ∀ s ∈ visited arguments, isLocalObject s = true → ¬ (['^'] <+: s ∧ '/' ∈ s) →
        s ∈ filesOf r.2.libraries mainName := by
  obtain ⟨r, hr, hargs, hlibs⟩ := exists_buildLoop_visited env l hla (Nat.lt_succ_self _) 0 {}
  refine ⟨r, hr, hargs, fun s hs hobj hcaret ↦ ?_⟩
  have hmatches : g.main.matches s = true := by
    obtain ⟨librarySearchpath, rfl⟩ := exists_generateLoop hg
    exact (matches_generateLoop hs hobj).mpr (Or.inl hcaret)
  have hfile : contextFile env l s = some (g.main, s) := by
    simp [contextFile, inputFile_of_isLocalObject l hobj, contextOf, hl, hmatches]
  rw [hlibs]
  exact ((collected_collect _).files mainName s).mpr
    ⟨_, List.mem_filterMap.mpr ⟨s, hs, hfile⟩, rfl, rfl⟩

end

end Cali.Linker
