import Cali.Linker.Arguments

/-!
# The contexts of a command line

`build_libraries` collects the contexts in the order in which the arguments first mention
them, each once, and gives each one the files that belong to it (`Collected`).
-/

namespace Cali.Linker

variable {env : Env}

/-- The context that an argument belongs to, with the file that it adds. -/
def contextFile (env : Env) (l : LinkerArguments) (arg : Str) : Option (ContextConfig × Str) :=
  (inputFile env l arg).bind fun f ↦ (contextOf l.config f.1).map (·, f.1)

/-- The contexts that are collected from the files. -/
def collect (es : List (ContextConfig × Str)) (libraries : List LibraryContext) :
    List LibraryContext :=
  es.foldl (fun libraries e ↦ addFileTo e.1 e.2 libraries) libraries

theorem libraries_addArgument {l : LinkerArguments} {s : Libraries} {arg : Str} {i : ℕ} :
    (addArgument env l s arg i).libraries = collect (contextFile env l arg).toList s.libraries := by
  unfold addArgument contextFile
  rcases inputFile env l arg with _ | ⟨filename, used⟩
  · rfl
  · cases hc : contextOf l.config filename with
    | none => cases used <;> simp [addFileToLibraryList, hc, collect]
    | some c => cases used <;> simp [addFileToLibraryList, hc, collect]

theorem exists_collect_buildLoop {l : LinkerArguments} {args : List Str} {n i : ℕ} {s : Libraries}
    {r : List Str × Libraries} (h : buildLoop env l n i args s = some r) :
    ∃ es, r.2.libraries = collect es s.libraries := by
  induction n generalizing i args s r with
  | zero => cases h
  | succ n ih =>
    cases args with
    | nil =>
      obtain rfl := Option.some.inj h
      exact ⟨[], rfl⟩
    | cons arg args =>
      simp only [buildLoop] at h
      split at h
      · exact ih h
      split at h
      · cases args with
        | nil =>
          obtain rfl := Option.some.inj h
          exact ⟨[], rfl⟩
        | cons next args =>
          obtain ⟨r', hr', rfl⟩ := Option.map_eq_some_iff.mp h
          obtain ⟨es, hes⟩ := ih hr'
          exact ⟨es, hes⟩
      · obtain ⟨r', hr', rfl⟩ := Option.map_eq_some_iff.mp h
        obtain ⟨es, hes⟩ := ih hr'
        rw [libraries_addArgument] at hes
        refine ⟨(contextFile env l arg).toList ++ es, ?_⟩
        rw [collect, List.foldl_append]
        exact hes

variable {c : ContextConfig} {f name : Str} {libraries : List LibraryContext}
  {es : List (ContextConfig × Str)}

/-- The files of the context with a name. -/
def filesOf (libraries : List LibraryContext) (name : Str) : List Str :=
  ((libraries.find? (·.config.name == name)).map LibraryContext.files).getD []

theorem configs_addFileTo :
    (addFileTo c f libraries).map LibraryContext.config =
      if c.name ∈ libraries.map (·.config.name) then libraries.map LibraryContext.config
      else libraries.map LibraryContext.config ++ [c] := by
  induction libraries with
  | nil => rfl
  | cons lib libraries ih =>
    unfold addFileTo
    by_cases hname : lib.config.name = c.name
    · simp [hname]
    · rw [if_neg hname, List.map_cons, ih, List.map_cons, List.map_cons]
      by_cases hmem : c.name ∈ libraries.map (·.config.name)
      · rw [if_pos hmem, if_pos (List.mem_cons_of_mem _ hmem)]
      · have hnew : c.name ∉ lib.config.name :: libraries.map (·.config.name) :=
          List.not_mem_cons_of_ne_of_not_mem (fun h ↦ hname h.symm) hmem
        rw [if_neg hmem, if_neg hnew, List.cons_append]

theorem mem_filesOf_addFileTo {f' : Str} :
    f' ∈ filesOf (addFileTo c f libraries) name ↔
      f' ∈ filesOf libraries name ∨ c.name = name ∧ f' = f := by
  induction libraries with
  | nil =>
    by_cases hname : c.name = name
    · simp [addFileTo, filesOf, hname]
    · simp [addFileTo, filesOf, hname]
  | cons lib libraries ih =>
    unfold addFileTo
    by_cases hlib : lib.config.name = c.name
    · rw [if_pos hlib]
      by_cases hname : c.name = name
      · by_cases hf : f ∈ lib.files
        · simp only [filesOf, List.find?_cons, hlib.trans hname, BEq.rfl, hf, hname, ↓reduceIte,
            Option.map_some, Option.getD_some, true_and]
          exact ⟨Or.inl, fun h ↦ h.elim id fun h ↦ h ▸ hf⟩
        · simp [filesOf, hlib, hname, hf]
      · have hne : lib.config.name ≠ name := fun h ↦ hname (hlib.symm.trans h)
        simp [filesOf, hne, hname]
    · rw [if_neg hlib]
      by_cases hname : lib.config.name = name
      · have hne : c.name ≠ name := fun h ↦ hlib (hname.trans h.symm)
        simp [filesOf, hname, hne]
      · simpa [filesOf, List.find?_cons, hname] using ih

theorem fresh_addFileTo
    (h : ∀ lib ∈ libraries, lib.isMainModule = false ∧ lib.rewrittenArgs = []) :
    ∀ lib ∈ addFileTo c f libraries, lib.isMainModule = false ∧ lib.rewrittenArgs = [] := by
  induction libraries with
  | nil => simp [addFileTo]
  | cons lib libraries ih =>
    obtain ⟨hlib, hrest⟩ := List.forall_mem_cons.mp h
    unfold addFileTo
    split
    · exact List.forall_mem_cons.mpr ⟨hlib, hrest⟩
    · exact List.forall_mem_cons.mpr ⟨hlib, ih hrest⟩

/-- **Collecting the contexts.**  They stand in the order in which they are first
mentioned, each once, and have the files that belong to them. -/
structure Collected (es : List (ContextConfig × Str)) (libraries : List LibraryContext) : Prop where
  first : (libraries.map LibraryContext.config).head? = (es.map Prod.fst).head?
  configs : ∀ c ∈ libraries.map LibraryContext.config, c ∈ es.map Prod.fst
  names : (libraries.map (·.config.name)).Nodup
  files : ∀ name f, f ∈ filesOf libraries name ↔ ∃ e ∈ es, e.1.name = name ∧ e.2 = f
  fresh : ∀ lib ∈ libraries, lib.isMainModule = false ∧ lib.rewrittenArgs = []

theorem Collected.add (h : Collected es libraries) :
    Collected (es ++ [(c, f)]) (addFileTo c f libraries) where
  first := by
    rw [configs_addFileTo, List.map_append]
    split
    next hmem =>
      rw [List.head?_append, ← h.first]
      cases libraries with
      | nil => cases hmem
      | cons lib libraries => rfl
    next => rw [List.head?_append, List.head?_append, h.first]; rfl
  configs c' hc' := by
    rw [configs_addFileTo] at hc'
    rw [List.map_append, List.mem_append]
    split at hc'
    · exact Or.inl (h.configs c' hc')
    · rcases List.mem_append.mp hc' with hc' | hc'
      · exact Or.inl (h.configs c' hc')
      · exact Or.inr hc'
  names := by
    have hmap : ∀ ls : List LibraryContext, ls.map (·.config.name) =
        (ls.map LibraryContext.config).map ContextConfig.name := by simp
    rw [hmap, configs_addFileTo]
    split
    next => rw [← hmap]; exact h.names
    next hnew =>
      rw [List.map_append, ← hmap, List.nodup_append]
      refine ⟨h.names, List.nodup_singleton _, fun x hx y hy hxy ↦ ?_⟩
      obtain rfl : y = c.name := List.mem_singleton.mp hy
      exact hnew (hxy ▸ hx)
  files name f' := by
    rw [mem_filesOf_addFileTo, h.files]
    simp only [List.mem_append, List.mem_singleton, or_and_right, exists_or, exists_eq_left]
    exact or_congr_right (and_congr_right fun _ ↦ eq_comm)
  fresh := fresh_addFileTo h.fresh

theorem collected_collect (es : List (ContextConfig × Str)) : Collected es (collect es []) := by
  have hrun : ∀ (es done : List (ContextConfig × Str)) (libraries : List LibraryContext),
      Collected done libraries → Collected (done ++ es) (collect es libraries) := by
    intro es
    induction es with
    | nil =>
      intro done libraries h
      rwa [List.append_nil]
    | cons e es ih =>
      intro done libraries h
      have hrest := ih _ _ (h.add (c := e.1) (f := e.2))
      rwa [List.append_assoc] at hrest
  refine hrun es [] [] ⟨rfl, ?_, List.nodup_nil, ?_, ?_⟩
  · simp
  · simp [filesOf]
  · simp

theorem map_markMain {β : Type} (libraries : List LibraryContext) {g : LibraryContext → β}
    (hg : ∀ lib, g { lib with isMainModule := true } = g lib) :
    (markMain libraries).map g = libraries.map g := by
  cases libraries with
  | nil => rfl
  | cons lib libraries =>
    simp only [markMain]
    split
    · rw [List.map_map]
      refine List.map_congr_left fun lib' _ ↦ ?_
      simp only [Function.comp_apply]
      split
      · exact hg lib'
      · rfl
    · rw [List.map_cons, List.map_cons, hg]

theorem length_markMain : (markMain libraries).length = libraries.length := by
  simpa using congrArg List.length (map_markMain libraries (g := fun _ ↦ ()) fun _ ↦ rfl)

/-- **Making the modules.**  Each library has its module, made from its files. -/
theorem modules_of_getModules {outputName : Str} {n : ℕ} {ms : List (LibraryContext × IpcModule)}
    (h : getModules env outputName n libraries = some ms) :
    ms.map Prod.fst = libraries ∧ ∀ k m, ms[k]? = some m →
      newIpcModulesFromFiles env outputName (n + k) m.1.files = some m.2 := by
  induction libraries generalizing n ms with
  | nil =>
    obtain rfl := Option.some.inj h
    exact ⟨rfl, nofun⟩
  | cons lib libraries ih =>
    obtain ⟨m, hm, h⟩ := Option.bind_eq_some_iff.mp h
    obtain ⟨ms', hms', rfl⟩ := Option.map_eq_some_iff.mp h
    obtain ⟨hfst, hmade⟩ := ih hms'
    refine ⟨by rw [List.map_cons, hfst], fun k m' hm' ↦ ?_⟩
    cases k with
    | zero =>
      obtain rfl := Option.some.inj hm'
      exact hm
    | succ k =>
      rw [show n + (k + 1) = n + 1 + k by omega]
      exact hmade k m' hm'

end Cali.Linker
