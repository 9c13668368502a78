import Cali.Linker.Collect
import Cali.Linker.Loading

/-!
# The order of the input files

`build_libraries` collects the contexts in the order in which the arguments first mention
them, and `createIpcJail` takes the first context for the one whose calls are redirected.
Which context is the main module is decided by its name instead.  So the redirected symbols
are the ones that cross from the main module to the library only when the first input file
belongs to the main module.
-/

namespace Cali.Linker

variable {env : Env}

/-! ## Input files -/

/-- The arguments name input files only, and these are the arguments once all libtool files
have been replaced. -/
inductive Expands (env : Env) : List Str → List Str → Prop
  | nil : Expands env [] []
  | libtool {arg : Str} {args xs : List Str} (hla : endsWith arg la = true)
      (h : Expands env (replaceLibtool env arg ++ args) xs) : Expands env (arg :: args) xs
  | file {arg : Str} {args xs : List Str} (hla : endsWith arg la = false)
      (hnext : takesNext arg = false) (h : Expands env args xs) :
      Expands env (arg :: args) (arg :: xs)

namespace Expands

variable {args args' xs xs' ys : List Str}

theorem append (h : Expands env args xs) (h' : Expands env args' xs') :
    Expands env (args ++ args') (xs ++ xs') := by
  induction h with
  | nil => exact h'
  | libtool hla _ ih => exact .libtool hla (by rwa [List.append_assoc] at ih)
  | file hla hnext _ ih => exact .file hla hnext ih

theorem exists_append (args args' : List Str) (h : Expands env (args ++ args') ys) :
    ∃ xs xs', ys = xs ++ xs' ∧ Expands env args xs ∧ Expands env args' xs' := by
  generalize hargs : args ++ args' = all at h
  induction h generalizing args with
  | nil =>
    obtain ⟨rfl, rfl⟩ := List.append_eq_nil_iff.mp hargs
    exact ⟨[], [], rfl, .nil, .nil⟩
  | @libtool arg rest ys hla h ih =>
    cases args with
    | nil =>
      obtain rfl : args' = arg :: rest := hargs
      exact ⟨[], ys, rfl, .nil, .libtool hla h⟩
    | cons _ args =>
      obtain ⟨rfl, rfl⟩ := List.cons.inj hargs
      obtain ⟨xs, xs', hys, hxs, hxs'⟩ := ih _ (List.append_assoc ..)
      exact ⟨xs, xs', hys, .libtool hla hxs, hxs'⟩
  | @file arg rest ys hla hnext h ih =>
    cases args with
    | nil =>
      obtain rfl : args' = arg :: rest := hargs
      exact ⟨[], arg :: ys, rfl, .nil, .file hla hnext h⟩
    | cons _ args =>
      obtain ⟨rfl, rfl⟩ := List.cons.inj hargs
      obtain ⟨xs, xs', rfl, hxs, hxs'⟩ := ih _ rfl
      exact ⟨_ :: xs, xs', rfl, .file hla hnext hxs, hxs'⟩

theorem unique (h : Expands env args xs) (h' : Expands env args ys) : xs = ys := by
  induction h generalizing ys with
  | nil =>
    cases h'
    rfl
  | libtool hla _ ih =>
    cases h' with
    | libtool _ h' => exact ih h'
    | file hla' _ _ => exact absurd (hla.symm.trans hla') (by decide)
  | file hla hnext _ ih =>
    cases h' with
    | libtool hla' _ => exact absurd (hla.symm.trans hla') (by decide)
    | file _ _ h' => rw [ih h']

theorem perm (hperm : args.Perm args') (h : Expands env args xs) (h' : Expands env args' xs') :
    xs.Perm xs' := by
  suffices ∃ ys, Expands env args' ys ∧ xs.Perm ys by
    obtain ⟨ys, hys, hxs⟩ := this
    rwa [h'.unique hys]
  clear h'
  induction hperm generalizing xs with
  | nil =>
    cases h
    exact ⟨[], .nil, .nil⟩
  | @cons arg args args' _ ih =>
    obtain ⟨xs₁, xs₂, rfl, h₁, h₂⟩ := exists_append [arg] args h
    obtain ⟨ys, hys, hp⟩ := ih h₂
    exact ⟨xs₁ ++ ys, h₁.append hys, hp.append_left xs₁⟩
  | @swap arg arg' args =>
    obtain ⟨xs₁, xs₂, rfl, h₁, h⟩ := exists_append [arg'] (arg :: args) h
    obtain ⟨xs₃, xs₄, rfl, h₃, h₄⟩ := exists_append [arg] args h
    refine ⟨xs₃ ++ (xs₁ ++ xs₄), h₃.append (h₁.append h₄), ?_⟩
    rw [← List.append_assoc, ← List.append_assoc]
    exact List.perm_append_comm.append_right xs₄
  | trans _ _ ih₁ ih₂ =>
    obtain ⟨ys, hys, hp⟩ := ih₁ h
    obtain ⟨zs, hzs, hp'⟩ := ih₂ hys
    exact ⟨zs, hzs, hp.trans hp'⟩

end Expands

theorem libraries_buildLoop {l : LinkerArguments} {args xs : List Str} (hx : Expands env args xs)
    {n i : ℕ} {s : Libraries} {r : List Str × Libraries}
    (h : buildLoop env l n i args s = some r) :
    r.2.libraries = collect (xs.filterMap (contextFile env l)) s.libraries := by
  induction hx generalizing n i s r with
  | nil =>
    cases n with
    | zero => cases h
    | succ n =>
      obtain rfl := Option.some.inj h
      rfl
  | libtool hla _ ih =>
    cases n with
    | zero => cases h
    | succ n =>
      simp only [buildLoop, hla, ↓reduceIte] at h
      exact ih h
  | @file arg args xs hla hnext _ ih =>
    cases n with
    | zero => cases h
    | succ n =>
      simp only [buildLoop, hla, hnext, Bool.false_eq_true, ↓reduceIte] at h
      obtain ⟨r', hr', rfl⟩ := Option.map_eq_some_iff.mp h
      have hlibs := ih hr'
      rw [libraries_addArgument] at hlibs
      change r'.2.libraries = _
      rw [hlibs, List.filterMap_cons]
      cases contextFile env l arg with
      | none => rfl
      | some e => rfl

variable {c : ContextConfig} {f : Str} {libraries : List LibraryContext}
  {es : List (ContextConfig × Str)}

/-! ## Two contexts -/

/-- The symbols that are redirected in the main module: only the first module is rewritten. -/
def Prepared.redirectedInMain (p : Prepared) : Finset Str :=
  match p.modules with
  | [] => ∅
  | (lib, _) :: _ => if lib.isMainModule = true then p.redirected else ∅

/-- The imports of the main module that another context exports. -/
def Prepared.crossing (env : Env) (p : Prepared) : Finset Str :=
  ((p.modules.filter fun m ↦ m.1.isMainModule).toFinset.biUnion fun m ↦
      m.2.imports env m.1.config) ∩
    (p.modules.filter fun m ↦ !m.1.isMainModule).toFinset.biUnion fun m ↦
      m.2.exports env m.1.config

/-- The files that the arguments give to a context. -/
def contextFiles (env : Env) (l : LinkerArguments) (xs : List Str) (c : ContextConfig) : List Str :=
  (xs.filterMap (contextFile env l)).filterMap fun e ↦ if e.1 = c then some e.2 else none

/-- The first argument that belongs to a context belongs to this one. -/
def FirstIn (env : Env) (l : LinkerArguments) (xs : List Str) (c : ContextConfig) : Prop :=
  (xs.findSome? (contextFile env l)).map Prod.fst = some c

instance (l : LinkerArguments) (xs : List Str) : Decidable (FirstIn env l xs c) :=
  inferInstanceAs (Decidable (_ = _))

/-- Both runs redirect the same symbols, and these are the ones that cross. -/
def RedirectsSame (env : Env) (p₁ p₂ : Prepared) : Prop :=
  p₁.redirectedInMain = p₂.redirectedInMain ∧ p₁.redirectedInMain = p₁.crossing env

section TwoContexts

variable {l : LinkerArguments} {main lib : ContextConfig} {xs : List Str}

theorem Collected.pair (h : Collected es libraries) (hes : ∀ e ∈ es, e.1 = main ∨ e.1 = lib)
    (hlen : 2 ≤ libraries.length) :
    ∃ a b, libraries = [a, b] ∧ a.config.name ≠ b.config.name ∧
      (a.config = main ∧ b.config = lib ∨ a.config = lib ∧ b.config = main) := by
  have hconfig : ∀ a ∈ libraries, a.config = main ∨ a.config = lib := by
    intro a ha
    obtain ⟨e, he, hea⟩ := List.mem_map.mp (h.configs _ (List.mem_map_of_mem ha))
    rw [← hea]
    exact hes e he
  match libraries, hlen with
  | a :: b :: rest, _ =>
    have hnames := h.names
    simp only [List.map_cons, List.nodup_cons, List.mem_cons, not_or] at hnames
    obtain ⟨⟨hab, ha⟩, hb, -⟩ := hnames
    have hne : a.config ≠ b.config := fun heq ↦ hab (congrArg _ heq)
    have hrest : rest = [] := by
      refine List.eq_nil_iff_forall_not_mem.mpr fun d hd ↦ ?_
      have hda : a.config ≠ d.config := fun heq ↦
        ha (List.mem_map.mpr ⟨d, hd, congrArg _ heq.symm⟩)
      have hdb : b.config ≠ d.config := fun heq ↦
        hb (List.mem_map.mpr ⟨d, hd, congrArg _ heq.symm⟩)
      -- three contexts of which no two agree
      rcases hconfig a (by simp) with h₁ | h₁ <;> rcases hconfig b (by simp) with h₂ | h₂ <;>
        rcases hconfig d (by simp [hd]) with h₃ | h₃ <;> simp_all
    subst hrest
    refine ⟨a, b, rfl, hab, ?_⟩
    rcases hconfig a (by simp) with h₁ | h₁ <;> rcases hconfig b (by simp) with h₂ | h₂ <;>
      simp_all

theorem firstIn_iff :
    FirstIn env l xs c ↔ ((xs.filterMap (contextFile env l)).map Prod.fst).head? = some c := by
  rw [FirstIn, List.head?_map, List.head?_filterMap]

theorem mem_contexts_of_contextFile (hcontexts : l.config.contexts.Perm [main, lib]) :
    ∀ e ∈ xs.filterMap (contextFile env l), e.1 = main ∨ e.1 = lib := by
  intro e he
  obtain ⟨arg, -, harg⟩ := List.mem_filterMap.mp he
  obtain ⟨f, -, hf⟩ := Option.bind_eq_some_iff.mp harg
  obtain ⟨c, hc, rfl⟩ := Option.map_eq_some_iff.mp hf
  simpa using hcontexts.subset (List.mem_of_find?_eq_some hc)

theorem mem_contextFiles (hcontexts : l.config.contexts.Perm [main, lib])
    (hnames : main.name ≠ lib.name) (hc : c = main ∨ c = lib) :
    f ∈ contextFiles env l xs c ↔
      ∃ e ∈ xs.filterMap (contextFile env l), e.1.name = c.name ∧ e.2 = f := by
  unfold contextFiles
  rw [List.mem_filterMap]
  simp only [Option.ite_none_right_eq_some, Option.some.injEq]
  refine exists_congr fun e ↦ and_congr_right fun he ↦ and_congr_left fun _ ↦ ⟨congrArg _, ?_⟩
  intro hname
  rcases mem_contexts_of_contextFile hcontexts e he with h | h <;> rcases hc with rfl | rfl <;>
    simp_all

/-- **One run.**  What crosses depends on the files of the contexts only, and it is
redirected when the first file belongs to the main module. -/
structure Outcome (env : Env) (l : LinkerArguments) (main lib : ContextConfig) (xs : List Str)
    (p : Prepared) : Prop where
  crossing : ∀ x, x ∈ p.crossing env ↔
    Imports env main (contextFiles env l xs main) x ∧ Exports env lib (contextFiles env l xs lib) x
  redirected : ∀ x, x ∈ p.redirectedInMain ↔
    FirstIn env l xs main ∧ (∃ m, LinkedFrom env (contextFiles env l xs main) m) ∧
      x ∈ p.crossing env

variable {s : Libraries} {a b : LibraryContext} {p : Prepared}

theorem prepareIpc_pair
    (hs : s.libraries = [a, b]) (h : prepareIpc env l s = some p) :
    ∃ ma mb, newIpcModulesFromFiles env (outputName l) 0 a.files = some ma ∧
      newIpcModulesFromFiles env (outputName l) 1 b.files = some mb ∧
      p.modules = [(a, ma), (b, mb)] ∧
      p.redirected = createCommunicationPair env (a, ma) (b, mb) := by
  obtain ⟨ms, hms, h⟩ := Option.bind_eq_some_iff.mp h
  obtain ⟨hfst, hmade⟩ := modules_of_getModules hms
  rw [hs] at hfst
  match ms, hfst, h with
  | [(a', ma), (b', mb)], hfst, h =>
    simp only [List.map_cons, List.map_nil, List.cons.injEq, and_true] at hfst
    obtain ⟨rfl, rfl⟩ := hfst
    obtain rfl := Option.some.inj h
    exact ⟨ma, mb, hmade 0 _ rfl, hmade 1 _ rfl, rfl, rfl⟩

theorem outcome_main_first (hs : s.libraries = [a, b]) (ha : a.isMainModule = true)
    (hb : b.isMainModule = false) (hac : a.config = main) (hbc : b.config = lib)
    (haf : ∀ f, f ∈ a.files ↔ f ∈ contextFiles env l xs main)
    (hbf : ∀ f, f ∈ b.files ↔ f ∈ contextFiles env l xs lib)
    (hfirst : FirstIn env l xs main) (h : prepareIpc env l s = some p) :
    Outcome env l main lib xs p := by
  obtain ⟨ma, mb, hma, hmb, hmodules, hredirected⟩ := prepareIpc_pair hs h
  have hcross : p.crossing env = ma.imports env main ∩ mb.exports env lib := by
    simp [Prepared.crossing, hmodules, ha, hb, hac, hbc]
  refine ⟨fun x ↦ ?_, fun x ↦ ?_⟩
  · rw [hcross, Finset.mem_inter, mem_imports_iff hma, mem_exports_iff hmb, imports_congr haf,
      exports_congr hbf]
  · have hredir : p.redirectedInMain = createCommunicationPair env (a, ma) (b, mb) := by
      simp [Prepared.redirectedInMain, hmodules, ha, hredirected]
    rw [hredir, createCommunicationPair, hcross, hac, hbc, ← linkedFrom_congr haf,
      ← canRewrite_iff hma]
    split
    next hrw => simp [hrw, hfirst, and_comm]
    next hrw => simp [hrw]

/-- The run in which the library comes first: nothing is redirected in the main module. -/
theorem outcome_lib_first (hs : s.libraries = [a, b]) (ha : a.isMainModule = false)
    (hb : b.isMainModule = true) (hac : a.config = lib) (hbc : b.config = main)
    (haf : ∀ f, f ∈ a.files ↔ f ∈ contextFiles env l xs lib)
    (hbf : ∀ f, f ∈ b.files ↔ f ∈ contextFiles env l xs main)
    (hfirst : ¬ FirstIn env l xs main) (h : prepareIpc env l s = some p) :
    Outcome env l main lib xs p := by
  obtain ⟨ma, mb, hma, hmb, hmodules, hredirected⟩ := prepareIpc_pair hs h
  refine ⟨fun x ↦ ?_, fun x ↦ ?_⟩
  · have hcross : p.crossing env = mb.imports env main ∩ ma.exports env lib := by
      simp [Prepared.crossing, hmodules, ha, hb, hac, hbc]
    rw [hcross, Finset.mem_inter, mem_imports_iff hmb, mem_exports_iff hma, imports_congr hbf,
      exports_congr haf]
  · have hredir : p.redirectedInMain = ∅ := by
      simp [Prepared.redirectedInMain, hmodules, ha]
    simp [hredir, hfirst]

theorem outcome_of_link {n : ℕ} {r : Linking} (hcontexts : l.config.contexts.Perm [main, lib])
    (hmain : main.name = mainName) (hlib : lib.name ≠ mainName)
    (hx : Expands env l.arguments xs) (h : link env l n = some r) :
    Outcome env l main lib xs r.prepared := by
  have hnames : main.name ≠ lib.name := fun heq ↦ hlib (heq ▸ hmain)
  obtain ⟨⟨args, s⟩, hs, h⟩ := Option.bind_eq_some_iff.mp h
  obtain ⟨⟨args', s'⟩, hloop, heq⟩ := Option.map_eq_some_iff.mp hs
  obtain ⟨rfl, rfl⟩ := Prod.mk.inj heq
  have hlibs := libraries_buildLoop hx hloop
  have hcollected := collected_collect (xs.filterMap (contextFile env l))
  rw [← hlibs] at hcollected
  split at h
  next hchanges =>
    obtain ⟨p, hp, rfl⟩ := Option.map_eq_some_iff.mp h
    have hlen : 2 ≤ s'.libraries.length := by
      have := (Bool.and_eq_true ..).mp hchanges
      simpa [length_markMain] using this.1
    obtain ⟨a, b, (hab : s'.libraries = [a, b]), hne, hconfig⟩ :=
      hcollected.pair (mem_contexts_of_contextFile hcontexts) hlen
    have hfresh := hcollected.fresh
    have haf : ∀ f, f ∈ a.files ↔ f ∈ contextFiles env l xs a.config := by
      intro f
      rw [mem_contextFiles hcontexts hnames (by tauto), ← hcollected.files, hab]
      simp [filesOf]
    have hbf : ∀ f, f ∈ b.files ↔ f ∈ contextFiles env l xs b.config := by
      intro f
      rw [mem_contextFiles hcontexts hnames (by tauto), ← hcollected.files, hab]
      simp [filesOf, hne]
    have hfirst : FirstIn env l xs main ↔ a.config = main := by
      rw [firstIn_iff, ← hcollected.first, hab]
      simp
    rw [hab] at hfresh
    rcases hconfig with ⟨hac, hbc⟩ | ⟨hac, hbc⟩
    · rw [hac] at haf
      rw [hbc] at hbf
      have hmark : markMain s'.libraries = [{ a with isMainModule := true }, b] := by
        rw [hab]
        simp [markMain, hac, hbc, hmain, hlib]
      exact outcome_main_first (a := { a with isMainModule := true }) hmark rfl
        (hfresh b (by simp)).1 hac hbc haf hbf (hfirst.mpr hac) hp
    · rw [hac] at haf
      rw [hbc] at hbf
      have hmark : markMain s'.libraries = [a, { b with isMainModule := true }] := by
        rw [hab]
        simp [markMain, hac, hbc, hmain, hlib]
      refine outcome_lib_first (b := { b with isMainModule := true }) hmark
        (hfresh a (by simp)).1 rfl hac hbc haf hbf ?_ hp
      rw [hfirst, hac]
      exact fun heq ↦ hnames (congrArg _ heq.symm)
  next => cases h

theorem Outcome.redirectedInMain_eq {p : Prepared} (h : Outcome env l main lib xs p)
    (hrewritable : ∃ m, LinkedFrom env (contextFiles env l xs main) m) :
    p.redirectedInMain = if FirstIn env l xs main then p.crossing env else ∅ := by
  ext x
  rw [h.redirected]
  split
  next hfirst => exact ⟨fun hx ↦ hx.2.2, fun hx ↦ ⟨hfirst, hrewritable, hx⟩⟩
  next hfirst => exact ⟨fun hx ↦ absurd hx.1 hfirst, fun hx ↦ absurd hx (Finset.notMem_empty x)⟩

theorem mem_contextFiles_of_perm {xs₁ xs₂ : List Str} (h : xs₁.Perm xs₂) (f : Str) :
    f ∈ contextFiles env l xs₁ c ↔ f ∈ contextFiles env l xs₂ c :=
  ((h.filterMap _).filterMap _).mem_iff

/-- **Two orders of the input files.**  The same symbols are redirected in the main module,
and all that cross, exactly when each command line names a file of the main module before
any file of the library, or nothing crosses at all. -/
theorem redirectsSame_iff {args₁ args₂ xs₁ xs₂ : List Str} {n₁ n₂ : ℕ} {r₁ r₂ : Linking}
    (hcontexts : l.config.contexts.Perm [main, lib]) (hmain : main.name = mainName)
    (hlib : lib.name ≠ mainName) (hperm : args₁.Perm args₂)
    (hx₁ : Expands env args₁ xs₁) (hx₂ : Expands env args₂ xs₂)
    (h₁ : link env { l with arguments := args₁ } n₁ = some r₁)
    (h₂ : link env { l with arguments := args₂ } n₂ = some r₂)
    (hrewritable : ∃ m, LinkedFrom env (contextFiles env l xs₁ main) m) :
    RedirectsSame env r₁.prepared r₂.prepared ↔
      FirstIn env l xs₁ main ∧ FirstIn env l xs₂ main ∨
        ∀ x, ¬ (Imports env main (contextFiles env l xs₁ main) x ∧
          Exports env lib (contextFiles env l xs₁ lib) x) := by
  have ho₁ : Outcome env l main lib xs₁ r₁.prepared := by
    have h := outcome_of_link (l := { l with arguments := args₁ }) hcontexts hmain hlib hx₁ h₁
    exact ⟨h.crossing, h.redirected⟩
  have ho₂ : Outcome env l main lib xs₂ r₂.prepared := by
    have h := outcome_of_link (l := { l with arguments := args₂ }) hcontexts hmain hlib hx₂ h₂
    exact ⟨h.crossing, h.redirected⟩
  have hfiles : ∀ c f, f ∈ contextFiles env l xs₁ c ↔ f ∈ contextFiles env l xs₂ c := fun c ↦
    mem_contextFiles_of_perm (hx₁.perm hperm hx₂)
  have hcross : r₁.prepared.crossing env = r₂.prepared.crossing env := by
    ext x
    rw [ho₁.crossing, ho₂.crossing, imports_congr (hfiles main), exports_congr (hfiles lib)]
  have hempty : (∀ x, ¬ (Imports env main (contextFiles env l xs₁ main) x ∧
      Exports env lib (contextFiles env l xs₁ lib) x)) ↔ r₁.prepared.crossing env = ∅ := by
    simp only [Finset.eq_empty_iff_forall_notMem, ho₁.crossing]
  have hrewritable₂ : ∃ m, LinkedFrom env (contextFiles env l xs₂ main) m := by
    rwa [← linkedFrom_congr (hfiles main)]
  rw [hempty, RedirectsSame, ho₁.redirectedInMain_eq hrewritable,
    ho₂.redirectedInMain_eq hrewritable₂, ← hcross]
  by_cases hf₁ : FirstIn env l xs₁ main
  · by_cases hf₂ : FirstIn env l xs₂ main
    · simp [hf₁, hf₂]
    · simp [hf₁, hf₂]
  · by_cases hf₂ : FirstIn env l xs₂ main
    · simp only [hf₁, hf₂, ↓reduceIte, false_and, false_or]
      exact ⟨fun h ↦ h.2.symm, fun h ↦ ⟨h.symm, h.symm⟩⟩
    · simp only [hf₁, hf₂, ↓reduceIte, false_and, false_or, true_and]
      exact eq_comm

end TwoContexts

/-! ## An instance -/

section Png

def pngMain : ContextConfig := { name := mainName, selectors := [".o".toList] }

def pngLibrary : ContextConfig := { name := "library".toList, selectors := ["libpng.so".toList] }

def pngEnv : Env where
  cwd := "/w".toList
  content path :=
    if path = "/w/main.o".toList then some (.blob (.bitcode ⟨["png_read".toList], ["main".toList]⟩))
    else if path = "/w/io.o".toList then some (.blob (.bitcode ⟨[], ["load".toList]⟩))
    else if path = "/w/libpng.so".toList then some (.blob .elf)
    else none
  nm path := if path = "/w/libpng.so".toList then ⟨[], ["png_read".toList]⟩ else ⟨[], []⟩
  stubs := ⟨[], []⟩
  links _ _ := true
  linked := .union
  defines_linked := Bitcode.defines_union
  declares_linked := Bitcode.declares_union
  verifies _ := true
  applicationDir := "/cali".toList
  randomString _ := []
  newFiles := []

def pngLinker : LinkerArguments where
  arguments := []
  config := { contexts := [pngLibrary, pngMain] }

def pngObjectsFirst : List Str := ["main.o".toList, "io.o".toList, "libpng.so".toList]

def pngLibraryBetween : List Str := ["io.o".toList, "libpng.so".toList, "main.o".toList]

/-- The library may stand anywhere after the first object. -/
theorem redirectsSame_objectFirst :
    ∃ r₁ r₂, link pngEnv { pngLinker with arguments := pngObjectsFirst } 9 = some r₁ ∧
      link pngEnv { pngLinker with arguments := pngLibraryBetween } 9 = some r₂ ∧
      RedirectsSame pngEnv r₁.prepared r₂.prepared := by
  obtain ⟨r₁, h₁⟩ : ∃ r, link pngEnv { pngLinker with arguments := pngObjectsFirst } 9 = some r :=
    Option.isSome_iff_exists.mp (by decide +kernel)
  obtain ⟨r₂, h₂⟩ : ∃ r, link pngEnv { pngLinker with arguments := pngLibraryBetween } 9 = some r :=
    Option.isSome_iff_exists.mp (by decide +kernel)
  have hcontexts : pngLinker.config.contexts.Perm [pngMain, pngLibrary] := List.Perm.swap ..
  have hperm : pngObjectsFirst.Perm pngLibraryBetween := by decide
  refine ⟨r₁, r₂, h₁, h₂, (redirectsSame_iff hcontexts rfl (by decide) hperm
    (.file rfl rfl (.file rfl rfl (.file rfl rfl .nil)))
    (.file rfl rfl (.file rfl rfl (.file rfl rfl .nil))) h₁ h₂ ?_).mpr (Or.inl ?_)⟩
  · exact ⟨⟨"/w/io.o".toList, none, ⟨[], ["load".toList]⟩⟩, _, _,
      ⟨rfl, "io.o".toList, by decide +kernel, rfl⟩, by decide⟩
  · decide +kernel

/-- Before the objects it is not isolated. -/
theorem not_redirectsSame_libraryFirst :
    ∃ r₁ r₂,
      link pngEnv { pngLinker with
        arguments := ["main.o".toList, "libpng.so".toList] } 9 = some r₁ ∧
      link pngEnv { pngLinker with
        arguments := ["libpng.so".toList, "main.o".toList] } 9 = some r₂ ∧
      r₁.prepared.redirectedInMain = {"png_read".toList} ∧ r₂.prepared.redirectedInMain = ∅ ∧
      ¬ RedirectsSame pngEnv r₁.prepared r₂.prepared := by
  refine ⟨_, _, rfl, rfl, ?_⟩
  unfold RedirectsSame
  decide +kernel

end Png

end Cali.Linker
