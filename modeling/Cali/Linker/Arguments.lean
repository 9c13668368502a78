import Cali.Linker.Modules

/-!
# The argument list of the linker

`LinkerArguments` goes through the arguments of the link command: `build_libraries` assigns
input files to the contexts of the configuration, `prepare_ipc` makes and rewrites one
module per context, and `build_linker_argument_list` puts the new files in place of the
arguments that they replace.

A library context is known by the name of its configuration, which is its key in the
configuration file.
-/

namespace Cali.Linker

/-- `LibraryContext` -/
structure LibraryContext where
  config : ContextConfig
  isMainModule : Bool := false
  files : List Str := []
  isRewritten : Bool := false
  rewrittenArgs : List Str := []
deriving DecidableEq, Repr

/-- `LinkerArguments` as its constructor leaves it -/
structure LinkerArguments where
  arguments : List Str
  librarySearchpath : List Str := [['.']]
  config : YamlConfig
  outputFilename : Str := []
  isSharedLibrary : Bool := false
deriving DecidableEq, Repr

/-- The fields that `build_libraries` fills. -/
structure Libraries where
  libraries : List LibraryContext := []
  argumentUsage : ℕ → Option Str := fun _ ↦ none

/-! ## `build_libraries` -/

/-- `find_library` -/
def findLibrary (env : Env) (librarySearchpath : List Str) (name : Str) : Option Str :=
  if env.fileExists name = true then some name
  else librarySearchpath.findSome? fun sp ↦
    [sp ++ '/' :: name, sp ++ '/' :: name ++ so, sp ++ '/' :: name ++ a].find? env.fileExists

/-- `addFlags` -/
def addFlags (text : Str) : List Str :=
  (text.splitOn ' ').filter fun s ↦ decide (1 < s.length) && s != "-pthread".toList

/-- The rest of a line after the key, without the closing quote. -/
def lineValue (line key : Str) : Str := (line.drop key.length).take (line.length - key.length - 1)

/-- The directory of a file with its slash, if the name has one. -/
def directory (filename : Str) : Str := (filename.reverse.dropWhile (· != '/')).reverse

/-- One line of a libtool file; the result is the library and the flags so far. -/
def readLibtoolLine (libtoolFile : Str) (r : Str × List Str) (line : Str) : Str × List Str :=
  let oldLibrary := "old_library='".toList
  let inherited := "inherited_linker_flags='".toList
  let dependency := "dependency_libs='".toList
  if startsWith line oldLibrary = true then
    let library := lineValue line oldLibrary
    if directory libtoolFile ≠ [] ∧ library.head? ≠ some '/' then
      (directory libtoolFile ++ ".libs/".toList ++ library, r.2)
    else (library, r.2)
  else if startsWith line inherited = true then (r.1, r.2 ++ addFlags (lineValue line inherited))
  else if startsWith line dependency = true then (r.1, r.2 ++ addFlags (lineValue line dependency))
  else r

/-- `replace_libtool_in_arguments`: the arguments that take the place of a libtool file.  A
file that cannot be read has no lines. -/
def replaceLibtool (env : Env) (libtoolFile : Str) : List Str :=
  let lines := match env.content (env.absolute libtoolFile) with
    | some (.text lines) => lines
    | _ => []
  let r := lines.foldl (readLibtoolLine libtoolFile) ([], [])
  r.1 :: r.2

/-- The file that `-lstdc++` stands for -/
def libstdcxxFile (env : Env) : Str :=
  let file := env.applicationDir ++ "/libstdc++.bc".toList
  if env.fileExists file = true then file else "/usr/cali-lib/libstdc++.bc".toList

/-- The arguments whose next argument is no input file. -/
def takesNext (arg : Str) : Bool :=
  arg == "-o".toList || arg == "-plugin".toList || arg == "-rpath".toList

/-- The file that an argument adds, with the flag whether the argument counts as used. -/
def inputFile (env : Env) (l : LinkerArguments) (arg : Str) : Option (Str × Bool) :=
  if l.config.addLibstdcxx = true ∧ arg = "-lstdc++".toList then some (libstdcxxFile env, false)
  else if (startsWith arg "-l".toList || endsWith arg so || endsWith arg a) = true then
    (findLibrary env l.librarySearchpath
      (if startsWith arg "-l".toList = true then "lib".toList ++ arg.drop 2 else arg)).map (·, true)
  else if ((endsWith arg o || endsWith arg bc || endsWith arg lo) &&
      !startsWith arg "/usr/".toList) = true then some (arg, true)
  else none

/-- The file is added to its context, which is made when it is not known yet. -/
def addFileTo (c : ContextConfig) (filename : Str) : List LibraryContext → List LibraryContext
  | [] => [{ config := c, files := [filename] }]
  | lib :: libraries =>
    if lib.config.name = c.name then
      { lib with files := if filename ∈ lib.files then lib.files else lib.files ++ [filename] } ::
        libraries
    else lib :: addFileTo c filename libraries

/-- The context of a file: the first one that matches. -/
def contextOf (config : YamlConfig) (filename : Str) : Option ContextConfig :=
  config.contexts.find? (·.matches filename)

/-- `add_file_to_library_list`; the index is given when the argument counts as used. -/
def addFileToLibraryList (config : YamlConfig) (s : Libraries) (filename : Str) (i : Option ℕ) :
    Libraries :=
  match contextOf config filename with
  | none => s
  | some c =>
    { libraries := addFileTo c filename s.libraries
      argumentUsage := match i with
        | none => s.argumentUsage
        | some i => Function.update s.argumentUsage i (some c.name) }

/-- The turn of the loop for an argument that is no libtool file. -/
def addArgument (env : Env) (l : LinkerArguments) (s : Libraries) (arg : Str) (i : ℕ) : Libraries :=
  match inputFile env l arg with
  | none => s
  | some (filename, true) => addFileToLibraryList l.config s filename (some i)
  | some (filename, false) => addFileToLibraryList l.config s filename none

/-- The loop of `build_libraries` over the arguments from the `i`-th on.  The result has these
arguments after the replacement of libtool files; without fuel there is none.  The flags
that take the next argument name no file, so they may be tested for first. -/
def buildLoop (env : Env) (l : LinkerArguments) :
    ℕ → ℕ → List Str → Libraries → Option (List Str × Libraries)
  | 0, _, _, _ => none
  | _ + 1, _, [], s => some ([], s)
  | fuel + 1, i, arg :: args, s =>
    if endsWith arg la = true then buildLoop env l fuel i (replaceLibtool env arg ++ args) s
    else if takesNext arg = true then
      match args with
      | [] => some ([arg], s)
      | next :: args =>
        (buildLoop env l fuel (i + 2) args s).map fun r ↦ (arg :: next :: r.1, r.2)
    else
      (buildLoop env l fuel (i + 1) args (addArgument env l s arg i)).map fun r ↦
        (arg :: r.1, r.2)

def mainName : Str := "main".toList

/-- The end of `build_libraries`: which context is the main module. -/
def markMain : List LibraryContext → List LibraryContext
  | [] => []
  | lib :: libraries =>
    if (lib :: libraries).any (·.config.name == mainName) = true then
      (lib :: libraries).map fun lib ↦
        if lib.config.name = mainName then { lib with isMainModule := true } else lib
    else { lib with isMainModule := true } :: libraries

/-- `build_libraries`, with the arguments that it leaves -/
def buildLibraries (env : Env) (l : LinkerArguments) (fuel : ℕ) :
    Option (List Str × Libraries) :=
  (buildLoop env l fuel 0 l.arguments {}).map fun r ↦
    (r.1, { r.2 with libraries := markMain r.2.libraries })

/-- `changesRequired` -/
def changesRequired (l : LinkerArguments) (s : Libraries) : Bool :=
  decide (2 ≤ s.libraries.length) && !l.isSharedLibrary

/-! ## `prepare_ipc` -/

/-- `get_module` for all contexts, from the `n`-th module on -/
def getModules (env : Env) (outputName : Str) :
    ℕ → List LibraryContext → Option (List (LibraryContext × IpcModule))
  | _, [] => some []
  | n, lib :: libraries =>
    (newIpcModulesFromFiles env outputName n lib.files).bind fun m ↦
      (getModules env outputName (n + 1) libraries).map ((lib, m) :: ·)

/-- `createCommunicationPair`: the set that is handed to `rewriteFunctionCalls` of the first module.
A binary part of it is not rewritten, so a symbol that only such a part imports is in the set but
keeps its meaning there. -/
def createCommunicationPair (env : Env) (m₁ m₂ : LibraryContext × IpcModule) : Finset Str :=
  if m₁.2.canRewrite = true then
    m₂.2.exports env m₂.1.config ∩ m₁.2.imports env m₁.1.config
  else ∅

def libipcArgs (env : Env) : List Str :=
  ["--whole-archive".toList,
    env.applicationDir ++ "/libipc/libipc.a".toList,
    env.applicationDir ++ "/libnsjail/libnsjail.a".toList,
    env.applicationDir ++ "/libnsjail/libkafel.a".toList,
    "--no-whole-archive".toList,
    "-ldl".toList, "-lrt".toList, "-lnl-3".toList, "-lnl-route-3".toList, "-lpthread".toList,
    "-lstdc++".toList]

/-- The variant of `libipc.a` that a configuration asks for. -/
def libipcVariant (c : ContextConfig) (arg : Str) : Str :=
  if c.instrument = true then replaceAll arg "libipc.a".toList "libipc-instrument.a".toList
  else if c.mprotectMode = true then replaceAll arg "libipc.a".toList "libipc-mprotect.a".toList
  else if c.sequentialMode = true then
    replaceAll arg "libipc.a".toList "libipc-sequential.a".toList
  else arg

/-- The arguments that the main module gets in front of its files. -/
def mainArgs (env : Env) (lib : LibraryContext) : List Str :=
  if lib.isMainModule = true then (libipcArgs env).map (libipcVariant lib.config) ++ env.newFiles
  else []

/-- `set_output_files`, after the arguments of the main module -/
def setOutputFiles (env : Env) (m : LibraryContext × IpcModule) : LibraryContext :=
  if m.2.canRewrite = true then
    { m.1 with
      rewrittenArgs := m.1.rewrittenArgs ++ mainArgs env m.1 ++ m.2.rewrittenFilename
      isRewritten := true }
  else { m.1 with rewrittenArgs := m.1.rewrittenArgs ++ mainArgs env m.1 }

/-- What `prepare_ipc` leaves: the modules with their contexts, the symbols that the first module is
asked to redirect and the configuration of the jail. -/
structure Prepared where
  modules : List (LibraryContext × IpcModule)
  redirected : Finset Str
  contextConfig : Option ContextConfig
deriving DecidableEq

/-- The libraries with their output files. -/
def Prepared.libraries (env : Env) (p : Prepared) : List LibraryContext :=
  p.modules.map (setOutputFiles env)

/-- The name of the output without its directory. -/
def outputName (l : LinkerArguments) : Str :=
  l.outputFilename.drop (directory l.outputFilename).length

/-- `prepare_ipc`; with fewer than two modules `createIpcJail` crashes -/
def prepareIpc (env : Env) (l : LinkerArguments) (s : Libraries) : Option Prepared :=
  (getModules env (outputName l) 0 s.libraries).bind fun modules ↦
    match modules with
    | m₁ :: m₂ :: _ => some {
        modules := modules
        redirected := createCommunicationPair env m₁ m₂
        contextConfig := ((s.libraries.filter fun lib ↦ !lib.isMainModule).getLast?).map
          LibraryContext.config }
    | _ => none

/-! ## `build_linker_argument_list` -/

/-- The rewritten context that uses an argument. -/
def rewrittenAt (libraries : List LibraryContext) (argumentUsage : ℕ → Option Str) (i : ℕ) :
    Option LibraryContext :=
  ((argumentUsage i).bind fun name ↦ libraries.find? (·.config.name == name)).filter
    LibraryContext.isRewritten

/-- The loop of `build_linker_argument_list` over the arguments from the `i`-th on. -/
def argumentListLoop (libraries : List LibraryContext) (argumentUsage : ℕ → Option Str) :
    List Str → ℕ → List Str → List Str
  | _, _, [] => []
  | processed, i, arg :: args =>
    match rewrittenAt libraries argumentUsage i with
    | none => arg :: argumentListLoop libraries argumentUsage processed (i + 1) args
    | some lib =>
      if lib.config.name ∈ processed then
        argumentListLoop libraries argumentUsage processed (i + 1) args
      else
        lib.rewrittenArgs ++
          argumentListLoop libraries argumentUsage (lib.config.name :: processed) (i + 1) args

/-- `build_linker_argument_list` -/
def buildLinkerArgumentList (libraries : List LibraryContext) (argumentUsage : ℕ → Option Str)
    (arguments : List Str) : List Str :=
  argumentListLoop libraries argumentUsage [] 0 arguments

/-- The state in which the real linker is run, when changes are required. -/
structure Linking where
  arguments : List Str
  argumentUsage : ℕ → Option Str
  prepared : Prepared

/-- `link` up to the call of the real linker, for outputs that require changes -/
def link (env : Env) (l : LinkerArguments) (fuel : ℕ) : Option Linking :=
  (buildLibraries env l fuel).bind fun r ↦
    if changesRequired l r.2 = true then
      (prepareIpc env l r.2).map fun p ↦ ⟨r.1, r.2.argumentUsage, p⟩
    else none

end Cali.Linker
