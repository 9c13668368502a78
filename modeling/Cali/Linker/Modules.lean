import Mathlib.Data.Finset.Basic
import Mathlib.Data.Finset.Union
import Cali.Linker.Config

/-!
# Modules of a context

A context of the configuration has input files, and `newIpcModulesFromFiles` makes one
module of them: the bitcode of all files is linked into one LLVM module, and the other
files become binary modules beside it.  The dispatch is by the names of the files, and by
their first bytes where the name leaves it open.

LLVM's linker and verifier, `nm` and the file system are data of the environment.
-/

namespace Cali.Linker

/-! ## Files -/

/-- An LLVM module: the functions that are declared only and those that are defined. -/
structure Bitcode where
  declares : List Str
  defines : List Str
deriving DecidableEq, Repr

/-- A module with all functions of the others. -/
def Bitcode.union (ms : List Bitcode) : Bitcode where
  declares := (ms.flatMap declares).filter (· ∉ ms.flatMap defines)
  defines := ms.flatMap defines

theorem Bitcode.defines_union (ms : List Bitcode) (x : Str) :
    x ∈ (union ms).defines ↔ ∃ m ∈ ms, x ∈ m.defines := List.mem_flatMap

theorem Bitcode.declares_union (ms : List Bitcode) (x : Str) :
    x ∈ (union ms).declares ↔ (∃ m ∈ ms, x ∈ m.declares) ∧ ¬ ∃ m ∈ ms, x ∈ m.defines := by
  simp only [union, List.mem_filter, List.mem_flatMap, decide_eq_true_iff]

/-- What the first four bytes tell. -/
inductive Blob
  | bitcode (m : Bitcode)
  | elf
  | other
deriving DecidableEq, Repr

/-- The content of a file; an archive has named members, and a libtool file has lines. -/
inductive Content
  | blob (b : Blob)
  | archive (members : List (Str × Blob))
  | text (lines : List Str)
deriving DecidableEq, Repr

/-- The symbols that `nm -gDB` lists. -/
structure Symbols where
  imports : List Str
  exports : List Str
deriving DecidableEq, Repr

/-- The world around the linker.  Files and the output of `nm` are given by absolute path.
`links ms m` says that `m` can be linked to what has been linked already, and `linked ms` is the
module that LLVM's linker makes: what one of the modules defines is defined, and what else one of
them declares stays declared. -/
structure Env where
  cwd : Str
  content : Str → Option Content
  nm : Str → Symbols
  stubs : Bitcode
  links : List Bitcode → Bitcode → Bool
  linked : List Bitcode → Bitcode
  defines_linked : ∀ ms x, x ∈ (linked ms).defines ↔ ∃ m ∈ ms, x ∈ m.defines
  declares_linked : ∀ ms x, x ∈ (linked ms).declares ↔
    (∃ m ∈ ms, x ∈ m.declares) ∧ ¬ ∃ m ∈ ms, x ∈ m.defines
  verifies : List Bitcode → Bool
  applicationDir : Str
  randomString : ℕ → Str
  newFiles : List Str

namespace Env

variable (env : Env)

/-- `absolute` -/
def absolute (path : Str) : Str :=
  if startsWith path ['/'] = true then path else env.cwd ++ '/' :: path

/-- `exists` -/
def fileExists (path : Str) : Bool := (env.content (env.absolute path)).isSome

end Env

/-! ## Modules -/

/-- A module that has been linked, with the file and the member it comes from. -/
structure LinkedModule where
  file : Str
  member : Option Str
  bitcode : Bitcode
deriving DecidableEq, Repr

/-- `BinaryIpcModule` -/
structure BinaryIpcModule where
  source : Str
  isMixedArchive : Bool
deriving DecidableEq, Repr

/-- A part of a composite module. -/
inductive Part
  | llvm (source : Str) (linked : List LinkedModule)
  | binary (b : BinaryIpcModule)
deriving DecidableEq, Repr

/-- The module of a context. -/
inductive IpcModule
  | single (p : Part)
  | composite (ps : List Part)
deriving DecidableEq, Repr

/-- The extensions of files. -/
def so : Str := ['.', 's', 'o']

def bc : Str := ['.', 'b', 'c']

def ll : Str := ['.', 'l', 'l']

def o : Str := ['.', 'o']

def lo : Str := ['.', 'l', 'o']

def a : Str := ['.', 'a']

def la : Str := ['.', 'l', 'a']

namespace Part

/-- `canRewrite` -/
def canRewrite : Part → Bool
  | llvm _ _ => true
  | binary _ => false

/-- `rewrittenFilename` -/
def rewrittenFilename : Part → List Str
  | llvm source _ => [source.take (source.length - 3) ++ "-ipc.bc".toList]
  | binary b => if b.isMixedArchive = true then [b.source] else []

variable (env : Env) (c : ContextConfig)

/-- The LLVM module after `loadModuleFile` -/
def llvmModule (linked : List LinkedModule) : Bitcode :=
  env.linked (env.stubs :: linked.map LinkedModule.bitcode)

/-- `getExports` -/
def exports : Part → Finset Str
  | llvm _ linked => (llvmModule env linked).defines.toFinset
  | binary b => ((env.nm (env.absolute b.source)).exports.filter (· ∉ c.ignoredFunctions)).toFinset

/-- `getImports` -/
def imports : Part → Finset Str
  | llvm _ linked => (llvmModule env linked).declares.toFinset
  | binary b => ((env.nm (env.absolute b.source)).imports.filter (· ∉ c.ignoredFunctions)).toFinset

end Part

namespace IpcModule

/-- The modules of a composite. -/
def parts : IpcModule → List Part
  | single p => [p]
  | composite ps => ps

def canRewrite (m : IpcModule) : Bool := m.parts.any Part.canRewrite

def rewrittenFilename (m : IpcModule) : List Str := m.parts.flatMap Part.rewrittenFilename

def exports (env : Env) (c : ContextConfig) (m : IpcModule) : Finset Str :=
  m.parts.toFinset.biUnion (Part.exports env c)

def imports (env : Env) (c : ContextConfig) (m : IpcModule) : Finset Str :=
  m.parts.toFinset.biUnion (Part.imports env c)

end IpcModule

/-! ## Loading the files -/

/-- The variables of `newIpcModulesFromFiles`. -/
structure Loading where
  seenFiles : List Str := []
  linked : List LinkedModule := []
  binaryModules : List BinaryIpcModule := []
deriving DecidableEq, Repr

namespace Loading

variable (env : Env)

/-- `addLlvmModule` -/
def addLlvmModule (s : Loading) (m : LinkedModule) : Option Loading :=
  if env.links (s.linked.map LinkedModule.bitcode) m.bitcode = true then
    some { s with linked := s.linked ++ [m] }
  else none

def addBinary (s : Loading) (source : Str) (isMixedArchive : Bool) : Loading :=
  { s with binaryModules := s.binaryModules ++ [⟨source, isMixedArchive⟩] }

/-- The names of the members that are looked at. -/
def isObjectName (name : Str) : Bool := endsWith name o || endsWith name bc || endsWith name lo

/-- One turn of the loop over the members of an archive; the flag is `binary_added`. -/
def addMember (filename : Str) (s : Loading × Bool) (member : Str × Blob) :
    Option (Loading × Bool) :=
  if isObjectName member.1 = true then
    match member.2 with
    | .bitcode m =>
      (s.1.addLlvmModule env ⟨env.absolute filename, some member.1, m⟩).map (·, s.2)
    | .elf => if s.2 = true then some s else some (s.1.addBinary filename true, true)
    | .other => some s
  else some s

/-- The part of a turn for names with the extensions of LLVM files. -/
def addLlvmFile (filename : Str) (content : Content) (s : Loading) : Option Loading :=
  if (endsWith filename bc || endsWith filename ll) = true then
    match content with
    | .blob (.bitcode m) => s.addLlvmModule env ⟨env.absolute filename, none, m⟩
    | _ => none
  else some s

/-- The part for object files. -/
def addObjectFile (filename : Str) (content : Content) (s : Loading) : Option Loading :=
  if endsWith filename o = true then
    match content with
    | .blob (.bitcode m) => s.addLlvmModule env ⟨env.absolute filename, none, m⟩
    | .blob .elf => some (s.addBinary filename false)
    | _ => some s
  else some s

/-- The part for static libraries. -/
def addArchive (filename : Str) (content : Content) (s : Loading) : Option Loading :=
  if endsWith filename a = true then
    match content with
    | .archive members => (members.foldlM (addMember env filename) (s, false)).map Prod.fst
    | _ => none
  else some s

/-- One turn of the loop over the files. -/
def addFile (s : Loading) (filename : Str) : Option Loading :=
  match env.content (env.absolute filename) with
  | none => some s
  | some content =>
    if env.absolute filename ∈ s.seenFiles then some s
    else
      let s := { s with seenFiles := env.absolute filename :: s.seenFiles }
      if endsWith filename so = true then some (s.addBinary filename false)
      else
        (s.addLlvmFile env filename content).bind fun s ↦
          (s.addObjectFile env filename content).bind fun s ↦
            s.addArchive env filename content

end Loading

/-- `setModuleIdentifier`, for the `n`-th module that is made -/
def moduleIdentifier (env : Env) (outputFilename : Str) (n : ℕ) : Str :=
  "llvm-linked-things_".toList ++ outputFilename ++ '_' :: Nat.toDigits 10 n ++
    '-' :: env.randomString n ++ bc

/-- The end of `newIpcModulesFromFiles` -/
def buildComposite (source : Str) (s : Loading) : IpcModule :=
  match s.linked, s.binaryModules with
  | [], [b] => .single (.binary b)
  | [m], [] => .single (.llvm source [m])
  | [], bs => .composite (bs.map .binary)
  | m :: ms, bs => .composite (.llvm source (m :: ms) :: bs.map .binary)

/-- `newIpcModulesFromFiles`; no result is an exception or a crash -/
def newIpcModulesFromFiles (env : Env) (outputFilename : Str) (n : ℕ) (files : List Str) :
    Option IpcModule :=
  (files.foldlM (Loading.addFile env) {}).bind fun s ↦
    if env.verifies (s.linked.map LinkedModule.bitcode) = true then
      some (buildComposite (moduleIdentifier env outputFilename n) s)
    else none

end Cali.Linker
