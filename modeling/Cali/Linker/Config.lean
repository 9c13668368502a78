import Mathlib.Data.List.Basic

/-!
# Strings and configuration of the linker

The string functions of `stdlib-is-shit.h` and the part of `configfile.cpp` that the link
steps read.  A string is a list of characters, as the source only compares and cuts
strings.
-/

namespace Cali.Linker

abbrev Str := List Char

-- equality of strings is decided by one instance everywhere
instance : LawfulBEq Str := inferInstance

/-- `startsWith` -/
def startsWith (check pre : Str) : Bool := pre.isPrefixOf check

/-- `endsWith` -/
def endsWith (fullString ending : Str) : Bool := ending.isSuffixOf fullString

/-- The loop of `replaceAll`, with the number of characters that belong to an occurrence
and are still to be left out. -/
def replaceLoop (source target : Str) : ℕ → Str → Str
  | _, [] => []
  | skip + 1, _ :: cs => replaceLoop source target skip cs
  | 0, c :: cs =>
    if source.isPrefixOf (c :: cs) = true then
      target ++ replaceLoop source target (source.length - 1) cs
    else c :: replaceLoop source target 0 cs

/-- `replaceAll` -/
def replaceAll (original source target : Str) : Str := replaceLoop source target 0 original

/-! ## Selectors -/

/-- `lookup[0]` -/
def firstRow (pattern : Str) : List Bool := pattern.scanl (fun b c ↦ c == '*' && b) true

/-- The cells of a row from left to right, given the row above. -/
def nextCells (c : Char) : Str → List Bool → Bool → List Bool
  | p :: ps, diag :: up :: row, left =>
    let cell := if p = '*' then left || up else if p = '?' ∨ c = p then diag else false
    cell :: nextCells c ps (up :: row) cell
  | _, _, _ => []

/-- `lookup[i]` for the character `str[i - 1]` -/
def nextRow (pattern : Str) (row : List Bool) (c : Char) : List Bool :=
  false :: nextCells c pattern row false

/-- `strmatch` -/
def strmatch (str pattern : Str) : Bool :=
  if pattern = [] then str.isEmpty
  else (str.foldl (nextRow pattern) (firstRow pattern)).getLast? == some true

/-- The fields of `ContextConfig` that the link steps read. -/
structure ContextConfig where
  name : Str
  selectors : List Str := []
  ignoredFunctions : List Str := []
  instrument : Bool := false
  mprotectMode : Bool := false
  sequentialMode : Bool := false
deriving DecidableEq, Repr

/-- `ContextConfig::matches` -/
def ContextConfig.matches (c : ContextConfig) (filename : Str) : Bool :=
  c.selectors.any fun pattern ↦
    match pattern with
    | '^' :: rest => strmatch filename rest
    | _ => strmatch filename ('*' :: pattern)

/-- The fields of `YamlConfig` that the link steps read; the contexts stand in the order of
their keys. -/
structure YamlConfig where
  contexts : List ContextConfig
  addLibstdcxx : Bool := false
deriving DecidableEq, Repr

end Cali.Linker
