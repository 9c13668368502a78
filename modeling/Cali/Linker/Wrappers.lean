import Mathlib.Data.List.Nodup
import Mathlib.Data.List.Range
import Mathlib.Logic.Function.Basic
import Mathlib.Logic.Relation
import Cali.Ipc.RemoteCalls
import Cali.Ipc.SendingLock
import Cali.Lib.Run
import Cali.Linker.Redirect

/-!
# Codes of wrapper functions

A `CommunicationPair` gives each wrapper function a code, which the wrapper writes into the
shared memory.  The other process finds the case for the code in the switch of its
`process_ipc_call` function.  `initModule` starts with six functions of libipc itself, which have
cases in both switches; what their codes are depends on nothing but the order of creation, and
both the generated handlers and `wait_for_return` test for them with `code <= 2 || code > 8`.

The names of wrappers are the strings that the source puts together.  Nothing here needs the
hash of the standard library to be free of collisions: the wrappers of two calls with the same
name are one wrapper.
-/

namespace Cali.Linker.Wrappers

open Cali.Lib Cali.Ipc.SendingLock

/-! ## The pair -/

/-- `module1` and `module2`, and the functions `process_ipc_call_1` and `process_ipc_call_2` that
run in them. -/
inductive Party
  | module1
  | module2
deriving DecidableEq, Repr

def Party.other : Party → Party
  | module1 => module2
  | module2 => module1

structure WrapperFunctionInfos where
  original : Str
  wrapper : Str
  /-- The types of the parameters of the wrapper. -/
  params : List Str
  code : ℕ
  inProcessIpcCall : Party → Bool := fun _ ↦ false

/-- The basic block of a case: the function it calls, the types of the parameters it reads, and
whether it takes the sending lock before it saves the result. -/
structure Handler where
  func : Str
  params : List Str
  locksSending : Bool
deriving DecidableEq, Repr

/-- `wrappedFunctions` is keyed by the names of the wrappers.  The cases of a switch stand in the
order in which they have been added. -/
structure CommunicationPair where
  id : ℕ
  concurrentLibraryCommunication : Bool
  nextCode : ℕ
  wrappedFunctions : List WrapperFunctionInfos
  processIpcCall : Party → List (ℕ × Handler)

/-- The constructor.  `IpcCallHandlerFunction::initialize` removes the cases that the prototypes
of the two functions have. -/
def CommunicationPair.new (id : ℕ) (concurrentLibraryCommunication : Bool) : CommunicationPair where
  id := id
  concurrentLibraryCommunication := concurrentLibraryCommunication
  nextCode := 3
  wrappedFunctions := []
  processIpcCall := fun _ ↦ []

/-- The types of the parameters of a wrapper.  Without a call site the arguments of a variadic
function are read through a null pointer. -/
def replacementParams (f : LlvmFunction) (args? : Option (List Str)) : Option (List Str) :=
  if f.isVarArg = true then args?.map fun args ↦ f.params ++ args.drop f.params.length
  else some f.params

/-- `createReplacementFunction` -/
def createReplacementFunction (replacementName : Str) (f : LlvmFunction)
    (args? : Option (List Str)) (s : CommunicationPair) :
    Option (WrapperFunctionInfos × CommunicationPair) :=
  (replacementParams f args?).map fun params ↦
    let w : WrapperFunctionInfos :=
      { original := f.name, wrapper := replacementName, params := params, code := s.nextCode }
    (w, { s with
      nextCode := s.nextCode + 1
      wrappedFunctions := s.wrappedFunctions.filter (·.wrapper ≠ replacementName) ++ [w] })

/-- The test in the generated handlers: "internal" functions must not be interrupted. -/
def locksSending (s : CommunicationPair) (code : ℕ) : Bool :=
  s.concurrentLibraryCommunication && decide (code ≤ 2 ∨ code > 8)

/-- The case that a handler is. -/
def caseOf (s : CommunicationPair) (w : WrapperFunctionInfos) : ℕ × Handler :=
  (w.code, ⟨w.original, w.params, locksSending s w.code⟩)

/-- `wfi.inProcessIpcCall[processIpcCallId] = true` -/
def WrapperFunctionInfos.markHandled (w : WrapperFunctionInfos) (p : Party) :
    WrapperFunctionInfos :=
  { w with inProcessIpcCall := Function.update w.inProcessIpcCall p true }

/-- `createReplacementHandler`: the function is declared and called by the name of the original,
and the parameters are read with the types of the wrapper. -/
def createReplacementHandler (w : WrapperFunctionInfos) (p : Party) (s : CommunicationPair) :
    CommunicationPair :=
  if w.inProcessIpcCall p = true then s
  else
    { s with
      wrappedFunctions :=
        s.wrappedFunctions.map fun v ↦ if v.wrapper = w.wrapper then v.markHandled p else v
      processIpcCall :=
        Function.update s.processIpcCall p (s.processIpcCall p ++ [caseOf s w]) }

/-! ## The functions of libipc -/

/-- The functions of libipc that either process can call in the other one. -/
def internalFunctions : List LlvmFunction :=
  [⟨"internal_remap_shm".toList, true, false, [], []⟩,
    ⟨"internal_mmap".toList, true, false,
      ["i8*".toList, "i64".toList, "i32".toList, "i32".toList, "i32".toList, "i64".toList], []⟩,
    ⟨"internal_setSharedFDSize".toList, true, false, [], []⟩,
    ⟨"internal_receive_fd".toList, true, false,
      ["i8*".toList, "i32".toList, "i32".toList], []⟩,
    ⟨"internal_close_fd".toList, true, false, ["i32".toList, "i32".toList], []⟩,
    ⟨"internal_signal".toList, true, false, ["i32".toList, "void (i32)*".toList], []⟩]

def internalName (f : LlvmFunction) : Str := "__ipc_replacement_".toList ++ f.name

/-- The wrapper of one of these functions, with handlers on both sides. -/
def createInternalReplacement (s : CommunicationPair) (f : LlvmFunction) : CommunicationPair :=
  match createReplacementFunction (internalName f) f none s with
  | none => s
  | some (w, s) => createReplacementHandler w .module2 (createReplacementHandler w .module1 s)

/-- `createInternalReplacements` -/
def createInternalReplacements (s : CommunicationPair) : CommunicationPair :=
  internalFunctions.foldl createInternalReplacement s

/-- `initModule` -/
def initModule (id : ℕ) (concurrentLibraryCommunication : Bool) : CommunicationPair :=
  createInternalReplacements (.new id concurrentLibraryCommunication)

/-! ## Requests -/

/-- `getGlobalIdentifier` of a function with external linkage: the character that keeps LLVM from
mangling the name is dropped. -/
def globalIdentifier (f : LlvmFunction) : Str :=
  match f.name with
  | '\x01' :: name => name
  | name => name

def plainName (id : ℕ) (callee : Str) : Str :=
  "__ipc_replacement_".toList ++ Nat.toDigits 10 id ++ ['_'] ++ callee

def varargName (id : ℕ) (callee : Str) (hash : ℕ) : Str :=
  plainName id callee ++ "_vararg_".toList ++ Nat.toDigits 10 hash

/-- The text that the types of the arguments are hashed as. -/
def typeStr (args : List Str) : Str := args.flatMap fun type ↦ type ++ ", ".toList

/-- The name that the wrapper of a call site is going to have; `hash` is `std::hash<string>`. -/
def wrappedName (hash : Str → ℕ) (id : ℕ) (f : LlvmFunction) (args? : Option (List Str)) : Str :=
  match args? with
  | none => plainName id (globalIdentifier f)
  | some args =>
    if f.isVarArg = false ∨ f.params.length = args.length then plainName id (globalIdentifier f)
    else varargName id (globalIdentifier f) (hash (typeStr args))

/-- The handlers of a new wrapper: in the module that does not send. -/
def createHandlers (sendingModule : Party) (w : WrapperFunctionInfos) (s : CommunicationPair) :
    CommunicationPair :=
  let s := if sendingModule ≠ .module1 then createReplacementHandler w .module1 s else s
  if sendingModule ≠ .module2 then createReplacementHandler w .module2 s else s

/-- `getOrCreateWrapperFunction`: the name of the wrapper. -/
def getOrCreateWrapperFunction (hash : Str → ℕ) (sendingModule : Party) (f : LlvmFunction)
    (args? : Option (List Str)) (s : CommunicationPair) : Option (Str × CommunicationPair) :=
  let name := wrappedName hash s.id f args?
  match s.wrappedFunctions.find? (·.wrapper = name) with
  | some w => some (w.wrapper, s)
  | none => do
      let (w, s) ← createReplacementFunction name f args? s
      return (name, createHandlers sendingModule w s)

/-- A function and the call site it is requested for, if there is one. -/
structure Request where
  callee : LlvmFunction
  args? : Option (List Str)

/-- One request, and the name that it is answered with. -/
def Step (hash : Str → ℕ) (sendingModule : Party) (s : CommunicationPair) (e : Request × Str)
    (s' : CommunicationPair) : Prop :=
  getOrCreateWrapperFunction hash sendingModule e.1.callee e.1.args? s = some (e.2, s')

/-! ## One wrapper -/

/-- The names of the wrappers. -/
def CommunicationPair.names (s : CommunicationPair) : List Str :=
  s.wrappedFunctions.map WrapperFunctionInfos.wrapper

/-- The names of the wrappers, each with the name of its original function. -/
def CommunicationPair.entries (s : CommunicationPair) : List (Str × Str) :=
  s.wrappedFunctions.map fun w ↦ (w.wrapper, w.original)

theorem CommunicationPair.names_eq (s : CommunicationPair) : s.names = s.entries.map Prod.fst := by
  unfold names entries
  rw [List.map_map]
  rfl

/-- The wrappers are numbered in the order of their creation, and the switch of `p` has their
cases in the same order. -/
structure Numbered (p : Party) (s : CommunicationPair) : Prop where
  names : s.names.Nodup
  codes : s.wrappedFunctions.map WrapperFunctionInfos.code =
    List.range' 3 s.wrappedFunctions.length
  nextCode : s.nextCode = 3 + s.wrappedFunctions.length
  cases : s.processIpcCall p = s.wrappedFunctions.map (caseOf s)

/-- The wrapper `w` has been added to those of `s`. -/
structure Added (w : WrapperFunctionInfos) (s s' : CommunicationPair) : Prop where
  entries : s'.entries = s.entries ++ [(w.wrapper, w.original)]
  codes : s'.wrappedFunctions.map WrapperFunctionInfos.code =
    s.wrappedFunctions.map WrapperFunctionInfos.code ++ [s.nextCode]
  cases : s'.wrappedFunctions.map (caseOf s') = s.wrappedFunctions.map (caseOf s) ++ [caseOf s w]
  nextCode : s'.nextCode = s.nextCode + 1
  id : s'.id = s.id
  concurrent : s'.concurrentLibraryCommunication = s.concurrentLibraryCommunication

theorem Added.names {w : WrapperFunctionInfos} {s s' : CommunicationPair} (h : Added w s s') :
    s'.names = s.names ++ [w.wrapper] := by
  rw [s'.names_eq, s.names_eq, h.entries, List.map_append]
  rfl

section Steps

variable {hash : Str → ℕ} {sendingModule p q : Party} {s s₁ s' : CommunicationPair}
  {e : Request × Str} {w : WrapperFunctionInfos} {name : Str} {f : LlvmFunction}
  {args? : Option (List Str)}

theorem caseOf_congr (h : s'.concurrentLibraryCommunication = s.concurrentLibraryCommunication) :
    caseOf s' = caseOf s := by
  funext w
  unfold caseOf locksSending
  rw [h]

theorem map_markHandled {β : Type} {g : WrapperFunctionInfos → β}
    (hg : ∀ v : WrapperFunctionInfos, g (v.markHandled p) = g v) (name : Str)
    (l : List WrapperFunctionInfos) :
    (l.map fun v ↦ if v.wrapper = name then v.markHandled p else v).map g = l.map g := by
  rw [List.map_map]
  refine List.map_congr_left fun v _ ↦ ?_
  rw [Function.comp_apply, apply_ite g, hg, ite_self]

theorem added_createReplacementFunction (hname : name ∉ s.names)
    (h : createReplacementFunction name f args? s = some (w, s')) :
    Added w s s' ∧ s'.processIpcCall = s.processIpcCall ∧ w.wrapper = name ∧
      w.original = f.name ∧ ∀ p, w.inProcessIpcCall p = false := by
  obtain ⟨params, -, heq⟩ := Option.map_eq_some_iff.mp h
  cases heq
  have hfilter : s.wrappedFunctions.filter (·.wrapper ≠ name) = s.wrappedFunctions := by
    refine List.filter_eq_self.mpr fun v hv ↦ decide_eq_true ?_
    rintro rfl
    exact hname (List.mem_map_of_mem hv)
  refine ⟨⟨?_, ?_, ?_, rfl, rfl, rfl⟩, rfl, rfl, rfl, fun _ ↦ rfl⟩
  · simp only [CommunicationPair.entries, hfilter, List.map_append, List.map_cons, List.map_nil]
  · simp only [hfilter, List.map_append, List.map_cons, List.map_nil]
  · simp only [hfilter, List.map_append, List.map_cons, List.map_nil]
    rfl

theorem Added.createReplacementHandler (h : Added w s s') (p : Party) :
    Added w s (createReplacementHandler w p s') := by
  unfold Wrappers.createReplacementHandler
  split
  · exact h
  · refine ⟨?_, ?_, ?_, h.nextCode, h.id, h.concurrent⟩
    · exact (map_markHandled (fun _ ↦ rfl) _ _).trans h.entries
    · exact (map_markHandled (fun _ ↦ rfl) _ _).trans h.codes
    · exact (map_markHandled (fun _ ↦ rfl) _ _).trans h.cases

theorem processIpcCall_createReplacementHandler_self (hw : w.inProcessIpcCall p = false) :
    (createReplacementHandler w p s).processIpcCall p = s.processIpcCall p ++ [caseOf s w] := by
  unfold createReplacementHandler
  rw [if_neg (by rw [hw]; exact Bool.false_ne_true)]
  exact Function.update_self p _ _

theorem processIpcCall_createReplacementHandler_of_ne (hq : p ≠ q) :
    (createReplacementHandler w q s).processIpcCall p = s.processIpcCall p := by
  unfold createReplacementHandler
  split
  · rfl
  · exact Function.update_of_ne hq _ _

/-- **One wrapper** with its handler keeps the numbering. -/
theorem Numbered.added (h : Numbered p s) (hadd : Added w s s') (hw : w.wrapper ∉ s.names)
    (hcases : s'.processIpcCall p = s.processIpcCall p ++ [caseOf s w]) : Numbered p s' := by
  have hlength : s'.wrappedFunctions.length = s.wrappedFunctions.length + 1 := by
    have hnames := congrArg List.length hadd.names
    simpa only [CommunicationPair.names, List.length_map, List.length_append,
      List.length_singleton] using hnames
  refine ⟨?_, ?_, ?_, ?_⟩
  · rw [hadd.names, ← List.concat_eq_append]
    exact h.names.concat hw
  · rw [hadd.codes, h.codes, h.nextCode, hlength, List.range'_1_concat]
  · rw [hadd.nextCode, h.nextCode, hlength, Nat.add_assoc]
  · rw [hcases, hadd.cases, h.cases]

theorem numbered_new (p : Party) (id : ℕ) (concurrent : Bool) : Numbered p (.new id concurrent) :=
  ⟨List.nodup_nil, rfl, rfl, rfl⟩

/-- The entry of a function of libipc. -/
def internalEntry (f : LlvmFunction) : Str × Str := (internalName f, f.name)

/-- **A function of libipc** gets a wrapper and a case on either side. -/
theorem Numbered.internalReplacement (h : Numbered p s) (hvar : f.isVarArg = false)
    (hname : internalName f ∉ s.names) :
    Numbered p (createInternalReplacement s f) ∧
      (createInternalReplacement s f).entries = s.entries ++ [internalEntry f] := by
  obtain ⟨⟨w, s₁⟩, hcreate⟩ :
      ∃ r, createReplacementFunction (internalName f) f none s = some r := by
    refine Option.isSome_iff_exists.mp ?_
    simp only [createReplacementFunction, replacementParams, hvar, Bool.false_eq_true, ↓reduceIte,
      Option.isSome_map, Option.isSome_some]
  obtain ⟨hadd, hcases, hwrapper, horiginal, hflag⟩ := added_createReplacementFunction hname hcreate
  have hboth := (hadd.createReplacementHandler .module1).createReplacementHandler .module2
  have hdef : createInternalReplacement s f =
      createReplacementHandler w .module2 (createReplacementHandler w .module1 s₁) := by
    unfold createInternalReplacement
    rw [hcreate]
  rw [hdef, internalEntry, ← hwrapper, ← horiginal]
  refine ⟨h.added hboth (hwrapper ▸ hname) ?_, hboth.entries⟩
  cases p with
  | module1 =>
    rw [processIpcCall_createReplacementHandler_of_ne (by decide),
      processIpcCall_createReplacementHandler_self (hflag _), hcases,
      caseOf_congr hadd.concurrent]
  | module2 =>
    rw [processIpcCall_createReplacementHandler_self (hflag _),
      processIpcCall_createReplacementHandler_of_ne (by decide), hcases,
      caseOf_congr (hadd.createReplacementHandler .module1).concurrent]

theorem Numbered.internalReplacements {fs : List LlvmFunction} (h : Numbered p s)
    (hvar : ∀ f ∈ fs, f.isVarArg = false) (hnames : (s.names ++ fs.map internalName).Nodup) :
    Numbered p (fs.foldl createInternalReplacement s) ∧
      (fs.foldl createInternalReplacement s).entries = s.entries ++ fs.map internalEntry := by
  induction fs generalizing s with
  | nil => exact ⟨h, (List.append_nil _).symm⟩
  | cons f fs ih =>
    have hname : internalName f ∉ s.names := fun hmem ↦
      List.disjoint_of_nodup_append hnames hmem List.mem_cons_self
    obtain ⟨h₁, hentries₁⟩ := h.internalReplacement (hvar f List.mem_cons_self) hname
    have hnames₁ : (createInternalReplacement s f).names = s.names ++ [internalName f] := by
      rw [CommunicationPair.names_eq, hentries₁, List.map_append, ← s.names_eq]
      rfl
    rw [List.map_cons, List.append_cons, ← hnames₁] at hnames
    obtain ⟨h₂, hentries₂⟩ := ih h₁ (fun g hg ↦ hvar g (List.mem_cons_of_mem _ hg)) hnames
    refine ⟨h₂, hentries₂.trans ?_⟩
    rw [hentries₁, List.map_cons, ← List.append_cons]

theorem createHandlers_eq (sendingModule : Party) (w : WrapperFunctionInfos)
    (s : CommunicationPair) :
    createHandlers sendingModule w s = createReplacementHandler w sendingModule.other s := by
  cases sendingModule with
  | module1 => rfl
  | module2 => rfl

theorem notMem_names_of_find? (hfind : s.wrappedFunctions.find? (·.wrapper = name) = none) :
    name ∉ s.names := by
  intro hmem
  obtain ⟨v, hv, hwrapper⟩ := List.mem_map.mp hmem
  exact absurd (decide_eq_true hwrapper) (List.find?_eq_none.mp hfind v hv)

theorem Step.cases {r : Request} (h : Step hash sendingModule s (r, name) s') :
    (name ∈ s.names ∧ s' = s) ∨ name ∉ s.names ∧ ∃ w s₁,
      createReplacementFunction name r.callee r.args? s = some (w, s₁) ∧
        s' = createReplacementHandler w sendingModule.other s₁ := by
  unfold Step getOrCreateWrapperFunction at h
  cases hfind : s.wrappedFunctions.find?
      (·.wrapper = wrappedName hash s.id r.callee r.args?) with
  | some w =>
    simp only [hfind] at h
    cases h
    exact Or.inl ⟨List.mem_map_of_mem (List.mem_of_find?_eq_some hfind), rfl⟩
  | none =>
    simp only [hfind] at h
    obtain ⟨⟨w, s₁⟩, hcreate, heq⟩ := Option.bind_eq_some_iff.mp h
    cases heq
    exact Or.inr ⟨notMem_names_of_find? hfind, w, s₁, hcreate, createHandlers_eq ..⟩

/-- **One request** keeps the numbering and the wrappers that there are. -/
theorem Numbered.step (h : Numbered sendingModule.other s)
    (hstep : Step hash sendingModule s e s') :
    Numbered sendingModule.other s' ∧ s.entries <+: s'.entries := by
  rcases hstep.cases with ⟨-, rfl⟩ | ⟨hname, w, s₁, hcreate, rfl⟩
  · exact ⟨h, List.prefix_rfl⟩
  · obtain ⟨hadd, hcases, hwrapper, -, hflag⟩ := added_createReplacementFunction hname hcreate
    have hadd' := hadd.createReplacementHandler sendingModule.other
    refine ⟨h.added hadd' (hwrapper ▸ hname) ?_, hadd'.entries ▸ List.prefix_append _ _⟩
    rw [processIpcCall_createReplacementHandler_self (hflag _), hcases,
      caseOf_congr hadd.concurrent]

/-- **The answer** is the name of a wrapper. -/
theorem Step.mem_names (h : Step hash sendingModule s e s') : e.2 ∈ s'.names := by
  rcases h.cases with ⟨hmem, rfl⟩ | ⟨hname, w, s₁, hcreate, rfl⟩
  · exact hmem
  · obtain ⟨hadd, -, hwrapper, -⟩ := added_createReplacementFunction hname hcreate
    rw [(hadd.createReplacementHandler _).names, hwrapper]
    exact List.mem_append_right _ (List.mem_singleton_self _)

end Steps

/-! ## Whole runs -/

def internalNames : List Str := internalFunctions.map internalName

/-- The wrappers of libipc have been created first. -/
structure Inv (sendingModule : Party) (s : CommunicationPair) : Prop where
  numbered : Numbered sendingModule.other s
  internal : internalFunctions.map internalEntry <+: s.entries

theorem inv_initModule (sendingModule : Party) (id : ℕ) (concurrent : Bool) :
    Inv sendingModule (initModule id concurrent) := by
  have hvar : ∀ f ∈ internalFunctions, f.isVarArg = false := by decide
  have hnames : internalNames.Nodup := by decide
  obtain ⟨hnumbered, hentries⟩ :=
    (numbered_new sendingModule.other id concurrent).internalReplacements hvar hnames
  exact ⟨hnumbered, hentries ▸ List.prefix_rfl⟩

section Agreement

variable {hash : Str → ℕ} {sendingModule p : Party} {s s' : CommunicationPair}
  {e : Request × Str} {w : WrapperFunctionInfos}

theorem Inv.step (h : Inv sendingModule s) (hstep : Step hash sendingModule s e s') :
    Inv sendingModule s' := by
  obtain ⟨hnumbered, hprefix⟩ := h.numbered.step hstep
  exact ⟨hnumbered, h.internal.trans hprefix⟩

theorem Inv.getOrCreateWrapperFunction (h : Inv sendingModule s) (hash : Str → ℕ)
    (f : LlvmFunction) (args? : Option (List Str)) : Inv sendingModule
      ((getOrCreateWrapperFunction hash sendingModule f args? s).elim s Prod.snd) := by
  cases hstep : Wrappers.getOrCreateWrapperFunction hash sendingModule f args? s with
  | none => exact h
  | some r => exact h.step (show Step hash sendingModule s (⟨f, args?⟩, r.1) r.2 from hstep)

theorem Numbered.code_eq (h : Numbered p s) {i : ℕ} (hi : s.wrappedFunctions[i]? = some w) :
    w.code = 3 + i := by
  have hlt : i < s.wrappedFunctions.length := (List.getElem?_eq_some_iff.mp hi).1
  have hcode := congrArg (·[i]?) h.codes
  simp only [List.getElem?_map, hi, Option.map_some, List.getElem?_range' hlt, Nat.one_mul,
    Option.some.injEq] at hcode
  exact hcode

theorem Inv.getElem?_entries (h : Inv sendingModule s) {i : ℕ} (hi : i < 6) :
    s.entries[i]? = (internalFunctions.map internalEntry)[i]? := by
  obtain ⟨rest, hrest⟩ := h.internal
  have hlength : i < (internalFunctions.map internalEntry).length := hi
  rw [← hrest, List.getElem?_append_left hlength]

theorem Inv.getElem?_names (h : Inv sendingModule s) {i : ℕ} (hi : i < 6) :
    s.names[i]? = internalNames[i]? := by
  have hnames : internalNames = (internalFunctions.map internalEntry).map Prod.fst := rfl
  rw [s.names_eq, hnames, List.getElem?_map, List.getElem?_map, h.getElem?_entries hi]

theorem Inv.mem_internalNames_iff (h : Inv sendingModule s) (hw : w ∈ s.wrappedFunctions) :
    w.wrapper ∈ internalNames ↔ w.code ≤ 8 := by
  obtain ⟨i, hi⟩ := List.getElem?_of_mem hw
  have hcode := h.numbered.code_eq hi
  have hname : s.names[i]? = some w.wrapper := by
    simp only [CommunicationPair.names, List.getElem?_map, hi, Option.map_some]
  constructor
  · intro hmem
    obtain ⟨j, hj⟩ := List.getElem?_of_mem hmem
    have hj6 : j < 6 := (List.getElem?_eq_some_iff.mp hj).1
    have hlt : i < s.names.length := (List.getElem?_eq_some_iff.mp hname).1
    have hij : i = j := by
      refine (List.getElem?_inj hlt h.numbered.names).mp ?_
      rw [hname, h.getElem?_names hj6, hj]
    omega
  · intro hle
    have hi6 : i < 6 := by omega
    rw [h.getElem?_names hi6] at hname
    exact List.mem_of_getElem? hname

theorem Inv.interrupted_iff (h : Inv sendingModule s) (hw : w ∈ s.wrappedFunctions) :
    w.code ≤ 2 ∨ w.code > 8 ↔ w.wrapper ∉ internalNames := by
  obtain ⟨i, hi⟩ := List.getElem?_of_mem hw
  have hcode := h.numbered.code_eq hi
  rw [h.mem_internalNames_iff hw]
  omega

/-- In a list with one element for each value of `g` the elements with the value of `w` are `w`
alone. -/
theorem filter_eq_singleton {α : Type} {g : α → ℕ} {l : List α} {w : α} (hl : (l.map g).Nodup)
    (hw : w ∈ l) : l.filter (fun v ↦ g v = g w) = [w] := by
  induction l with
  | nil => cases hw
  | cons v l ih =>
    obtain ⟨hv, hl⟩ := List.nodup_cons.mp hl
    rcases List.mem_cons.mp hw with rfl | hw
    · have hrest : l.filter (fun u ↦ g u = g w) = [] := by
        refine List.filter_eq_nil_iff.mpr fun u hu hgu ↦ ?_
        rw [← of_decide_eq_true hgu] at hv
        exact hv (List.mem_map_of_mem hu)
      simp only [List.filter_cons, decide_true, ↓reduceIte, hrest]
    · have hne : g v ≠ g w := by
        intro heq
        rw [heq] at hv
        exact hv (List.mem_map_of_mem hw)
      simp only [List.filter_cons, decide_eq_true_iff, hne, ↓reduceIte, ih hl hw]

theorem Numbered.filter_cases (h : Numbered p s) (hw : w ∈ s.wrappedFunctions) :
    (s.processIpcCall p).filter (fun c ↦ c.1 = w.code) = [caseOf s w] := by
  have hcodes : (s.wrappedFunctions.map WrapperFunctionInfos.code).Nodup := by
    rw [h.codes]
    exact List.nodup_range'
  rw [h.cases, List.filter_map]
  exact congrArg (List.map (caseOf s)) (filter_eq_singleton hcodes hw)

end Agreement

/-- Codes and cases agree.  The services of libipc are tested for by their codes, in the handlers
and in `wait_for_return`.  As `next_code` counts the wrappers, the unsigned int that it is does not
wrap around before there are `2 ^ 32 - 3` of them. -/
structure Agrees (sendingModule : Party) (s : CommunicationPair) : Prop where
  names : s.names.Nodup
  codes : (s.wrappedFunctions.map WrapperFunctionInfos.code).Nodup
  nextCode : s.nextCode = 3 + s.names.length
  code_lt : ∀ w ∈ s.wrappedFunctions, w.code < s.nextCode
  internal : ∀ i f, internalFunctions[i]? = some f → ∃ w ∈ s.wrappedFunctions,
    w.wrapper = internalName f ∧ w.original = f.name ∧ w.code = 3 + i
  others : ∀ w ∈ s.wrappedFunctions, w.wrapper ∉ internalNames → 8 < w.code
  handler : ∀ w ∈ s.wrappedFunctions, locksSending s w.code =
    (s.concurrentLibraryCommunication && decide (w.wrapper ∉ internalNames))
  waitForReturn : ∀ w ∈ s.wrappedFunctions,
    interruptible w.code = decide (w.wrapper ∉ internalNames)
  dispatch : ∀ w ∈ s.wrappedFunctions,
    (s.processIpcCall sendingModule.other).filter (fun c ↦ c.1 = w.code) =
      [(w.code, ⟨w.original, w.params, locksSending s w.code⟩)]

theorem Inv.agrees {sendingModule : Party} {s : CommunicationPair} (h : Inv sendingModule s) :
    Agrees sendingModule s where
  names := h.numbered.names
  codes := by
    rw [h.numbered.codes]
    exact List.nodup_range'
  nextCode := by rw [h.numbered.nextCode, CommunicationPair.names, List.length_map]
  code_lt := by
    intro w hw
    obtain ⟨i, hi⟩ := List.getElem?_of_mem hw
    rw [h.numbered.code_eq hi, h.numbered.nextCode]
    exact Nat.add_lt_add_left (List.getElem?_eq_some_iff.mp hi).1 3
  internal := by
    intro i f hf
    have hi : i < 6 := (List.getElem?_eq_some_iff.mp hf).1
    have hentry := h.getElem?_entries hi
    rw [List.getElem?_map, hf, CommunicationPair.entries, List.getElem?_map] at hentry
    obtain ⟨w, hw, heq⟩ := Option.map_eq_some_iff.mp hentry
    obtain ⟨hwrapper, horiginal⟩ := Prod.ext_iff.mp heq
    exact ⟨w, List.mem_of_getElem? hw, hwrapper, horiginal, h.numbered.code_eq hw⟩
  others := by
    intro w hw hmem
    rw [h.mem_internalNames_iff hw] at hmem
    exact Nat.not_le.mp hmem
  handler := by
    intro w hw
    unfold locksSending
    rw [decide_eq_decide.mpr (h.interrupted_iff hw)]
  waitForReturn := by
    intro w hw
    refine decide_eq_decide.mpr (Iff.trans ?_ (h.interrupted_iff hw))
    omega
  dispatch := fun w hw ↦ h.numbered.filter_cases hw

/-- A request is answered unless it is for a variadic function and has no call site. -/
def Request.Answerable (r : Request) : Prop := r.callee.isVarArg = true → r.args?.isSome = true

theorem Request.Answerable.isSome_params {r : Request} (hr : r.Answerable) :
    (replacementParams r.callee r.args?).isSome = true := by
  unfold replacementParams
  split
  case isTrue hvar => simpa only [Option.isSome_map] using hr hvar
  case isFalse => rfl

theorem getOrCreateWrapperFunction_eq_some (hash : Str → ℕ) (sendingModule : Party)
    (s : CommunicationPair) {r : Request}
    (hr : wrappedName hash s.id r.callee r.args? ∈ s.names ∨ r.Answerable) :
    ∃ s', getOrCreateWrapperFunction hash sendingModule r.callee r.args? s =
        some (wrappedName hash s.id r.callee r.args?, s') ∧
      wrappedName hash s.id r.callee r.args? ∈ s'.names ∧ s.names ⊆ s'.names ∧ s'.id = s.id := by
  unfold getOrCreateWrapperFunction
  cases hfind : s.wrappedFunctions.find?
      (·.wrapper = wrappedName hash s.id r.callee r.args?) with
  | some w =>
    have hwrapper : w.wrapper = wrappedName hash s.id r.callee r.args? := by
      simpa only [decide_eq_true_iff] using List.find?_some hfind
    have hmem : w.wrapper ∈ s.names := List.mem_map_of_mem (List.mem_of_find?_eq_some hfind)
    refine ⟨s, ?_, hwrapper ▸ hmem, List.Subset.refl _, rfl⟩
    simp only [hfind, hwrapper]
  | none =>
    have hname := notMem_names_of_find? hfind
    obtain ⟨⟨w, s₁⟩, hcreate⟩ : ∃ x, createReplacementFunction
        (wrappedName hash s.id r.callee r.args?) r.callee r.args? s = some x := by
      refine Option.isSome_iff_exists.mp ?_
      rw [createReplacementFunction, Option.isSome_map]
      exact (hr.resolve_left hname).isSome_params
    obtain ⟨hadd, -, hwrapper, -⟩ := added_createReplacementFunction hname hcreate
    have hadd' := hadd.createReplacementHandler sendingModule.other
    refine ⟨createReplacementHandler w sendingModule.other s₁, ?_, ?_, ?_, hadd'.id⟩
    · simp only [hfind, hcreate, ← createHandlers_eq]
      rfl
    · rw [hadd'.names, hwrapper]
      exact List.mem_append_right _ (List.mem_singleton_self _)
    · rw [hadd'.names]
      exact List.subset_append_left _ _

theorem exists_run (hash : Str → ℕ) (sendingModule : Party) (s : CommunicationPair)
    {rs : List Request} (hrs : ∀ r ∈ rs, r.Answerable) :
    ∃ t : List ((Request × Str) × CommunicationPair), t.map (fun e ↦ e.1.1) = rs ∧
      IsRun (Step hash sendingModule) s t := by
  induction rs generalizing s with
  | nil => exact ⟨[], rfl, trivial⟩
  | cons r rs ih =>
    obtain ⟨s', hstep, -⟩ :=
      getOrCreateWrapperFunction_eq_some hash sendingModule s (Or.inr (hrs r List.mem_cons_self))
    obtain ⟨t, ht, hrun⟩ := ih s' fun r hr ↦ hrs r (List.mem_cons_of_mem _ hr)
    refine ⟨((r, _), s') :: t, ?_, hstep, hrun⟩
    rw [List.map_cons, ht]

/-! ## The wrappers of the rewriting

`rewriteFunctionCalls` knows wrappers by the function and the hash that their names are made of.
-/

/-- The string that a name is. -/
def render (id : ℕ) : WrapperName → Str
  | .plain callee => plainName id callee
  | .vararg callee hash => varargName id callee hash

section Rewriting

variable {hash : Str → ℕ} {c : RewriteConfig} {f : LlvmFunction} {args? : Option (List Str)}
  {s : CommunicationPair} {x x' : Rewriter} {name : WrapperName} {users : ℕ → User}
  {symbols : List Str} {functions functions' : List LlvmFunction}
  (hhash : ∀ args, c.hash args = hash (typeStr args)) (sendingModule : Party)

include hhash in
theorem wrappedName_eq_render (id : ℕ) (hf : globalIdentifier f = f.name)
    (args? : Option (List Str)) :
    wrappedName hash id f args? = render id (Linker.wrappedName c f args?) := by
  unfold wrappedName Linker.wrappedName
  rw [hf]
  cases args? with
  | none => rfl
  | some args =>
    simp only [← hhash]
    rw [apply_ite (render id)]
    rfl

/-- The pair has the wrappers that the rewriting knows, and operands are set to such wrappers. -/
structure Tracks (s : CommunicationPair) (x : Rewriter) : Prop where
  knows : ∀ name, x.Knows name → render s.id name ∈ s.names
  targets : ∀ u target, x.targets u = some target → x.Knows target.wrapper

include hhash

/-- **Each request of the rewriting is answered** with the wrapper that it means, in any pair
that has its earlier wrappers. -/
theorem Tracks.request (h : Tracks s x) (hf : globalIdentifier f = f.name)
    (hx : Linker.getOrCreateWrapperFunction c f args? x = some (name, x')) :
    ∃ s', getOrCreateWrapperFunction hash sendingModule f args? s = some (render s.id name, s') ∧
      render s.id name ∈ s'.names ∧ s.names ⊆ s'.names ∧ s'.id = s.id := by
  have hrender := wrappedName_eq_render hhash s.id hf args?
  have hr : wrappedName hash s.id f args? ∈ s.names ∨ Request.Answerable ⟨f, args?⟩ := by
    by_cases hmem : x.Knows (Linker.wrappedName c f args?)
    · exact Or.inl (hrender ▸ h.knows _ hmem)
    · refine Or.inr fun hvar ↦ ?_
      simp only [Linker.getOrCreateWrapperFunction, if_neg (show _ ∉ _ from hmem)] at hx
      obtain ⟨params, hparams, -⟩ := Option.map_eq_some_iff.mp hx
      rw [Linker.createReplacementFunction, if_pos hvar] at hparams
      exact Option.isSome_of_eq_some hparams
  have hname : name = Linker.wrappedName c f args? := (knows_of_getOrCreate hx).1
  rw [hname, ← hrender]
  exact getOrCreateWrapperFunction_eq_some hash sendingModule s (r := ⟨f, args?⟩) hr

/-- Requests have led from one pair to another. -/
def Requests (hash : Str → ℕ) (sendingModule : Party) :
    CommunicationPair → CommunicationPair → Prop :=
  Relation.ReflTransGen fun s s' ↦ ∃ e, Step hash sendingModule s e s'

theorem Tracks.setUse (h : Tracks s x) (hf : globalIdentifier f = f.name) {u : Use} {calls : Bool}
    (hx : setUse c users f u calls x = some x') :
    ∃ s', Requests hash sendingModule s s' ∧ Tracks s' x' := by
  have hset := setsUse_of_setUse hx
  obtain ⟨⟨name, x₁⟩, hr, -⟩ := Option.map_eq_some_iff.mp hx
  have hname : name = _ := (knows_of_getOrCreate hr).1
  rw [← hname] at hset
  obtain ⟨s', hs', hnew, hsub, hid⟩ := h.request hhash sendingModule hf hr
  refine ⟨s', .single ⟨(⟨f, _⟩, _), hs'⟩, fun name' hname' ↦ ?_, fun v target hv ↦ ?_⟩
  · rw [hid]
    rcases (hset.knows name').mp hname' with hold | rfl
    · exact hsub (h.knows name' hold)
    · exact hnew
  · refine (hset.knows _).mpr ?_
    by_cases hvu : v = u
    · have htarget := hset.target
      rw [← hvu, hv] at htarget
      exact Or.inr (Option.some.inj htarget)
    · rw [hset.other v hvu] at hv
      exact Or.inl (h.targets v target hv)

theorem Tracks.useLoop (h : Tracks s x) (hf : globalIdentifier f = f.name) {n : ℕ}
    {uses uses' : List Use} (hx : useLoop c users f n uses x = some (uses', x')) :
    ∃ s', Requests hash sendingModule s s' ∧ Tracks s' x' := by
  induction n generalizing s x uses with
  | zero => cases hx
  | succ n ih =>
    cases uses with
    | nil =>
      cases hx
      exact ⟨s, .refl, h⟩
    | cons u uses =>
      rw [Linker.useLoop] at hx
      split at hx
      · obtain ⟨x₁, hx₁, hx⟩ := Option.bind_eq_some_iff.mp hx
        obtain ⟨s₁, hrun₁, h₁⟩ := h.setUse hhash sendingModule hf hx₁
        obtain ⟨s', hrun, h'⟩ := ih h₁ hx
        exact ⟨s', hrun₁.trans hrun, h'⟩
      · obtain ⟨x₁, hx₁, heq⟩ := Option.map_eq_some_iff.mp hx
        cases heq
        exact h.setUse hhash sendingModule hf hx₁

/-- **The rewriting of a module** makes requests that give the pair all of its wrappers. -/
theorem Tracks.rewriteFunctionCalls (h : Tracks s x)
    (hf : ∀ f ∈ functions, globalIdentifier f = f.name) {n : ℕ}
    (hx : rewriteFunctionCalls c users symbols n functions x = some (functions', x')) :
    ∃ s', Requests hash sendingModule s s' ∧ Tracks s' x' := by
  induction functions generalizing s x functions' with
  | nil =>
    cases hx
    exact ⟨s, .refl, h⟩
  | cons f functions ih =>
    obtain ⟨hf, hrest⟩ := List.forall_mem_cons.mp hf
    rw [Linker.rewriteFunctionCalls] at hx
    split at hx
    · obtain ⟨⟨uses', x₁⟩, hloop, hx⟩ := Option.bind_eq_some_iff.mp hx
      obtain ⟨⟨functions₁, x₂⟩, hx₂, heq⟩ := Option.map_eq_some_iff.mp hx
      cases heq
      obtain ⟨s₁, hrun₁, h₁⟩ := h.useLoop hhash sendingModule hf hloop
      obtain ⟨s', hrun, h'⟩ := ih h₁ hrest hx₂
      exact ⟨s', hrun₁.trans hrun, h'⟩
    · obtain ⟨⟨functions₁, x₂⟩, hx₂, heq⟩ := Option.map_eq_some_iff.mp hx
      cases heq
      exact ih h hrest hx₂

/-- **Every wrapper of a rewritten module is dispatched.**  The pair that has served the rewriting
has one case for each wrapper, in the module that receives, and every operand that has been set
is set to one of them. -/
theorem exists_agrees_of_rewriteFunctionCalls (id : ℕ) (concurrent : Bool)
    (hf : ∀ f ∈ functions, globalIdentifier f = f.name) {n : ℕ}
    (hx : Linker.rewriteFunctionCalls c users symbols n functions {} = some (functions', x)) :
    ∃ s, Requests hash sendingModule (initModule id concurrent) s ∧ Agrees sendingModule s ∧
      (∀ name, x.Knows name → ∃ w ∈ s.wrappedFunctions, w.wrapper = render s.id name) ∧
      ∀ u target, x.targets u = some target →
        ∃ w ∈ s.wrappedFunctions, w.wrapper = render s.id target.wrapper := by
  have hstart : Tracks (initModule id concurrent) {} :=
    ⟨fun _ hname ↦ absurd hname List.not_mem_nil,
      fun _ _ hu ↦ absurd hu (Option.some_ne_none _).symm⟩
  obtain ⟨s, hrun, h⟩ := hstart.rewriteFunctionCalls hhash sendingModule hf hx
  have hinv : Inv sendingModule s := by
    clear h
    induction hrun with
    | refl => exact inv_initModule sendingModule id concurrent
    | tail _ hstep ih =>
      obtain ⟨e, hstep⟩ := hstep
      exact ih.step hstep
  exact ⟨s, hrun, hinv.agrees, fun name hname ↦ List.mem_map.mp (h.knows name hname),
    fun u target hu ↦ List.mem_map.mp (h.knows _ (h.targets u target hu))⟩

end Rewriting

/-! ## The codes of a program -/

section Program

variable {F C : Type} {prog : Ipc.RemoteCalls.Program F C} {s : CommunicationPair}

/-- The names of the functions of a program, in a pair with a wrapper for each library function. -/
structure Names (prog : Ipc.RemoteCalls.Program F C) (s : CommunicationPair) where
  nameOf : F → Str
  functionNamed : Str → Option F
  functionNamed_nameOf : ∀ f, functionNamed (nameOf f) = some f
  wrapped : ∀ f, prog.home f = .library → ∃ w ∈ s.wrappedFunctions, w.original = nameOf f
  not_internal : ∀ f, prog.home f = .library →
    nameOf f ∉ internalFunctions.map LlvmFunction.name

namespace Names

variable (names : Names prog s) {f : F}

def codeOf (f : F) : ℕ :=
  (s.wrappedFunctions.find? (·.original = names.nameOf f)).elim 0 WrapperFunctionInfos.code

theorem exists_wrapper (hf : prog.home f = .library) :
    ∃ w ∈ s.wrappedFunctions, w.original = names.nameOf f ∧ names.codeOf f = w.code := by
  obtain ⟨v, hv, hname⟩ := names.wrapped f hf
  cases hfind : s.wrappedFunctions.find? (·.original = names.nameOf f) with
  | none => exact absurd (decide_eq_true hname) (List.find?_eq_none.mp hfind v hv)
  | some w =>
    have horiginal : w.original = names.nameOf f := by
      simpa only [decide_eq_true_iff] using List.find?_some hfind
    refine ⟨w, List.mem_of_find?_eq_some hfind, horiginal, ?_⟩
    rw [codeOf, hfind]
    rfl

theorem lt_codeOf (h : Agrees .module1 s) (hf : prog.home f = .library) : 8 < names.codeOf f := by
  obtain ⟨w, hw, hname, hcode⟩ := names.exists_wrapper hf
  refine hcode ▸ h.others w hw fun hmem ↦ names.not_internal f hf ?_
  obtain ⟨g, hg, hwrapper⟩ := List.mem_map.mp hmem
  obtain ⟨i, hi⟩ := List.getElem?_of_mem hg
  obtain ⟨v, hv, hv', horiginal, -⟩ := h.internal i g hi
  obtain rfl : v = w := List.inj_on_of_nodup_map h.names hv hw (hv'.trans hwrapper)
  rw [← hname, horiginal]
  exact List.mem_map_of_mem hg

/-- **The codes that the processes use** are those that the pair has given to the wrappers, and the
switch is that of `process_ipc_call_2`. -/
def codes (h : Agrees .module1 s) (hlt : s.nextCode ≤ 2 ^ 31) : Ipc.RemoteCalls.Codes prog where
  codeOf := names.codeOf
  processIpcCall code := do
    let (_, handler) ← (s.processIpcCall .module2).find? (·.1 = code)
    names.functionNamed handler.func
  processIpcCall_codeOf f hf := by
    obtain ⟨w, hw, hname, hcode⟩ := names.exists_wrapper hf
    have hcase := h.dispatch w hw
    rw [hcode, ← List.head?_filter]
    simp only [Party.other] at hcase
    rw [hcase, ← names.functionNamed_nameOf f, ← hname]
    rfl
  lt_codeOf f hf := names.lt_codeOf h hf
  codeOf_lt f hf := by
    obtain ⟨w, hw, -, hcode⟩ := names.exists_wrapper hf
    rw [hcode]
    exact Nat.lt_of_lt_of_le (h.code_lt w hw) hlt

end Names

end Program

def rewritten : Option (List LlvmFunction × Rewriter) :=
  Linker.rewriteFunctionCalls ⟨false, fun args ↦ (typeStr args).length⟩ storedAndCalled.users
    ["png_read".toList] 9 storedAndCalled.functions {}

theorem exists_agrees_storedAndCalled :
    ∃ r, rewritten = some r ∧ ∃ s, Requests List.length .module1 (initModule 0 false) s ∧
      Agrees .module1 s ∧
      (∀ name, r.2.Knows name → ∃ w ∈ s.wrappedFunctions, w.wrapper = render s.id name) ∧
      ∀ u target, r.2.targets u = some target →
        ∃ w ∈ s.wrappedFunctions, w.wrapper = render s.id target.wrapper :=
  ⟨_, rfl, exists_agrees_of_rewriteFunctionCalls (fun _ ↦ rfl) _ 0 false (by decide)
    (show rewritten = some _ from rfl)⟩

/-- **Codes and dispatch agree.**  After `initModule` and any requests of one module, each of which
has been answered with the name of a wrapper. -/
theorem agrees_of_run {hash : Str → ℕ} {sendingModule : Party} {id : ℕ} {concurrent : Bool}
    {t : List ((Request × Str) × CommunicationPair)}
    (hrun : IsRun (Step hash sendingModule) (initModule id concurrent) t) :
    (∀ s ∈ runStates (initModule id concurrent) t, Agrees sendingModule s) ∧
      ∀ e ∈ t, ∃ w ∈ e.2.wrappedFunctions, w.wrapper = e.1.2 := by
  have hinv := hrun.always (I := Inv sendingModule) (fun _ _ _ h hstep ↦ h.step hstep)
    (inv_initModule sendingModule id concurrent)
  exact ⟨fun s hs ↦ (hinv s hs).agrees, fun e he ↦
    List.mem_map.mp (hrun.forall_mem (fun _ _ _ hstep ↦ hstep.mem_names) e he)⟩

def inflate : LlvmFunction :=
  ⟨"inflate".toList, true, false, ["%struct.z_stream_s*".toList, "i32".toList], []⟩

def gzprintf : LlvmFunction :=
  ⟨"gzprintf".toList, true, true, ["%struct.gzFile_s*".toList, "i8*".toList], []⟩

/-- Requests for a function with a fixed number of parameters and for three calls of a variadic
one. -/
def zlibRequests : List Request :=
  [⟨inflate, none⟩, ⟨gzprintf, some gzprintf.params⟩,
    ⟨gzprintf, some (gzprintf.params ++ ["i32".toList])⟩,
    ⟨gzprintf, some (gzprintf.params ++ ["double".toList])⟩]

/-- A run to which the theorem applies. -/
theorem agrees_zlibRequests :
    ∃ t : List ((Request × Str) × CommunicationPair), t.map (fun e ↦ e.1.1) = zlibRequests ∧
      IsRun (Step List.length .module1) (initModule 1 true) t ∧
      (∀ s ∈ runStates (initModule 1 true) t, Agrees .module1 s) ∧
      ∀ e ∈ t, ∃ w ∈ e.2.wrappedFunctions, w.wrapper = e.1.2 := by
  have hrs : ∀ r ∈ zlibRequests, r.Answerable := by
    unfold zlibRequests
    simp only [List.forall_mem_cons, List.not_mem_nil, false_imp_iff, implies_true, and_true]
    exact ⟨fun h ↦ absurd h Bool.false_ne_true, fun _ ↦ rfl, fun _ ↦ rfl, fun _ ↦ rfl⟩
  obtain ⟨t, ht, hrun⟩ := exists_run List.length .module1 (initModule 1 true) hrs
  exact ⟨t, ht, hrun, agrees_of_run hrun⟩

end Cali.Linker.Wrappers
