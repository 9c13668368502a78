import Cali.Ipc.Callbacks
import Cali.Lib.Layout

/-!
# Remote calls

A program is linked from functions of two modules and then run in two processes.  In the main
module every name of a library function has been replaced by its wrapper.  A wrapper stores its
arguments and the code of the function into the buffer that its process writes, and waits; the
other process loads the arguments, calls the function, and stores the result into the buffer that
it writes.  Function pointers among arguments and results are exchanged for numbers, and calling
the trampoline of a number is a remote call in the other direction.  With each message goes the
value of `errno`.

The functions of a program are written in a small language: registers, loads and stores, and
calls through pointers.  It has two meanings here.  `Image.invoke` is that of the program in one
process, before it is isolated.  `Image.remoteInvoke` is that of the two processes, where all that
the generated code and `libipc` do for a call is carried out on the bytes of the buffers and the
tables of the processes.
-/

namespace Cali.Ipc.RemoteCalls

open Cali.Lib Cali.Ipc.Callbacks

/-! ## Programs -/

/-- The types of values, as far as the generated code tells them apart: values that are copied,
and pointers to functions of a type. -/
inductive Ty (C : Type)
  | data (size logAlign : ℕ)
  | callback (type : C)

/-- How a value of the type is stored. -/
def Ty.field {C : Type} : Ty C → Field
  | .data size logAlign => ⟨size, logAlign⟩
  | .callback _ => ⟨8, 3⟩

structure Signature (C : Type) where
  params : List (Ty C)
  result : Option (Ty C)

/-- The code of functions `F` with the function types `C`.  Registers are numbered; an instruction
with a result adds one.  `next` is what comes after an instruction.  To call a function by its
name is to call a reference to it. -/
inductive Code (F C : Type)
  | ret (result : Option ℕ)
  | compute (size logAlign : ℕ) (g : List ℕ → ℕ) (args : List ℕ) (next : Code F C)
  | branch (g : List ℕ → Bool) (args : List ℕ) (yes no : Code F C)
  | errno (next : Code F C)
  | setErrno (arg : ℕ) (next : Code F C)
  | load (size logAlign : ℕ) (address : ℕ) (next : Code F C)
  | store (size address value : ℕ) (next : Code F C)
  | reference (f : F) (next : Code F C)
  | reserved (type : C) (value : Pointer) (next : Code F C)
  | isReserved (arg : ℕ) (value : Pointer) (yes no : Code F C)
  | call (callee : ℕ) (args : List ℕ) (next : Code F C)

/-- A program: the function types, and for each function its type, its module and its code. -/
structure Program (F C : Type) where
  signature : C → Signature C
  typeOf : F → C
  home : F → Side
  body : F → Code F C

/-- The signature of a function. -/
def Program.sig {F C : Type} (prog : Program F C) (f : F) : Signature C :=
  prog.signature (prog.typeOf f)

/-- Why an execution has no result: the bound on its steps was too small, it did something that
has no meaning, or the system had no memory for a callback. -/
inductive Fault
  | fuel
  | crash
  | memory

/-- The code that is generated for functions and function types, next to the functions. -/
inductive Symbol (F C : Type)
  | function (f : F)
  | wrapper (f : F)
  | handler (type : C)
  | replacement (type : C)

/-- What the name of a function stands for in the code that a process executes: in the main
module the names of library functions have been replaced. -/
def Program.symbol {F C : Type} (prog : Program F C) (s : Side) (f : F) : Symbol F C :=
  match s, prog.home f with
  | .main, .library => .wrapper f
  | _, _ => .function f

/-- The size of the buffers that are passed to the constructor of `IpcCommunication`. -/
def bufferSize : ℕ := 2048

/-- The offsets of the members of `__ipc_data`. -/
def errnoOffset : ℕ := 4
def callbacknumberOffset : ℕ := 8
def dataOffset : ℕ := 16

/-- The codes of the wrappers, and the switch of the library process. -/
structure Codes {F C : Type} (prog : Program F C) where
  codeOf : F → ℕ
  processIpcCall : ℕ → Option F
  processIpcCall_codeOf : ∀ f, prog.home f = .library → processIpcCall (codeOf f) = some f
  lt_codeOf : ∀ f, prog.home f = .library → 8 < codeOf f
  codeOf_lt : ∀ f, prog.home f = .library → codeOf f < 2 ^ 31

/-- The linked program as it is in both processes after the fork: where its code is, the codes,
and the buffers. -/
structure Image {F C : Type} (prog : Program F C) extends Codes prog where
  address : Symbol F C → Pointer
  symbolAt : Pointer → Option (Symbol F C)
  buffer : Side → ℕ
  symbolAt_address : ∀ x, symbolAt (address x) = some x
  address_of_symbolAt : ∀ p x, symbolAt p = some x → address x = p
  address_not_reserved : ∀ x, ¬ Reserved (address x)

/-- The value of a register. -/
def reg (env : List ℕ) (i : ℕ) : Except Fault ℕ :=
  match env[i]? with
  | some v => .ok v
  | none => .error .crash

def regs (env : List ℕ) : List ℕ → Except Fault (List ℕ)
  | [] => .ok []
  | i :: is => do
      let v ← reg env i
      let vs ← regs env is
      return v :: vs

/-- How pointers are called in surroundings with states `σ`. -/
abbrev Invoke (σ : Type) := Pointer → List ℕ → σ → Except Fault (Option ℕ × σ)

/-- What code asks of its surroundings. -/
structure Host (F σ : Type) where
  errno : σ → ℕ
  setErrno : ℕ → σ → σ
  load : ℕ → ℕ → σ → Except Fault ℕ
  store : ℕ → ℕ → ℕ → σ → Except Fault σ
  reference : F → Pointer
  invoke : Invoke σ

/-- The meaning of code. -/
def Code.exec {F C σ : Type} (host : Host F σ) :
    Code F C → List ℕ → σ → Except Fault (Option ℕ × σ)
  | .ret none, _, s => .ok (none, s)
  | .ret (some i), env, s => do
      let v ← reg env i
      return (some v, s)
  | .compute size _ g args next, env, s => do
      let vs ← regs env args
      next.exec host (env ++ [g vs % 256 ^ size]) s
  | .branch g args yes no, env, s => do
      let vs ← regs env args
      if g vs then yes.exec host env s else no.exec host env s
  | .errno next, env, s => next.exec host (env ++ [host.errno s]) s
  | .setErrno i next, env, s => do
      let v ← reg env i
      next.exec host env (host.setErrno (v % 256 ^ 4) s)
  | .load size _ i next, env, s => do
      let a ← reg env i
      let v ← host.load size a s
      next.exec host (env ++ [v]) s
  | .store size i j next, env, s => do
      let a ← reg env i
      let v ← reg env j
      let s ← host.store size a v s
      next.exec host env s
  | .reference f next, env, s => next.exec host (env ++ [(host.reference f).toNat]) s
  | .reserved _ value next, env, s => next.exec host (env ++ [value.toNat]) s
  | .isReserved i value yes no, env, s => do
      let v ← reg env i
      if v = value.toNat then yes.exec host env s else no.exec host env s
  | .call i args next, env, s => do
      let p ← reg env i
      let vs ← regs env args
      let (r, s) ← host.invoke (.ofNat 64 p) vs s
      next.exec host (env ++ r.toList) s

/-! ## One process -/

/-- The program in one process. -/
structure Single where
  errno : ℕ
  memory : ℕ → BitVec 8

variable {F C : Type} {prog : Program F C} (img : Image prog)

namespace Image

/-- The bytes belong to the program. -/
def Free (a n : ℕ) : Prop :=
  Apart a n (img.buffer .main) bufferSize ∧ Apart a n (img.buffer .library) bufferSize

instance (a n : ℕ) : Decidable (img.Free a n) :=
  inferInstanceAs (Decidable ((_ ∨ _) ∧ (_ ∨ _)))

/-- One process.  The buffers are not memory that the program was given. -/
def host (invoke : Invoke Single) : Host F Single where
  errno s := s.errno
  setErrno v s := { s with errno := v }
  load size a s := if img.Free a size then .ok (leValue (read s.memory a size)) else .error .crash
  store size a v s :=
    if img.Free a size then .ok { s with memory := write s.memory a (leBytes size v) }
    else .error .crash
  reference f := img.address (.function f)
  invoke := invoke

/-- A call in one process.  The first argument bounds the depth of calls. -/
def invoke : ℕ → Invoke Single
  | 0, _, _, _ => .error .fuel
  | n + 1, callee, vs, s =>
    match img.symbolAt callee with
    | some (.function f) => (prog.body f).exec (img.host (invoke n)) vs s
    | _ => .error .crash

end Image

/-! ## Two processes -/

/-- The two processes with the memory that they share. -/
structure Machine where
  process : System
  errno : Side → ℕ
  memory : ℕ → BitVec 8

/-- A page for trampolines: it is apart from the code, and not the page of the null pointer. -/
structure Clear (page : Pointer) : Prop where
  lt_page : callbackMaxReserved < page
  apart_code : ∀ x, Apart page.toNat pageSize (img.address x).toNat 1

/-- Pages for trampolines, as long as there are any. -/
structure Kernel where
  mmap : Callbacks.Process → Option Pointer
  fresh : ∀ p page, mmap p = some page → p.Mappable page ∧ Clear img page

namespace Machine

/-- Replaces a process. -/
def setProcess (t : Machine) (s : Side) (p : Callbacks.Process) : Machine :=
  { t with process := Function.update t.process s p }

/-- Stores a member of the structure in the buffer of a process. -/
def storeMember (t : Machine) (s : Side) (offset size value : ℕ) : Machine :=
  { t with memory := write t.memory (img.buffer s + offset) (leBytes size value) }

/-- Loads a member of the structure in the buffer of a process. -/
def loadMember (t : Machine) (s : Side) (offset size : ℕ) : ℕ :=
  leValue (read t.memory (img.buffer s + offset) size)

/-- The stores of values into the structure at `data`. -/
def storeData (t : Machine) (s : Side) (types : List (Ty C)) (values : List ℕ) : Machine :=
  { t with
    memory := storeFields (img.buffer s + dataOffset) (types.map Ty.field) 0 values t.memory }

/-- The loads from the structure at `data`. -/
def loadData (t : Machine) (s : Side) (types : List (Ty C)) : List ℕ :=
  loadFields t.memory (img.buffer s + dataOffset) (types.map Ty.field) 0

/-- `trigger_ipc_call`, and the end of the loop in `wait_for_return`: the message leaves with
`errno`. -/
def send (t : Machine) (s : Side) : Machine := t.storeMember img s errnoOffset 4 (t.errno s)

/-- The receipt of a message in `wait_for_return`. -/
def receive (t : Machine) (s : Side) : Machine :=
  { t with errno := Function.update t.errno s (t.loadMember img s.other errnoOffset 4) }

/-- `wrapOutgoingValue`: a function pointer goes through `wrap_outgoing_callback`. -/
def wrapOutgoingValue (t : Machine) (s : Side) : Ty C → ℕ → Except Fault (ℕ × Machine)
  | .data _ _, v => .ok (v, t)
  | .callback type, v =>
    let p := t.process s
    let wrapper := img.address (.handler type)
    match p.manager.wrapOutgoingCallback (.ofNat 64 v) wrapper with
    | none => .error .memory
    | some (number, manager) =>
      .ok (number.toNat, t.setProcess s
        { p with
          manager
          outgoing := ⟨.ofNat 64 v, wrapper, number⟩ :: p.outgoing })

/-- The pointer that the last call of `wrap_incoming_callback` has returned. -/
def lastIncoming (p : Callbacks.Process) : ℕ := (p.incoming.head?.map (·.result.toNat)).getD 0

/-- `wrapIncomingValue`: a function pointer goes through `wrap_incoming_callback`. -/
def wrapIncomingValue (kernel : Kernel img) (t : Machine) (s : Side) :
    Ty C → ℕ → Except Fault (ℕ × Machine)
  | .data _ _, v => .ok (v, t)
  | .callback type, v =>
    let p := t.process s
    let wrap (page : Pointer) : ℕ × Machine :=
      let p' := p.wrapIncomingCallback (.ofNat 64 v) (img.address (.replacement type)) page
      (lastIncoming p', t.setProcess s p')
    if callbackNeedsWrapping (.ofNat 64 v) && p.needsPage then
      match kernel.mmap p with
      | none => .error .memory
      | some page => .ok (wrap page)
    else .ok (wrap 0)

/-- The values of a call, one after the other. -/
def wrapValues (wrap : Machine → Ty C → ℕ → Except Fault (ℕ × Machine)) :
    List (Ty C) → List ℕ → Machine → Except Fault (List ℕ × Machine)
  | type :: types, v :: vs, t => do
      let (w, t) ← wrap t type v
      let (ws, t) ← wrapValues wrap types vs t
      return (w :: ws, t)
  | _, _, t => .ok ([], t)

end Machine

namespace Image

/-- The code at a pointer, with the value of `r11` there: a trampoline is executed until it
reaches generated code. -/
def target (p : Callbacks.Process) (callee : Pointer) : Option (Symbol F C × Pointer) :=
  match img.symbolAt callee with
  | some x => some (x, 0)
  | none => do
      let cpu ← X86.step p.memory ⟨callee, 0⟩
      let cpu ← X86.step p.memory cpu
      let x ← img.symbolAt cpu.rip
      return (x, cpu.r11)

/-- The code of a callback in a message, and the code of a reply. -/
def callbackCode : ℕ := 2
def replyCode : ℕ := 1

/-- What `wait_for_return` calls for a request in the buffer of the other process: the callback
through the handler it was entered with, or the function that `process_ipc_call_2` has for the
code. -/
def requested (t : Machine) (s : Side) : Option (Pointer × Signature C) :=
  let code := t.loadMember img s.other 0 4
  if code = callbackCode then do
    let number := t.loadMember img s.other callbacknumberOffset 8
    let entry ← (t.process s).manager.execute (.ofNat 64 number)
    match img.symbolAt entry.wrapper with
    | some (.handler type) => some (entry.callback, prog.signature type)
    | _ => none
  else if s = .library then do
    let f ← img.processIpcCall code
    return (img.address (.function f), prog.sig f)
  else none

/-- A request is received, carried out and answered: a handler in `process_ipc_call_2` or that of
a callback type, and the rest of the loop in `wait_for_return`. -/
def serve (kernel : Kernel img) (invoke : Invoke Machine) (t : Machine) (s : Side) :
    Except Fault Machine := do
  let t := t.receive img s
  match img.requested t s with
  | none => .error .crash
  | some (callee, signature) => do
      let ws := t.loadData img s.other signature.params
      let (vs, t) ← Machine.wrapValues (fun t ↦ t.wrapIncomingValue img kernel s)
        signature.params ws t
      let (r, t) ← invoke callee vs t
      let result := signature.result.toList
      let (ws, t) ← Machine.wrapValues (fun t ↦ t.wrapOutgoingValue img s) result r.toList t
      return ((t.storeData img s result ws).storeMember img s 0 4 replyCode).send img s

/-- The part of a request that is not its arguments: the code, and before it the number of a
callback. -/
inductive Request (F : Type)
  | function (f : F)
  | callback (number : Pointer)

def storeRequest (t : Machine) (s : Side) : Request F → Machine
  | .function f => t.storeMember img s 0 4 (img.codeOf f)
  | .callback number =>
    (t.storeMember img s callbacknumberOffset 8 number.toNat).storeMember img s 0 4 callbackCode

/-- The wrapper of a function, or the replacement of a callback type. -/
def remoteCall (kernel : Kernel img) (serve : Machine → Except Fault Machine)
    (signature : Signature C) (request : Request F) (vs : List ℕ) (t : Machine) (s : Side) :
    Except Fault (Option ℕ × Machine) := do
  let (ws, t) ← Machine.wrapValues (fun t ↦ t.wrapOutgoingValue img s) signature.params vs t
  let t := (img.storeRequest (t.storeData img s signature.params ws) s request).send img s
  let t ← serve t
  let t := t.receive img s
  if t.loadMember img s.other 0 4 = replyCode then
    let result := signature.result.toList
    let (vs, t) ← Machine.wrapValues (fun t ↦ t.wrapIncomingValue img kernel s) result
      (t.loadData img s.other result) t
    return (vs.head?, t)
  else .error .crash

/-- One of two processes. -/
def processHost (s : Side) (invoke : Invoke Machine) : Host F Machine where
  errno t := t.errno s
  setErrno v t := { t with errno := Function.update t.errno s v }
  load size a t := .ok (leValue (read t.memory a size))
  store size a v t := .ok { t with memory := write t.memory a (leBytes size v) }
  reference f := img.address (prog.symbol s f)
  invoke := invoke

/-- A call in the process `s` of two.  What the other process does for it is a call there. -/
def remoteInvoke (kernel : Kernel img) : ℕ → Side → Invoke Machine
  | 0, _, _, _, _ => .error .fuel
  | n + 1, s, callee, vs, t =>
    let serve (t : Machine) : Except Fault Machine :=
      img.serve kernel (remoteInvoke kernel n s.other) t s.other
    match img.target (t.process s) callee with
    | some (.function f, _) =>
      (prog.body f).exec (img.processHost s (remoteInvoke kernel n s)) vs t
    | some (.wrapper f, _) =>
      img.remoteCall kernel serve (prog.sig f) (.function f) vs t s
    | some (.replacement type, r11) =>
      img.remoteCall kernel serve (prog.signature type) (.callback r11) vs t s
    | _ => .error .crash

end Image

end Cali.Ipc.RemoteCalls
