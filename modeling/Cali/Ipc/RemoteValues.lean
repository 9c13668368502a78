import Cali.Ipc.RemoteCalls
import Cali.Lib.Settles

/-!
# The values of two processes

Which values of the two processes stand for a value of the program in one process.  Values that
are copied are the same.  Function pointers are not: the pointer that a process gets for a
function of the other one is a trampoline, and one that goes back and forth is a trampoline for a
trampoline.  `Denotes` says which function a pointer stands for in the end.  A value keeps what it
stands for when it leaves one process and arrives in the other, and whatever else is wrapped
later.
-/

namespace Cali.Ipc.RemoteCalls

open Cali.Lib Cali.Ipc.Callbacks Image Machine

variable {F C : Type}

/-! ## Well-typed programs -/

/-- The register has a value that is copied. -/
def IsData (Γ : List (Ty C)) (i : ℕ) : Prop :=
  ∃ size logAlign, Γ[i]? = some (.data size logAlign)

/-- Code of the module `s` can name the function.  Only the main module is rewritten. -/
def Program.Names (prog : Program F C) (s : Side) (f : F) : Prop :=
  s = .main ∨ prog.home f = .library

section

variable (prog : Program F C) (s : Side) (R : Option (Ty C))

/-- Code of the module `s` with registers of the types `Γ` and a result of the type `R`. -/
def Typed : List (Ty C) → Code F C → Prop
  | _, .ret none => R = none
  | Γ, .ret (some i) => ∃ type, R = some type ∧ Γ[i]? = some type
  | Γ, .compute size logAlign _ args next =>
    (∀ i ∈ args, IsData Γ i) ∧ Typed (Γ ++ [.data size logAlign]) next
  | Γ, .branch _ args yes no => (∀ i ∈ args, IsData Γ i) ∧ Typed Γ yes ∧ Typed Γ no
  | Γ, .errno next => Typed (Γ ++ [.data 4 2]) next
  | Γ, .setErrno i next => IsData Γ i ∧ Typed Γ next
  | Γ, .load size logAlign i next => IsData Γ i ∧ Typed (Γ ++ [.data size logAlign]) next
  | Γ, .store _ i j next => IsData Γ i ∧ IsData Γ j ∧ Typed Γ next
  | Γ, .reference f next => prog.Names s f ∧ Typed (Γ ++ [.callback (prog.typeOf f)]) next
  | Γ, .reserved type value next => Reserved value ∧ Typed (Γ ++ [.callback type]) next
  | Γ, .isReserved i value yes no =>
    (∃ type, Γ[i]? = some (.callback type)) ∧ Reserved value ∧ Typed Γ yes ∧ Typed Γ no
  | Γ, .call i args next =>
    ∃ type, Γ[i]? = some (.callback type) ∧
      List.Forall₂ (Γ[·]? = some ·) args (prog.signature type).params ∧
      Typed (Γ ++ (prog.signature type).result.toList) next

end

/-- The values of the types fit into a buffer. -/
def FitBuffer (types : List (Ty C)) : Prop :=
  dataOffset + fieldsEnd (types.map Ty.field) 0 ≤ bufferSize

instance (types : List (Ty C)) : Decidable (FitBuffer types) := inferInstanceAs (Decidable (_ ≤ _))

/-- A program whose functions are well typed, with arguments and results that fit. -/
structure WellTyped (prog : Program F C) : Prop where
  body : ∀ f, Typed prog (prog.home f) (prog.sig f).result (prog.sig f).params (prog.body f)
  params : ∀ type, FitBuffer (prog.signature type).params
  result : ∀ type, FitBuffer (prog.signature type).result.toList

/-! ## Values in two processes -/

variable {prog : Program F C} (img : Image prog)

/-- The pointer stands for the function `f` in the process `s`: it is the function, or its
wrapper, or a trampoline whose number has been entered by the other process for a pointer that
stands for the function there. -/
inductive Denotes (ps : System) : Side → Pointer → F → Prop
  | own {s : Side} {f : F} : prog.home f = s → Denotes ps s (img.address (.function f)) f
  | wrapper {f : F} : prog.home f = .library → Denotes ps .main (img.address (.wrapper f)) f
  | callback {s : Side} {f : F} {i : Incoming} {p : Pointer} : i ∈ (ps s).incoming →
      ¬ Reserved i.callback → i.replacement = img.address (.replacement (prog.typeOf f)) →
      (ps s.other).manager.execute i.callback =
        some ⟨p, img.address (.handler (prog.typeOf f))⟩ →
      Denotes ps s.other p f → Denotes ps s i.result f

/-- The number stands for the function `f` in a message from the process `s`. -/
def Travels (ps : System) (s : Side) (number : Pointer) (f : F) : Prop :=
  ¬ Reserved number ∧ ∃ p,
    (ps s).manager.execute number = some ⟨p, img.address (.handler (prog.typeOf f))⟩ ∧
    Denotes img ps s p f

/-- A value of the program in one process, and a value that stands for it, where `P` says what
stands for a function. -/
inductive Related (P : Pointer → F → Prop) : Ty C → ℕ → ℕ → Prop
  | data {size logAlign v : ℕ} : v < 256 ^ size → Related P (.data size logAlign) v v
  | reserved {type : C} {p : Pointer} : Reserved p → Related P (.callback type) p.toNat p.toNat
  | callback {f : F} {p : Pointer} : P p f →
      Related P (.callback (prog.typeOf f)) (img.address (.function f)).toNat p.toNat

/-- The values of the process `s`. -/
abbrev Held (ps : System) (s : Side) : Ty C → ℕ → ℕ → Prop := Related img (Denotes img ps s)

/-- The values in a message from the process `s`. -/
abbrev InTransit (ps : System) (s : Side) : Ty C → ℕ → ℕ → Prop := Related img (Travels img ps s)

/-- A relation between the values of two lists of registers. -/
inductive Pointwise (R : Ty C → ℕ → ℕ → Prop) : List (Ty C) → List ℕ → List ℕ → Prop
  | nil : Pointwise R [] [] []
  | cons {type : Ty C} {types : List (Ty C)} {v w : ℕ} {vs ws : List ℕ} : R type v w →
      Pointwise R types vs ws → Pointwise R (type :: types) (v :: vs) (w :: ws)

/-- The processes only ever add to their tables and trampolines. -/
structure Grows (ps ps' : System) : Prop where
  incoming : ∀ s, ∀ i ∈ (ps s).incoming, i ∈ (ps' s).incoming
  execute : ∀ s number entry, (ps s).manager.execute number = some entry →
    (ps' s).manager.execute number = some entry

/-- What always holds of a process: its callbacks are in order, and its trampolines are not where
the code is. -/
structure Sound (p : Callbacks.Process) : Prop where
  ok : ProcessOk p
  clear : ∀ page ∈ p.pages, Clear img page

abbrev AllSound (ps : System) : Prop := ∀ side, Sound img (ps side)

section Relations

variable {img} {ps ps' ps'' : System} {s : Side} {p : Pointer} {f : F} {type : Ty C} {v w : ℕ}
  {P Q : Pointer → F → Prop} {R R' : Ty C → ℕ → ℕ → Prop} {Γ types types' : List (Ty C)}
  {vs ws vs' ws' env env' : List ℕ}

theorem Grows.refl (ps : System) : Grows ps ps := ⟨fun _ _ h ↦ h, fun _ _ _ h ↦ h⟩

theorem Grows.trans (h : Grows ps ps') (h' : Grows ps' ps'') : Grows ps ps'' :=
  ⟨fun s i hi ↦ h'.incoming s i (h.incoming s i hi),
    fun s n e he ↦ h'.execute s n e (h.execute s n e he)⟩

theorem Denotes.mono (hgrows : Grows ps ps') (h : Denotes img ps s p f) :
    Denotes img ps' s p f := by
  induction h with
  | own hf => exact .own hf
  | wrapper hf => exact .wrapper hf
  | callback hi hcallback hreplacement hexecute _ ih =>
    exact .callback (hgrows.incoming _ _ hi) hcallback hreplacement
      (hgrows.execute _ _ _ hexecute) ih

theorem Travels.mono (hgrows : Grows ps ps') (h : Travels img ps s p f) :
    Travels img ps' s p f := by
  obtain ⟨hnumber, q, hexecute, hq⟩ := h
  exact ⟨hnumber, q, hgrows.execute _ _ _ hexecute, hq.mono hgrows⟩

theorem Related.imp (hP : ∀ p f, P p f → Q p f) (h : Related img P type v w) :
    Related img Q type v w := by
  cases h with
  | data hv => exact .data hv
  | reserved hp => exact .reserved hp
  | callback hp => exact .callback (hP _ _ hp)

theorem Pointwise.imp (hR : ∀ type v w, R type v w → R' type v w) (h : Pointwise R types vs ws) :
    Pointwise R' types vs ws := by
  induction h with
  | nil => exact .nil
  | cons h _ ih => exact .cons (hR _ _ _ h) ih

theorem Pointwise.mono (hgrows : Grows ps ps') (h : Pointwise (Held img ps s) types vs ws) :
    Pointwise (Held img ps' s) types vs ws :=
  h.imp fun _ _ _ ↦ Related.imp fun _ _ ↦ Denotes.mono hgrows

theorem Pointwise.append (h : Pointwise R types vs ws) (h' : Pointwise R types' vs' ws') :
    Pointwise R (types ++ types') (vs ++ vs') (ws ++ ws') := by
  induction h with
  | nil => exact h'
  | cons h _ ih => exact .cons h ih

theorem Pointwise.head? {type : Option (Ty C)} {v : Option ℕ}
    (h : Pointwise R type.toList v.toList ws) :
    Pointwise R type.toList v.toList ws.head?.toList := by
  match type, v, ws, h with
  | none, none, [], .nil => exact .nil
  | some _, some _, [_], .cons h .nil => exact .cons h .nil

theorem Pointwise.reg_eq (h : Pointwise R Γ env env') {i : ℕ} (hi : Γ[i]? = some type) :
    ∃ v w, reg env i = .ok v ∧ reg env' i = .ok w ∧ R type v w := by
  induction h generalizing i with
  | nil => cases hi
  | @cons type' types v w vs ws hR _ ih =>
    cases i with
    | zero =>
      cases hi
      exact ⟨v, w, rfl, rfl, hR⟩
    | succ i => exact ih hi

theorem regs_cons {i : ℕ} {is : List ℕ} (hv : reg env i = .ok v) (hvs : regs env is = .ok vs) :
    regs env (i :: is) = .ok (v :: vs) := by
  rw [regs, hv, hvs]
  rfl

theorem Pointwise.regs_eq (h : Pointwise R Γ env env') {args : List ℕ}
    (hargs : List.Forall₂ (Γ[·]? = some ·) args types) :
    ∃ vs ws, regs env args = .ok vs ∧ regs env' args = .ok ws ∧ Pointwise R types vs ws := by
  induction hargs with
  | nil => exact ⟨[], [], rfl, rfl, .nil⟩
  | cons hi _ ih =>
    obtain ⟨v, w, hv, hw, hR⟩ := h.reg_eq hi
    obtain ⟨vs, ws, hvs, hws, hRs⟩ := ih
    exact ⟨v :: vs, w :: ws, regs_cons hv hvs, regs_cons hw hws, .cons hR hRs⟩

theorem Pointwise.data_eq (h : Pointwise (Related img P) Γ env env') {i : ℕ} (hi : IsData Γ i) :
    ∃ v, reg env i = .ok v ∧ reg env' i = .ok v := by
  obtain ⟨size, logAlign, hi⟩ := hi
  obtain ⟨v, w, hv, hw, hR⟩ := h.reg_eq hi
  cases hR with
  | data => exact ⟨v, hv, hw⟩

theorem Pointwise.datas_eq (h : Pointwise (Related img P) Γ env env') {args : List ℕ}
    (hargs : ∀ i ∈ args, IsData Γ i) : ∃ vs, regs env args = .ok vs ∧ regs env' args = .ok vs := by
  induction args with
  | nil => exact ⟨[], rfl, rfl⟩
  | cons i args ih =>
    obtain ⟨hi, hargs⟩ := List.forall_mem_cons.mp hargs
    obtain ⟨v, hv, hw⟩ := h.data_eq hi
    obtain ⟨vs, hvs, hws⟩ := ih hargs
    exact ⟨v :: vs, regs_cons hv hvs, regs_cons hw hws⟩

theorem Related.fits (h : Related img P type v w) : w < 256 ^ type.field.size := by
  cases h with
  | data hv => exact hv
  | @reserved _ p => exact p.isLt
  | @callback _ p => exact p.isLt

theorem Pointwise.fitFields (h : Pointwise (Related img P) types vs ws) :
    FitFields (types.map Ty.field) ws := by
  induction h with
  | nil => exact .nil
  | cons h _ ih => exact .cons h.fits ih

/-- A pointer that stands for a function is not a reserved value: a trampoline lies in a page, and
the page of the null pointer is never mapped. -/
theorem Denotes.not_reserved (hsound : AllSound img ps) (h : Denotes img ps s p f) :
    ¬ Reserved p := by
  cases h with
  | own => exact img.address_not_reserved _
  | wrapper => exact img.address_not_reserved _
  | callback hi hcallback =>
    obtain ⟨page, hpage, hle, hend⟩ := (hsound s).ok.survives.incoming_within _ hi hcallback
    obtain ⟨a, ha⟩ := (hsound s).ok.trampolines.arena
    have hfits := ha.fits page hpage
    have hlt : 5 < page.toNat := ((hsound s).clear page hpage).lt_page
    unfold trampolineSize at hend
    unfold Reserved
    bv_omega

end Relations

/-! ## Values leave and arrive -/

/-- The only error that the processes may end with. -/
def NoMemory (e : Fault) : Prop := e = .memory

/-- Nothing but the callbacks of the processes has changed. -/
structure Moved (t t' : Machine) : Prop where
  sound : AllSound img t'.process
  grows : Grows t.process t'.process
  errno : t'.errno = t.errno
  memory : t'.memory = t.memory

section Wrapping

variable {img} {kernel : Kernel img} {t t' t'' : Machine} {s : Side} {p : Callbacks.Process}
  {callback wrapper replacement page number : Pointer} {type : Ty C} {types : List (Ty C)}
  {v w : ℕ} {vs ws : List ℕ}

theorem Moved.refl (h : AllSound img t.process) : Moved img t t :=
  ⟨h, .refl _, rfl, rfl⟩

theorem Moved.trans (h : Moved img t t') (h' : Moved img t' t'') : Moved img t t'' :=
  ⟨h'.sound, h.grows.trans h'.grows, h'.errno.trans h.errno, h'.memory.trans h.memory⟩

theorem process_setProcess_self : (t.setProcess s p).process s = p := Function.update_self ..

theorem moved_setProcess (h : AllSound img t.process) (hp : Sound img p)
    (hincoming : ∀ i ∈ (t.process s).incoming, i ∈ p.incoming)
    (hexecute : ∀ number entry, (t.process s).manager.execute number = some entry →
      p.manager.execute number = some entry) : Moved img t (t.setProcess s p) := by
  refine ⟨fun side ↦ ?_, ⟨fun side ↦ ?_, fun side ↦ ?_⟩, rfl, rfl⟩ <;>
    rcases eq_or_ne side s with rfl | hside <;> simp_all [setProcess]

theorem execute_wrapOutgoingCallback {m m' : CallbackManager} {result : Pointer}
    {entry : CallbackEntry} (hnumbers : m.callbackNumbers = []) (hcallback : ¬ Reserved callback)
    (hwrap : m.wrapOutgoingCallback callback wrapper = some (result, m'))
    (hentry : m.execute number = some entry) : m'.execute number = some entry := by
  obtain ⟨-, -, rfl⟩ := wrapOutgoingCallback_of_not_reserved hnumbers hcallback hwrap
  exact (List.getElem?_append_left (List.getElem?_eq_some_iff.mp hentry).1).trans hentry

/-- **A value leaves a process.** -/
theorem settles_wrapOutgoingValue (hsound : AllSound img t.process)
    (h : Held img t.process s type v w) :
    Settles NoMemory (fun _ ↦ t.wrapOutgoingValue img s type w) fun r ↦
      Moved img t r.2 ∧ InTransit img r.2.process s type v r.1 := by
  cases h with
  | data hv => exact .pure ⟨.refl hsound, .data hv⟩
  | @reserved type p hp =>
    have hwrap : (t.process s).manager.wrapOutgoingCallback p (img.address (.handler type)) =
        some (p, (t.process s).manager) := wrapOutgoingCallback_of_reserved hp
    simp only [wrapOutgoingValue, BitVec.ofNat_toNat, BitVec.setWidth_eq, hwrap]
    exact .pure ⟨moved_setProcess hsound { hsound s with ok := (hsound s).ok.wrapOutgoing hwrap }
      (fun _ hi ↦ hi) (fun _ _ he ↦ he), .reserved hp⟩
  | @callback f p hp =>
    have hcallback := hp.not_reserved hsound
    simp only [wrapOutgoingValue, BitVec.ofNat_toNat, BitVec.setWidth_eq]
    cases hwrap : (t.process s).manager.wrapOutgoingCallback p
        (img.address (.handler (prog.typeOf f))) with
    | none => exact .throw rfl
    | some r =>
      have hok := (hsound s).ok.wrapOutgoing hwrap
      have hmoved : Moved img t (t.setProcess s _) := moved_setProcess hsound
        { hsound s with ok := hok } (fun _ hi ↦ hi) fun _ _ ↦
          execute_wrapOutgoingCallback (hsound s).ok.table.numbers hcallback hwrap
      refine .pure ⟨hmoved, .callback ⟨?_, p, ?_, hp.mono hmoved.grows⟩⟩
      · exact callbackNeedsWrapping_iff.mp
          (hok.survives.outgoing_number _ List.mem_cons_self hcallback)
      · rw [process_setProcess_self]
        exact hok.table.execute _ List.mem_cons_self hcallback

theorem wrapIncomingCallback_spec (p : Callbacks.Process) (callback replacement page : Pointer) :
    ∃ result pages, (p.wrapIncomingCallback callback replacement page).incoming =
        ⟨callback, replacement, result⟩ :: p.incoming ∧
      (p.wrapIncomingCallback callback replacement page).pages = pages ++ p.pages ∧
      (pages = [] ∨
        pages = [page] ∧ callbackNeedsWrapping callback = true ∧ p.needsPage = true) := by
  unfold Process.wrapIncomingCallback
  split
  · exact ⟨callback, [], rfl, rfl, .inl rfl⟩
  · split
    next hneeds hfull =>
      exact ⟨page, [page], rfl, rfl, .inr ⟨rfl, by simpa using hneeds, hfull⟩⟩
    next => exact ⟨p.manager.trampolines, [], rfl, rfl, .inl rfl⟩

/-- A number, or a reserved value, arrives in a process with a page for its trampoline. -/
theorem wrapIncoming_spec (hsound : AllSound img t.process) {c : C}
    (hpage : callbackNeedsWrapping callback = true → (t.process s).needsPage = true →
      (t.process s).Mappable page ∧ Clear img page)
    (h : InTransit img t.process s.other (.callback c) v callback.toNat) :
    let p := (t.process s).wrapIncomingCallback callback (img.address (.replacement c)) page
    Moved img t (t.setProcess s p) ∧
      Held img (t.setProcess s p).process s (.callback c) v (lastIncoming p) := by
  intro p
  obtain ⟨result, pages, hincoming, hpages, hnew⟩ :=
    wrapIncomingCallback_spec (t.process s) callback (img.address (.replacement c)) page
  obtain ⟨trampolines, remaining, hmanager, -⟩ :=
    manager_wrapIncomingCallback (t.process s) callback (img.address (.replacement c)) page
  have hp : Sound img p := by
    refine ⟨(hsound s).ok.wrapIncoming fun hneeds hfull ↦ (hpage hneeds hfull).1, ?_⟩
    rw [hpages, List.forall_mem_append]
    refine ⟨?_, (hsound s).clear⟩
    rcases hnew with rfl | ⟨rfl, hneeds, hfull⟩
    · exact List.forall_mem_nil _
    · exact List.forall_mem_singleton.mpr (hpage hneeds hfull).2
  have hmem : ⟨callback, img.address (.replacement c), result⟩ ∈ p.incoming :=
    hincoming ▸ List.mem_cons_self
  have hmoved : Moved img t (t.setProcess s p) := by
    refine moved_setProcess hsound hp ?_ ?_
    · rw [hincoming]
      exact fun i hi ↦ List.mem_cons_of_mem _ hi
    · rw [hmanager]
      exact fun _ _ he ↦ he
  have hlast : lastIncoming p = result.toNat := by
    rw [lastIncoming, hincoming]
    rfl
  refine ⟨hmoved, ?_⟩
  rw [hlast]
  generalize hn : callback.toNat = n at h
  cases h with
  | reserved hreserved =>
    obtain rfl := BitVec.eq_of_toNat_eq hn
    have hresult : result = callback := hp.ok.trampolines.reserved _ hmem hreserved
    rw [hresult]
    exact .reserved hreserved
  | @callback f number hnumber =>
    obtain rfl := BitVec.eq_of_toNat_eq hn
    obtain ⟨hreserved, q, hexecute, hq⟩ := hnumber.mono hmoved.grows
    have hmem' : ⟨callback, img.address (.replacement (prog.typeOf f)), result⟩ ∈
        ((t.setProcess s p).process s).incoming := process_setProcess_self.symm ▸ hmem
    exact .callback (Denotes.callback hmem' hreserved rfl hexecute hq)

/-- **A value arrives in a process.** -/
theorem settles_wrapIncomingValue (hsound : AllSound img t.process)
    (h : InTransit img t.process s.other type v w) :
    Settles NoMemory (fun _ ↦ t.wrapIncomingValue img kernel s type w) fun r ↦
      Moved img t r.2 ∧ Held img r.2.process s type v r.1 := by
  cases type with
  | data size logAlign =>
    cases h with
    | data hv => exact .pure ⟨.refl hsound, .data hv⟩
  | callback c =>
    obtain ⟨callback, rfl⟩ : ∃ callback : Pointer, callback.toNat = w := by
      cases h with
      | reserved => exact ⟨_, rfl⟩
      | callback => exact ⟨_, rfl⟩
    simp only [wrapIncomingValue, BitVec.ofNat_toNat, BitVec.setWidth_eq]
    split
    next =>
        cases hmmap : kernel.mmap (t.process s) with
        | none => exact .throw rfl
        | some page =>
          exact .pure (wrapIncoming_spec hsound (fun _ _ ↦ kernel.fresh _ _ hmmap) h)
    next hneeds =>
        refine .pure (wrapIncoming_spec hsound (fun hwrapping hfull ↦ ?_) h)
        rw [hwrapping, hfull] at hneeds
        exact absurd rfl hneeds

/-- **All the values of a call**, in either direction: what holds of the values that were wrapped
first still holds after the others. -/
theorem settles_wrapValues {wrap : Machine → Ty C → ℕ → Except Fault (ℕ × Machine)}
    {P Q : System → Pointer → F → Prop}
    (hP : ∀ {ps ps'} p f, Grows ps ps' → P ps p f → P ps' p f)
    (hQ : ∀ {ps ps'} p f, Grows ps ps' → Q ps p f → Q ps' p f)
    (hwrap : ∀ {t type v w}, AllSound img t.process →
      Related img (P t.process) type v w → Settles NoMemory (fun _ ↦ wrap t type w) fun r ↦
        Moved img t r.2 ∧ Related img (Q r.2.process) type v r.1)
    (hsound : AllSound img t.process)
    (h : Pointwise (Related img (P t.process)) types vs ws) :
    Settles NoMemory (fun _ ↦ wrapValues wrap types ws t) fun r ↦
      Moved img t r.2 ∧ Pointwise (Related img (Q r.2.process)) types vs r.1 := by
  induction types generalizing t vs ws with
  | nil =>
    cases h with
    | nil => exact .pure ⟨.refl hsound, .nil⟩
  | cons type types ih =>
    cases h with
    | cons hv hvs =>
      refine (hwrap hsound hv).bind fun r hr ↦ ?_
      obtain ⟨hmoved, hr⟩ := hr
      have hvs' := hvs.imp fun _ _ _ ↦ Related.imp fun p f ↦ hP p f hmoved.grows
      refine (ih hmoved.sound hvs').bind fun r' hr' ↦ ?_
      obtain ⟨hmoved', hr'⟩ := hr'
      exact .pure ⟨hmoved.trans hmoved', .cons (hr.imp fun p f ↦ hQ p f hmoved'.grows) hr'⟩

theorem settles_wrapOutgoingValues (hsound : AllSound img t.process)
    (h : Pointwise (Held img t.process s) types vs ws) :
    Settles NoMemory
      (fun _ ↦ wrapValues (fun t ↦ t.wrapOutgoingValue img s) types ws t) fun r ↦
        Moved img t r.2 ∧ Pointwise (InTransit img r.2.process s) types vs r.1 :=
  settles_wrapValues (P := fun ps ↦ Denotes img ps s) (Q := fun ps ↦ Travels img ps s)
    (fun _ _ ↦ Denotes.mono) (fun _ _ ↦ Travels.mono) settles_wrapOutgoingValue hsound h

theorem settles_wrapIncomingValues (hsound : AllSound img t.process)
    (h : Pointwise (InTransit img t.process s.other) types vs ws) :
    Settles NoMemory
      (fun _ ↦ wrapValues (fun t ↦ t.wrapIncomingValue img kernel s) types ws t) fun r ↦
        Moved img t r.2 ∧ Pointwise (Held img r.2.process s) types vs r.1 :=
  settles_wrapValues (P := fun ps ↦ Travels img ps s.other) (Q := fun ps ↦ Denotes img ps s)
    (fun _ _ ↦ Travels.mono) (fun _ _ ↦ Denotes.mono) settles_wrapIncomingValue hsound h

end Wrapping

end Cali.Ipc.RemoteCalls
