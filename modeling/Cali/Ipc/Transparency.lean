import Cali.Ipc.RemoteValues
import Cali.Linker.Wrappers

/-!
# Isolation is transparent

A program that has a result in one process has the same result in two: whatever its functions
compute, however the calls and callbacks between the modules nest, and with the same `errno` and
the same shared memory in the end.  What is asked of the program is that it is well typed, that
library code does not name functions of the main module, and that arguments and results fit into
the buffers.  The two processes may fail where one does not for only one reason, which is that
there is no memory for another callback.
-/

namespace Cali.Ipc.RemoteCalls

open Cali.Lib Cali.Ipc.Callbacks Image Machine

variable {F C : Type} {prog : Program F C} (img : Image prog)

/-- The program in one process and the two processes have the same memory. -/
structure Shares (single : Single) (t : Machine) : Prop where
  sound : AllSound img t.process
  errno_lt : single.errno < 256 ^ 4
  memory : ∀ a, img.Free a 1 → t.memory a = single.memory a

/-- The program in one process and the two processes, of which `s` has the turn. -/
structure Agrees (s : Side) (single : Single) (t : Machine) : Prop extends Shares img single t where
  errno : t.errno s = single.errno

/-- A task of the process `s` has ended as it has in one process. -/
structure Ended (s : Side) (R : Option (Ty C)) (ps : System) (v : Option ℕ) (single : Single)
    (r : Option ℕ × Machine) : Prop where
  agrees : Agrees img s single r.2
  grows : Grows ps r.2.process
  result : Pointwise (Held img r.2.process s) R.toList v.toList r.1.toList

/-! ## Messages -/

/-- A message with the values lies in the buffer of the process `s`, and so does `errno`. -/
structure Sent (s : Side) (types : List (Ty C)) (vs : List ℕ) (single : Single) (t : Machine) :
    Prop extends Shares img single t where
  errno : t.loadMember img s errnoOffset 4 = single.errno
  values : Pointwise (InTransit img t.process s) types vs (t.loadData img s types)

/-- The process `s` composes a message: the values are in its buffer, and outside of the buffers
nothing has changed. -/
structure Composed (s : Side) (types : List (Ty C)) (ws : List ℕ) (t t' : Machine) : Prop where
  process : t'.process = t.process
  errno : t'.errno = t.errno
  memory : ∀ a, img.Free a 1 → t'.memory a = t.memory a
  values : t'.loadData img s types = ws

section Messages

variable {img} {t t' : Machine} {s : Side} {types : List (Ty C)} {vs ws : List ℕ}
  {offset size offset' size' value : ℕ} {single : Single}

theorem loadMember_storeMember (h : value < 256 ^ size) :
    (t.storeMember img s offset size value).loadMember img s offset size = value := by
  have hstored := stores_write t.memory (img.buffer s + offset) (leBytes size value)
  rw [Stores, length_leBytes] at hstored
  rw [loadMember, storeMember, hstored, leValue_leBytes, Nat.mod_eq_of_lt h]

theorem loadMember_storeMember_of_apart (h : Apart offset size offset' size') :
    (t.storeMember img s offset size value).loadMember img s offset' size' =
      t.loadMember img s offset' size' := by
  refine congrArg leValue (read_write_of_apart ?_)
  rw [length_leBytes]
  unfold Apart at *
  omega

theorem loadData_storeMember (h : offset + size ≤ dataOffset) :
    (t.storeMember img s offset size value).loadData img s types = t.loadData img s types := by
  refine loadFields_congr fun x hle _ ↦ write_of_le ?_
  rw [length_leBytes]
  omega

theorem apart_buffer {a n : ℕ} (h : img.Free a n) (s : Side) :
    Apart a n (img.buffer s) bufferSize := by
  cases s with
  | main => exact h.1
  | library => exact h.2

theorem memory_storeMember (h : offset + size ≤ bufferSize) {a : ℕ} (ha : img.Free a 1) :
    (t.storeMember img s offset size value).memory a = t.memory a := by
  rcases apart_buffer ha s with ha | ha
  · exact write_of_lt (by omega)
  · exact write_of_le (by rw [length_leBytes]; omega)

theorem composed_storeData (hfit : FitBuffer types) (h : FitFields (types.map Ty.field) ws) :
    Composed img s types ws t (t.storeData img s types ws) := by
  refine ⟨rfl, rfl, fun a ha ↦ storeFields_of_outside ?_, loadFields_storeFields h⟩
  have hapart := apart_buffer ha s
  unfold FitBuffer Apart at *
  omega

theorem Composed.storeMember (h : Composed img s types ws t t') (hle : offset + size ≤ dataOffset) :
    Composed img s types ws t (t'.storeMember img s offset size value) where
  process := h.process
  errno := h.errno
  memory a ha := (memory_storeMember (Nat.le_trans hle (by decide)) ha).trans (h.memory a ha)
  values := (loadData_storeMember hle).trans h.values

theorem Composed.storeRequest (h : Composed img s types ws t t') (request : Request F) :
    Composed img s types ws t (img.storeRequest t' s request) := by
  cases request with
  | function f => exact h.storeMember (by decide)
  | callback number => exact (h.storeMember (by decide)).storeMember (by decide)

/-- **The message leaves.** -/
theorem Composed.send (h : Composed img s types ws t t') (hagrees : Agrees img s single t)
    (hvalues : Pointwise (InTransit img t.process s) types vs ws) :
    Sent img s types vs single (t'.send img s) := by
  have hsent : Composed img s types ws t (t'.send img s) := h.storeMember (by decide)
  have herrno : t'.errno s = single.errno := (congrFun h.errno s).trans hagrees.errno
  have hprocess : (t'.send img s).process = t.process := hsent.process
  refine ⟨⟨hprocess ▸ hagrees.sound, hagrees.errno_lt,
    fun a ha ↦ (hsent.memory a ha).trans (hagrees.memory a ha)⟩, ?_, ?_⟩
  · rw [Machine.send, herrno]
    exact loadMember_storeMember hagrees.errno_lt
  · have hdata : (t'.send img s).loadData img s types = ws := hsent.values
    rw [hprocess, hdata]
    exact hvalues

/-- The code of a message is not touched by `errno`. -/
theorem loadMember_send_code : (t.send img s).loadMember img s 0 4 = t.loadMember img s 0 4 :=
  loadMember_storeMember_of_apart (.inr (by decide))

/-- **The message is received.** -/
theorem Sent.receive (h : Sent img s.other types vs single t) :
    Sent img s.other types vs single (t.receive img s) ∧
      Agrees img s single (t.receive img s) := by
  have hshares : Shares img single (t.receive img s) := ⟨h.sound, h.errno_lt, h.memory⟩
  exact ⟨⟨hshares, h.errno, h.values⟩, ⟨hshares, (Function.update_self ..).trans h.errno⟩⟩

theorem Agrees.moved (h : Agrees img s single t) (hmoved : Moved img t t') :
    Agrees img s single t' where
  sound := hmoved.sound
  errno := (congrFun hmoved.errno s).trans h.errno
  errno_lt := h.errno_lt
  memory a ha := (congrFun hmoved.memory a).trans (h.memory a ha)

end Messages

/-! ## Remote calls -/

section RemoteCalls

variable {img} {kernel : Kernel img} {t t' : Machine} {s : Side} {R : Option (Ty C)}
  {v r : Option ℕ} {vs ws : List ℕ} {single single' : Single} {callee : Pointer} {c : C}

/-- A call in the process `s` with arguments that stand for `vs` does what it did in one process,
which was `single` and became `single'`, with the result `v`. -/
def Follows (img : Image prog) (s : Side) (sig : Signature C) (ps : System) (vs : List ℕ)
    (v : Option ℕ) (single single' : Single)
    (call : ℕ → List ℕ → Machine → Except Fault (Option ℕ × Machine)) : Prop :=
  ∀ ws t, Grows ps t.process → Agrees img s single t →
    Pointwise (Held img t.process s) sig.params vs ws →
    Settles NoMemory (fun n ↦ call n ws t) (Ended img s sig.result t.process v single')

/-- **A request is served.** -/
theorem settles_serve (hprog : WellTyped prog)
    (h : Sent img s (prog.signature c).params vs single t)
    (hrequested : img.requested t s.other = some (callee, prog.signature c))
    {invoke : ℕ → Invoke Machine}
    (hinvoke : Follows img s.other (prog.signature c) t.process vs v single single' fun n ↦
      invoke n callee) :
    Settles NoMemory (fun n ↦ img.serve kernel (invoke n) t s.other) fun t' ↦
      Sent img s.other (prog.signature c).result.toList v.toList single' t' ∧
        Grows t.process t'.process ∧ t'.loadMember img s.other 0 4 = replyCode := by
  rw [← Side.other_other s] at h
  obtain ⟨hsent, hagrees⟩ := h.receive
  have hrequested' : img.requested (t.receive img s.other) s.other =
      some (callee, prog.signature c) := hrequested
  unfold serve
  simp only [hrequested']
  refine (settles_wrapIncomingValues hsent.sound hsent.values).bind fun x hx ↦ ?_
  obtain ⟨hmoved, hvalues⟩ := hx
  refine (hinvoke x.1 x.2 hmoved.grows (hagrees.moved hmoved) hvalues).bind fun y hy ↦ ?_
  refine (settles_wrapOutgoingValues hy.agrees.sound hy.result).bind fun z hz ↦ ?_
  obtain ⟨hmoved', hvalues'⟩ := hz
  have hcomposed : Composed img s.other _ z.1 z.2 _ :=
    composed_storeData (hprog.result c) hvalues'.fitFields
  exact .pure ⟨(hcomposed.storeMember (by decide)).send (hy.agrees.moved hmoved') hvalues',
    (hmoved.grows.trans hy.grows).trans hmoved'.grows,
    loadMember_send_code.trans (loadMember_storeMember (by decide))⟩

/-- **A remote call has the result of the call.** -/
theorem follows_remoteCall (hprog : WellTyped prog) (kernel : Kernel img)
    (invoke : ℕ → Invoke Machine) {request : Request F} {ps : System}
    (hrequested : ∀ t, Grows ps t.process →
      img.requested ((img.storeRequest t s request).send img s) s.other =
        some (callee, prog.signature c))
    (hinvoke : Follows img s.other (prog.signature c) ps vs v single single' fun n ↦
      invoke n callee) :
    Follows img s (prog.signature c) ps vs v single single' fun n ws t ↦
      img.remoteCall kernel (fun t ↦ img.serve kernel (invoke n) t s.other)
        (prog.signature c) request ws t s := by
  intro ws t hps hagrees hargs
  unfold remoteCall
  refine (settles_wrapOutgoingValues hagrees.sound hargs).bind fun x hx ↦ ?_
  obtain ⟨ws', t₁⟩ := x
  obtain ⟨hmoved, hvalues⟩ := hx
  have hcomposed : Composed img s (prog.signature c).params ws' t₁ _ :=
    (composed_storeData (hprog.params c) hvalues.fitFields).storeRequest request
  have hsent := hcomposed.send (hagrees.moved hmoved) hvalues
  have hgrows : Grows t.process ((img.storeRequest _ s request).send img s).process :=
    hcomposed.process.symm ▸ hmoved.grows
  have hcallee := hrequested (t₁.storeData img s (prog.signature c).params ws')
    (hps.trans hmoved.grows)
  refine (settles_serve hprog hsent hcallee fun ws t hgrows' ↦
    hinvoke ws t (hps.trans (hgrows.trans hgrows'))).bind fun t₃ ht₃ ↦ ?_
  obtain ⟨hsent₃, hgrows₃, hcode⟩ := ht₃
  obtain ⟨hsent₄, hagrees₄⟩ := hsent₃.receive
  have hcode₄ : (t₃.receive img s).loadMember img s.other 0 4 = replyCode := hcode
  simp only [if_pos hcode₄]
  refine (settles_wrapIncomingValues hsent₄.sound hsent₄.values).bind fun y hy ↦ ?_
  obtain ⟨hmoved', hvalues'⟩ := hy
  exact .pure ⟨hagrees₄.moved hmoved', (hgrows.trans hgrows₃).trans hmoved'.grows, hvalues'.head?⟩

end RemoteCalls

/-! ## Calls through pointers -/

section Pointers

variable {img} {kernel : Kernel img} {t : Machine} {s : Side} {f : F} {p : Pointer}
  {v : Option ℕ} {vs : List ℕ} {single single' : Single} {ps : System} {q : Callbacks.Process}
  {i : Incoming}

theorem target_address {x : Symbol F C} : img.target q (img.address x) = some (x, 0) := by
  rw [target, img.symbolAt_address]

theorem symbolAt_of_reserved (hp : Reserved p) : img.symbolAt p = none := by
  cases hsymbol : img.symbolAt p with
  | none => rfl
  | some x => exact absurd (img.address_of_symbolAt p x hsymbol ▸ hp) (img.address_not_reserved x)

theorem Sound.symbolAt_result (h : Sound img q) (hi : i ∈ q.incoming)
    (hcallback : ¬ Reserved i.callback) : img.symbolAt i.result = none := by
  obtain ⟨page, hpage, hle, hend⟩ := h.ok.survives.incoming_within i hi hcallback
  cases hsymbol : img.symbolAt i.result with
  | none => rfl
  | some x =>
    have hapart := (h.clear page hpage).apart_code x
    rw [img.address_of_symbolAt _ _ hsymbol] at hapart
    unfold trampolineSize Apart at *
    omega

/-- **A trampoline leads to the replacement of the type**, with the number in `r11`. -/
theorem Sound.target_result {c : C} (h : Sound img q) (hi : i ∈ q.incoming)
    (hcallback : ¬ Reserved i.callback)
    (hreplacement : i.replacement = img.address (.replacement c)) :
    img.target q i.result = some (.replacement c, i.callback) := by
  have hjumps := h.ok.survives.incoming_jumps i hi hcallback 0
  obtain ⟨cpu, hfirst, hsecond⟩ := Option.bind_eq_some_iff.mp hjumps
  rw [target, h.symbolAt_result hi hcallback]
  simp only [hfirst, hsecond, hreplacement, img.symbolAt_address, Option.bind_eq_bind,
    Option.bind_some, Option.pure_def]

theorem requested_function (hf : prog.home f = .library) (t : Machine) :
    img.requested ((img.storeRequest t .main (.function f)).send img .main) .library =
      some (img.address (.function f), prog.sig f) := by
  have hcode : ((img.storeRequest t .main (.function f)).send img .main).loadMember img .main 0 4 =
      img.codeOf f :=
    loadMember_send_code.trans
      (loadMember_storeMember (Nat.lt_trans (img.codeOf_lt f hf) (by decide)))
  have hlt := img.lt_codeOf f hf
  unfold requested
  rw [show Side.library.other = .main from rfl, hcode,
    if_neg (by unfold callbackCode; omega), if_pos rfl, img.processIpcCall_codeOf f hf]
  rfl

theorem requested_callback {number q : Pointer} {c : C}
    (hentry : (t.process s.other).manager.execute number = some ⟨q, img.address (.handler c)⟩) :
    img.requested ((img.storeRequest t s (.callback number)).send img s) s.other =
      some (q, prog.signature c) := by
  obtain ⟨t', ht'⟩ : ∃ t', t' = (img.storeRequest t s (.callback number)).send img s := ⟨_, rfl⟩
  have hprocess : t'.process = t.process := ht' ▸ rfl
  have hcode : t'.loadMember img s 0 4 = callbackCode := by
    rw [ht']
    exact loadMember_send_code.trans (loadMember_storeMember (by decide))
  have hnumber : t'.loadMember img s callbacknumberOffset 8 = number.toNat := by
    rw [ht', send, loadMember_storeMember_of_apart (.inl (by decide))]
    exact (loadMember_storeMember_of_apart (.inl (by decide))).trans
      (loadMember_storeMember number.isLt)
  rw [← ht']
  unfold requested
  simp only [Side.other_other, hcode, if_true, hnumber, BitVec.ofNat_toNat, BitVec.setWidth_eq,
    hprocess, hentry, Option.bind_eq_bind, Option.bind_some, img.symbolAt_address]

theorem follows_own (hbody : Follows img (prog.home f) (prog.sig f) ps vs v single single' fun n ↦
      (prog.body f).exec
        (img.processHost (prog.home f) (img.remoteInvoke kernel n (prog.home f)))) :
    Follows img (prog.home f) (prog.sig f) ps vs v single single' fun n ↦
      img.remoteInvoke kernel n (prog.home f) (img.address (.function f)) := by
  intro ws t hgrows hagrees hargs
  refine .succ (fun n ↦ ?_) (hbody ws t hgrows hagrees hargs)
  simp only [remoteInvoke, target_address]

/-- **Calling a pointer calls the function that it stands for**, however often the pointer has
been passed between the processes. -/
theorem follows_invoke (hprog : WellTyped prog)
    (hown : Follows img (prog.home f) (prog.sig f) ps vs v single single' fun n ↦
      img.remoteInvoke kernel n (prog.home f) (img.address (.function f)))
    (h : Denotes img ps s p f) :
    Follows img s (prog.sig f) ps vs v single single' fun n ↦ img.remoteInvoke kernel n s p := by
  induction h with
  | own hf => exact hf ▸ hown
  | wrapper hf =>
    rw [hf] at hown
    intro ws t hgrows hagrees hargs
    refine .succ (fun n ↦ ?_) (follows_remoteCall hprog kernel
      (fun n ↦ img.remoteInvoke kernel n .library) (fun t _ ↦ requested_function hf t) hown ws t
      hgrows hagrees hargs)
    simp only [remoteInvoke, target_address]
    rfl
  | @callback s f i q hi hcallback hreplacement hexecute hdenotes ih =>
    intro ws t hgrows hagrees hargs
    refine .succ (fun n ↦ ?_) (follows_remoteCall hprog kernel
      (fun n ↦ img.remoteInvoke kernel n s.other)
      (fun _ hgrows' ↦ requested_callback (hgrows'.execute _ _ _ hexecute)) (ih hown) ws t
      hgrows hagrees hargs)
    simp only [remoteInvoke,
      (hagrees.sound s).target_result (hgrows.incoming _ _ hi) hcallback hreplacement]

theorem denotes_symbol (h : prog.Names s f) :
    Denotes img ps s (img.address (prog.symbol s f)) f := by
  unfold Program.symbol
  cases hf : prog.home f with
  | library =>
    cases s with
    | main => exact .wrapper hf
    | library => exact .own hf
  | main =>
    cases s with
    | main => exact .own hf
    | library => rcases h with h | h <;> simp_all

end Pointers

/-! ## The simulation -/

section Simulation

variable {img} {kernel : Kernel img} {t t' : Machine} {s : Side} {R : Option (Ty C)}
  {Γ : List (Ty C)} {env env' : List ℕ} {v : Option ℕ} {single single' : Single}

theorem ok_bind {α β : Type} (a : α) (f : α → Except Fault β) : (Except.ok a >>= f) = f a := rfl

theorem bind_eq_ok {α β : Type} {x : Except Fault α} {f : α → Except Fault β} {b : β}
    (h : (x >>= f) = .ok b) : ∃ a, x = .ok a ∧ f a = .ok b := by
  cases x with
  | error e => cases h
  | ok a => exact ⟨a, rfl, h⟩

theorem of_ite_eq_ok {α : Type} {P : Prop} [Decidable P] {a b : α}
    (h : (if P then .ok a else .error Fault.crash) = Except.ok b) : P ∧ a = b := by
  split at h
  next hP => exact ⟨hP, Except.ok.inj h⟩
  next => cases h

theorem Related.eq_iff {ps : System} {c : C} {v w : ℕ} {value : Pointer}
    (hsound : AllSound img ps) (h : Held img ps s (.callback c) v w)
    (hvalue : Reserved value) : v = value.toNat ↔ w = value.toNat := by
  cases h with
  | reserved => exact Iff.rfl
  | callback hp =>
    refine iff_of_false (fun heq ↦ ?_) (fun heq ↦ ?_)
    · exact img.address_not_reserved _ (BitVec.eq_of_toNat_eq heq ▸ hvalue)
    · exact hp.not_reserved hsound (BitVec.eq_of_toNat_eq heq ▸ hvalue)

theorem Agrees.read_eq (h : Agrees img s single t) {a n : ℕ} (hfree : img.Free a n) :
    read t.memory a n = read single.memory a n := by
  refine List.map_congr_left fun i hi ↦ h.memory _ ?_
  have hi := List.mem_range.mp hi
  unfold Free Apart at *
  omega

/-- Calls in the processes do what calls do in one process, with pointers that stand for the
functions.  Reserved values cannot be called. -/
structure CallsAgree (kernel : Kernel img) (invoke : Invoke Single) : Prop where
  function : ∀ ⦃s f p vs single ps v single'⦄, Denotes img ps s p f →
    invoke (img.address (.function f)) vs single = .ok (v, single') →
    Follows img s (prog.sig f) ps vs v single single' fun m ↦ img.remoteInvoke kernel m s p
  reserved : ∀ ⦃p vs single r⦄, Reserved p → invoke p vs single ≠ .ok r

/-- **Code does the same in its process**, by induction on the code: one case for each
instruction. -/
theorem settles_exec {invoke : Invoke Single} (hcalls : CallsAgree kernel invoke) {c : Code F C}
    (htyped : Typed prog s R Γ c)
    (henv : Pointwise (Held img t.process s) Γ env env') (hagrees : Agrees img s single t)
    (hexec : c.exec (img.host invoke) env single = .ok (v, single')) :
    Settles NoMemory
      (fun m ↦ c.exec (img.processHost s (img.remoteInvoke kernel m s)) env' t)
      (Ended img s R t.process v single') := by
  induction c generalizing Γ env env' single t with
  | ret r =>
    cases r with
    | none =>
      cases hexec
      obtain rfl : R = none := htyped
      exact .pure ⟨hagrees, .refl _, .nil⟩
    | some i =>
      obtain ⟨type, rfl, hi⟩ := htyped
      obtain ⟨x, y, hx, hy, hvalue⟩ := henv.reg_eq hi
      simp only [Code.exec, hx, hy, ok_bind] at hexec ⊢
      cases hexec
      exact .pure ⟨hagrees, .refl _, .cons hvalue .nil⟩
  | compute size logAlign g args next ih =>
    obtain ⟨hargs, htyped⟩ := htyped
    obtain ⟨vs, hvs, hws⟩ := henv.datas_eq hargs
    simp only [Code.exec, hvs, hws, ok_bind] at hexec ⊢
    have hlt : g vs % 256 ^ size < 256 ^ size := Nat.mod_lt _ (Nat.pow_pos (by decide))
    exact ih htyped (henv.append (.cons (.data hlt) .nil)) hagrees hexec
  | branch g args yes no ihyes ihno =>
    obtain ⟨hargs, hyes, hno⟩ := htyped
    obtain ⟨vs, hvs, hws⟩ := henv.datas_eq hargs
    simp only [Code.exec, hvs, hws, ok_bind] at hexec ⊢
    split at hexec
    next h => simpa only [if_pos h] using ihyes hyes henv hagrees hexec
    next h => simpa only [if_neg h] using ihno hno henv hagrees hexec
  | errno next ih =>
    simp only [Code.exec, host, processHost, hagrees.errno] at hexec ⊢
    exact ih htyped (henv.append (.cons (.data hagrees.errno_lt) .nil)) hagrees hexec
  | setErrno i next ih =>
    obtain ⟨hi, htyped⟩ := htyped
    obtain ⟨x, hx, hy⟩ := henv.data_eq hi
    simp only [Code.exec, hx, hy, ok_bind] at hexec ⊢
    let t₁ : Machine := { t with errno := Function.update t.errno s (x % 256 ^ 4) }
    have hagrees₁ : Agrees img s { single with errno := x % 256 ^ 4 } t₁ :=
      ⟨⟨hagrees.sound, Nat.mod_lt _ (by decide), hagrees.memory⟩, Function.update_self ..⟩
    exact ih (t := t₁) htyped henv hagrees₁ hexec
  | load size logAlign i next ih =>
    obtain ⟨hi, htyped⟩ := htyped
    obtain ⟨a, ha, ha'⟩ := henv.data_eq hi
    simp only [Code.exec, ha, ha', ok_bind] at hexec ⊢
    obtain ⟨_, hload, hnext⟩ := bind_eq_ok hexec
    obtain ⟨hfree, rfl⟩ := of_ite_eq_ok hload
    have hlt := leValue_lt (read t.memory a size)
    rw [length_read] at hlt
    rw [← hagrees.read_eq hfree] at hnext
    exact ih htyped (henv.append (.cons (.data hlt) .nil)) hagrees hnext
  | store size i j next ih =>
    obtain ⟨hi, hj, htyped⟩ := htyped
    obtain ⟨a, ha, ha'⟩ := henv.data_eq hi
    obtain ⟨x, hx, hy⟩ := henv.data_eq hj
    simp only [Code.exec, ha, ha', hx, hy, ok_bind] at hexec ⊢
    obtain ⟨_, hstore, hnext⟩ := bind_eq_ok hexec
    obtain ⟨-, rfl⟩ := of_ite_eq_ok hstore
    let t₁ : Machine := { t with memory := write t.memory a (leBytes size x) }
    have hagrees₁ : Agrees img s
        { single with memory := write single.memory a (leBytes size x) } t₁ :=
      ⟨⟨hagrees.sound, hagrees.errno_lt, fun b hb ↦ write_congr (hagrees.memory b hb)⟩,
        hagrees.errno⟩
    exact ih (t := t₁) htyped henv hagrees₁ hnext
  | reference f next ih =>
    obtain ⟨hf, htyped⟩ := htyped
    exact ih htyped (henv.append (.cons (.callback (denotes_symbol hf)) .nil)) hagrees hexec
  | reserved type value next ih =>
    obtain ⟨hvalue, htyped⟩ := htyped
    exact ih htyped (henv.append (.cons (.reserved hvalue) .nil)) hagrees hexec
  | isReserved i value yes no ihyes ihno =>
    obtain ⟨⟨type, hi⟩, hvalue, hyes, hno⟩ := htyped
    obtain ⟨x, y, hx, hy, hxy⟩ := henv.reg_eq hi
    have hiff := hxy.eq_iff hagrees.sound hvalue
    simp only [Code.exec, hx, hy, ok_bind, ← hiff] at hexec ⊢
    split at hexec
    next h => simpa only [if_pos h] using ihyes hyes henv hagrees hexec
    next h => simpa only [if_neg h] using ihno hno henv hagrees hexec
  | call i args next ih =>
    obtain ⟨type, hi, hargs, htyped⟩ := htyped
    obtain ⟨x, y, hx, hy, hxy⟩ := henv.reg_eq hi
    obtain ⟨vs, ws, hvs, hws, hvalues⟩ := henv.regs_eq hargs
    simp only [Code.exec, hx, hy, hvs, hws, ok_bind] at hexec ⊢
    obtain ⟨⟨r, single₁⟩, hcall, hnext⟩ := bind_eq_ok hexec
    cases hxy with
    | @reserved _ p hp =>
      rw [BitVec.ofNat_toNat, BitVec.setWidth_eq] at hcall
      exact absurd hcall (hcalls.reserved hp)
    | @callback f p hp =>
      rw [BitVec.ofNat_toNat, BitVec.setWidth_eq] at hcall
      simp only [BitVec.ofNat_toNat, BitVec.setWidth_eq]
      refine (hcalls.function hp hcall ws t (.refl _) hagrees hvalues).bind fun r' hr' ↦ ?_
      have henv' := (henv.mono hr'.grows).append hr'.result
      exact (ih htyped henv' hr'.agrees hnext).mono fun _ h ↦
        ⟨h.agrees, hr'.grows.trans h.grows, h.result⟩

/-- **The two processes follow the one.**  By induction on the depth of calls in one process: a
call goes deeper in two, but only finitely. -/
theorem callsAgree (hprog : WellTyped prog) (kernel : Kernel img) (n : ℕ) :
    CallsAgree kernel (img.invoke n) := by
  induction n with
  | zero =>
    constructor
    · intro s f p vs single ps v single' _ hcall
      cases hcall
    · intro p vs single r _ hcall
      cases hcall
  | succ n ih =>
    constructor
    · intro s f p vs single ps v single' hp hcall
      rw [invoke, img.symbolAt_address] at hcall
      exact follows_invoke hprog (follows_own fun ws t _ hagrees hargs ↦
        settles_exec ih (hprog.body f) hargs hagrees hcall) hp
    · intro p vs single r hp hcall
      rw [invoke, symbolAt_of_reserved hp] at hcall
      cases hcall

/-- The processes after the fork: no callback has been passed yet. -/
def Machine.start (single : Single) (memory : Side → ℕ → BitVec 8) : Machine :=
  ⟨fun s ↦ .init (memory s), fun _ ↦ single.errno, single.memory⟩

theorem agrees_start (memory : Side → ℕ → BitVec 8) (h : single.errno < 256 ^ 4) :
    Agrees img s single (.start single memory) where
  sound side := ⟨.init (memory side), List.forall_mem_nil _⟩
  errno := rfl
  errno_lt := h
  memory _ _ := rfl

/-- A value that is copied. -/
def Ty.Copies : Ty C → ℕ → Prop
  | .data size _, v => v < 256 ^ size
  | .callback _, _ => False

theorem pointwise_of_copies {ps : System} {types : List (Ty C)} {vs : List ℕ}
    (h : List.Forall₂ Ty.Copies types vs) : Pointwise (Held img ps s) types vs vs := by
  induction h with
  | nil => exact .nil
  | @cons type v types vs h _ ih =>
    cases type with
    | data => exact .cons (.data h) ih
    | callback => cases h

/-- **Isolation is transparent.**  Where a function of the main module has a result in one
process, the two processes have the same result, with the same `errno` and the same memory, or
they report that there is no memory for a callback. -/
theorem isolation_transparent (hprog : WellTyped prog) (kernel : Kernel img) {f : F}
    (hf : prog.home f = .main) {vs : List ℕ} (hvs : List.Forall₂ Ty.Copies (prog.sig f).params vs)
    (herrno : single.errno < 256 ^ 4) (memory : Side → ℕ → BitVec 8) {n : ℕ}
    (hcall : img.invoke n (img.address (.function f)) vs single = .ok (v, single')) :
    Settles NoMemory
      (fun m ↦ img.remoteInvoke kernel m .main (img.address (.function f)) vs
        (.start single memory)) fun r ↦
        Pointwise (Held img r.2.process .main) (prog.sig f).result.toList v.toList r.1.toList ∧
        r.2.errno .main = single'.errno ∧
        ∀ a, img.Free a 1 → r.2.memory a = single'.memory a := by
  have hsettles := (callsAgree hprog kernel n).function (.own hf) hcall vs (.start single memory)
    (.refl _) (agrees_start memory herrno) (pointwise_of_copies hvs)
  exact hsettles.mono fun r hr ↦ ⟨hr.result, hr.agrees.errno, hr.agrees.memory⟩

end Simulation

/-! ## A program -/

namespace Example

open Cali.Linker Cali.Linker.Wrappers

def int : Ty Bool := .data 4 2

/-- The function `true` of the program counts down to zero by calling the function `false` of the
library, which calls back. -/
def program : Program Bool Bool where
  signature
    | true => ⟨[int], some int⟩
    | false => ⟨[.callback true, int], some int⟩
  typeOf := id
  home
    | true => .main
    | false => .library
  body
    | true => .branch (· == [0]) [0] (.ret (some 0)) (.compute 4 2 (·.headD 0 - 1) [0]
        (.setErrno 0 (.reference true (.reference false (.call 3 [2, 1] (.ret (some 4)))))))
    | false => .call 0 [1] (.ret (some 2))

theorem wellTyped_program : WellTyped program where
  body f := by
    have hdata : ∀ Γ : List (Ty Bool), IsData (int :: Γ) 0 := fun _ ↦ ⟨4, 2, rfl⟩
    have hargs := List.forall_mem_singleton.mpr (hdata [])
    cases f with
    | true =>
      exact ⟨hargs, ⟨int, rfl, rfl⟩, hargs, hdata _, .inl rfl, .inl rfl, false, rfl,
        .cons rfl (.cons rfl .nil), int, rfl, rfl⟩
    | false => exact ⟨true, rfl, .cons rfl .nil, int, rfl, rfl⟩
  params c := by cases c <;> decide
  result c := by cases c <;> decide

def address : Symbol Bool Bool → Pointer
  | .function f => .ofNat 64 (0x400 + f.toNat)
  | .wrapper f => .ofNat 64 (0x410 + f.toNat)
  | .handler f => .ofNat 64 (0x420 + f.toNat)
  | .replacement f => .ofNat 64 (0x430 + f.toNat)

def symbols : List (Symbol Bool Bool) :=
  [true, false].flatMap fun f ↦ [.function f, .wrapper f, .handler f, .replacement f]

def library : LlvmFunction :=
  ⟨"library".toList, true, false, ["i32 (i32)*".toList, "i32".toList], []⟩

/-- The pair after `rewriteFunctionCalls` has asked for the wrapper. -/
def pair : CommunicationPair :=
  (getOrCreateWrapperFunction List.length .module1 library none (initModule 0 false)).elim
    (initModule 0 false) Prod.snd

theorem agrees_pair : Wrappers.Agrees .module1 pair :=
  ((inv_initModule .module1 0 false).getOrCreateWrapperFunction List.length library none).agrees

def names : Names program pair where
  nameOf f := if f = true then "main".toList else "library".toList
  functionNamed name :=
    if name = "main".toList then some true
    else if name = "library".toList then some false else none
  functionNamed_nameOf f := by cases f <;> decide
  wrapped f hf := by
    cases f with
    | true => cases hf
    | false =>
      have h : ∃ w ∈ pair.wrappedFunctions, w.original = "library".toList := by decide +kernel
      exact h
  not_internal f _ := by cases f <;> decide

def codes : Codes program := names.codes agrees_pair (by decide +kernel)

def image : Image program where
  toCodes := codes
  address := address
  symbolAt p := symbols.find? fun x ↦ address x == p
  buffer
    | .main => 0x10000
    | .library => 0x20000
  symbolAt_address x := by rcases x with f | f | f | f <;> cases f <;> rfl
  address_of_symbolAt p x h := by
    have hx := List.find?_some h
    exact eq_of_beq hx
  address_not_reserved x := by
    rcases x with f | f | f | f <;> cases f <;>
      exact callbackNeedsWrapping_iff.mp (by decide)

/-- There is one page for trampolines. -/
def kernel : Kernel image where
  mmap p := if p.pages = [] then some 0x700000 else none
  fresh p page h := by
    obtain ⟨hpages, hpage⟩ := Option.ite_none_right_eq_some.mp h
    cases hpage
    refine ⟨⟨by decide, hpages ▸ List.forall_mem_nil _⟩, by decide, fun x ↦ .inr ?_⟩
    rcases x with f | f | f | f <;> cases f <;> decide

/-- Three callbacks deep, the result and `errno` are those of one process. -/
theorem isolation_transparent_nested :
    image.invoke 10 (address (.function true)) [3] ⟨0, fun _ ↦ 0⟩ =
        .ok (some 0, ⟨1, fun _ ↦ 0⟩) ∧
      Settles NoMemory
        (fun m ↦ image.remoteInvoke kernel m .main (address (.function true)) [3]
          (.start ⟨0, fun _ ↦ 0⟩ fun _ _ ↦ 0))
        (fun r ↦ Pointwise (Held image r.2.process .main) [int] [0] r.1.toList ∧
          r.2.errno .main = 1 ∧ ∀ a, image.Free a 1 → r.2.memory a = 0) ∧
      (image.remoteInvoke kernel 20 .main (address (.function true)) [3]
        (.start ⟨0, fun _ ↦ 0⟩ fun _ _ ↦ 0)).toOption.map Prod.fst = some (some 0) := by
  have hvs : List.Forall₂ Ty.Copies [int] [3] := .cons (show 3 < 256 ^ 4 by decide) .nil
  exact ⟨rfl, isolation_transparent wellTyped_program kernel (f := true) rfl hvs (by decide)
    (fun _ _ ↦ 0) (n := 10) rfl, rfl⟩

end Example

end Cali.Ipc.RemoteCalls
