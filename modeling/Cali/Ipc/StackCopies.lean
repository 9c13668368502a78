import Cali.Ipc.Callbacks
import Cali.Lib.Memory

/-!
# Stack objects that are passed to callbacks

The replacement of a callback passes its arguments through the shared memory.  A pointer into the
stack means nothing to the other process: `wrap_pointer_from_callback` copies 4096 bytes from
there on into the shared memory and passes the address of the copy.  After the call,
`unwrap_pointer_from_callback` copies the bytes back, for each pointer in turn, but not beyond
the next higher pointer among the arguments.

The stack is a function of addresses.  A copy is a block of its own in the shared memory, so it is
modelled by its bytes.  Whether a pointer is one into the stack is decided by its distance to a
local variable of the function that asks, whose address is an input.
-/

namespace Cali.Ipc.StackCopies

open Cali.Lib Cali.Ipc.Callbacks

/-- `MAX_STACKVAR_SIZE` -/
def maxStackvarSize : ℕ := 4096

/-- `MAX_STACKVAR_OFFSET` -/
def maxStackvarOffset : ℕ := 8192

abbrev Stack := ℕ → BitVec 8

/-- The difference of the pointer and a local variable is that of a stack variable. -/
def onStack (localVariable ptr : Pointer) : Prop := (ptr - localVariable).toNat < maxStackvarOffset

instance (localVariable ptr : Pointer) : Decidable (onStack localVariable ptr) :=
  inferInstanceAs (Decidable (_ < _))

/-- An entry of `modifiedPointers`: the old pointer, and the bytes at the new one if there is a
copy. -/
structure ModifiedPointer where
  oldptr : Pointer
  copy : Option (ℕ → BitVec 8)

/-- `wrap_pointer_from_callback`, whose local variable is at `c` -/
def wrapPointerFromCallback (c : Pointer) (stack : Stack) (ptr : Pointer) : ModifiedPointer where
  oldptr := ptr
  copy := if onStack c ptr then some fun i ↦ stack (ptr.toNat + i) else none

/-- The loop of `unwrap_pointer_from_callback` over the other old pointers. -/
def copiedSize (sizeVariable oldptr : Pointer) (otherOld : List Pointer) : ℕ :=
  otherOld.foldl (fun size ptr ↦
    if onStack sizeVariable ptr ∧ oldptr < ptr then
      if (ptr - oldptr).toNat < size then (ptr - oldptr).toNat else size
    else size) maxStackvarSize

/-- `unwrap_pointer_from_callback`, whose variable `size` is at `sizeVariable`.  A pointer without a
copy is equal to the new one. -/
def unwrapPointerFromCallback (sizeVariable : Pointer) (stack : Stack) (p : ModifiedPointer)
    (otherOld : List Pointer) : Stack :=
  match p.copy with
  | none => stack
  | some copy =>
    Block.fill stack ⟨p.oldptr.toNat, copiedSize sizeVariable p.oldptr otherOld, copy⟩

/-- The other old pointers that are passed for an entry. -/
def otherOld (modifiedPointers : List ModifiedPointer) (i : ℕ) : List Pointer :=
  (modifiedPointers.eraseIdx i).map ModifiedPointer.oldptr

/-- The calls that the replacement makes after the callback has returned. -/
def unwrapAll (sizeVariable : Pointer) (modifiedPointers : List ModifiedPointer) (stack : Stack) :
    Stack :=
  modifiedPointers.zipIdx.foldl
    (fun stack p ↦ unwrapPointerFromCallback sizeVariable stack p.1 (otherOld modifiedPointers p.2))
    stack

/-- The callback changes the copies, and nothing else. -/
def CallbackRuns (before after : List ModifiedPointer) : Prop :=
  after.map (fun p ↦ (p.oldptr, p.copy.isSome)) = before.map fun p ↦ (p.oldptr, p.copy.isSome)

/-- The callback has changed the byte of the address to `v` in the copy. -/
def Changes (stack : Stack) (p : ModifiedPointer) (a : ℕ) (v : BitVec 8) : Prop :=
  ∃ copy, p.copy = some copy ∧ p.oldptr.toNat ≤ a ∧ a < p.oldptr.toNat + maxStackvarSize ∧
    copy (a - p.oldptr.toNat) = v ∧ v ≠ stack a

/-- **No write is lost**: a byte that was changed in a copy is changed on the stack, if the copies
agree about it, and no other byte is. -/
structure KeepsWrites (stack : Stack) (modifiedPointers : List ModifiedPointer) (stack' : Stack) :
    Prop where
  changed : ∀ a v, (∃ p ∈ modifiedPointers, Changes stack p a v) →
    (∀ p ∈ modifiedPointers, ∀ v', Changes stack p a v' → v' = v) → stack' a = v
  unchanged : ∀ a, (∀ p ∈ modifiedPointers, ∀ v, ¬ Changes stack p a v) → stack' a = stack a

/-- The bytes at `ptr` are copied back as far as the address: there is a copy, and no other pointer
that the second function takes for one into the stack is above `ptr` and not above the address. -/
def Reaches (c sizeVariable : Pointer) (ptrs : List Pointer) (a : ℕ) (ptr : Pointer) : Prop :=
  onStack c ptr ∧ ptr.toNat ≤ a ∧ a < ptr.toNat + maxStackvarSize ∧
    ∀ other ∈ ptrs, onStack sizeVariable other → ptr < other → a < other.toNat

instance (c sizeVariable : Pointer) (ptrs : List Pointer) (a : ℕ) (ptr : Pointer) :
    Decidable (Reaches c sizeVariable ptrs a ptr) :=
  -- otherwise the search finds the instance that tries all pointers
  have := List.decidableBAll
    (fun other ↦ onStack sizeVariable other → ptr < other → a < other.toNat) ptrs
  inferInstanceAs (Decidable (_ ∧ _))

/-- The last object, in the order of the arguments, whose bytes are copied back to the address. -/
def lastReaching (c sizeVariable : Pointer) (ptrs : List Pointer) (after : List ModifiedPointer)
    (a : ℕ) : Option ModifiedPointer :=
  (after.filter fun p ↦ Reaches c sizeVariable ptrs a p.oldptr).getLast?

/-- A byte that is changed, with all copies that change it in agreement, is changed in the copy of
the last object that reaches it. -/
def LastChanges (c sizeVariable : Pointer) (stack : Stack) (ptrs : List Pointer)
    (after : List ModifiedPointer) : Prop :=
  ∀ a v, (∃ p ∈ after, Changes stack p a v) →
    (∀ p ∈ after, ∀ v', Changes stack p a v' → v' = v) →
      ∃ p, lastReaching c sizeVariable ptrs after a = some p ∧ Changes stack p a v

/-! ## The bytes that are copied back -/

section CopyBack

variable {c sizeVariable oldptr : Pointer} {others ptrs : List Pointer} {n a i : ℕ}
variable {stack : Stack} {after : List ModifiedPointer} {p : ModifiedPointer} {v : BitVec 8}

theorem lt_copiedSize_iff :
    n < copiedSize sizeVariable oldptr others ↔ n < maxStackvarSize ∧
      ∀ ptr ∈ others, onStack sizeVariable ptr → oldptr < ptr → n < (ptr - oldptr).toNat := by
  unfold copiedSize
  generalize maxStackvarSize = size
  induction others generalizing size with
  | nil => simp
  | cons ptr others ih =>
    rw [List.foldl_cons, ih, List.forall_mem_cons, ← and_assoc]
    refine and_congr_left fun _ ↦ ?_
    split
    next habove =>
      rw [forall_prop_of_true habove.1, forall_prop_of_true habove.2]
      split <;> omega
    next habove =>
      have hnone : onStack sizeVariable ptr → oldptr < ptr → n < (ptr - oldptr).toNat :=
        fun h₁ h₂ ↦ absurd ⟨h₁, h₂⟩ habove
      rw [and_iff_left hnone]

/-- A pointer does not cut itself off, so it may be left among the other ones. -/
theorem copiedSize_otherOld (hp : after[i]? = some p) :
    copiedSize sizeVariable p.oldptr (otherOld after i) =
      copiedSize sizeVariable p.oldptr (after.map ModifiedPointer.oldptr) := by
  refine Nat.le_antisymm (Nat.le_of_not_lt fun h ↦ ?_) (Nat.le_of_not_lt fun h ↦ ?_)
  · refine absurd (lt_copiedSize_iff.mpr ⟨(lt_copiedSize_iff.mp h).1, fun ptr hptr hon hlt ↦ ?_⟩)
      (Nat.lt_irrefl _)
    obtain ⟨q, hq, rfl⟩ := List.mem_map.mp hptr
    obtain ⟨j, hj⟩ := List.mem_iff_getElem?.mp hq
    have hij : j ≠ i := by
      rintro rfl
      obtain rfl := Option.some.inj (hp.symm.trans hj)
      exact BitVec.lt_irrefl _ hlt
    exact (lt_copiedSize_iff.mp h).2 _
      (List.mem_map_of_mem (List.mem_eraseIdx_iff_getElem?.mpr ⟨j, hij, hj⟩)) hon hlt
  · refine absurd (lt_copiedSize_iff.mpr ⟨(lt_copiedSize_iff.mp h).1, fun ptr hptr hon hlt ↦ ?_⟩)
      (Nat.lt_irrefl _)
    obtain ⟨q, hq, rfl⟩ := List.mem_map.mp hptr
    exact (lt_copiedSize_iff.mp h).2 _ (List.mem_map_of_mem (List.mem_of_mem_eraseIdx hq)) hon hlt

theorem unwrapAll_eq : unwrapAll sizeVariable after stack = after.foldl (fun stack p ↦
    unwrapPointerFromCallback sizeVariable stack p (after.map ModifiedPointer.oldptr)) stack := by
  have hstep : ∀ stack, ∀ p ∈ after.zipIdx,
      unwrapPointerFromCallback sizeVariable stack p.1 (otherOld after p.2) =
        unwrapPointerFromCallback sizeVariable stack p.1 (after.map ModifiedPointer.oldptr) := by
    rintro stack ⟨p, i⟩ hp
    unfold unwrapPointerFromCallback
    rw [copiedSize_otherOld (List.mem_zipIdx_iff_getElem?.mp hp)]
  unfold unwrapAll
  rw [List.foldl_ext _ _ _ hstep]
  conv_rhs => rw [← List.zipIdx_map_fst 0 after, List.foldl_map, List.zipIdx_map_fst]

/-- The byte of an address in the copy -/
def ModifiedPointer.byteAt (p : ModifiedPointer) (a : ℕ) : BitVec 8 :=
  p.copy.elim 0 fun copy ↦ copy (a - p.oldptr.toNat)

theorem CallbackRuns.oldptrs
    (h : CallbackRuns (ptrs.map (wrapPointerFromCallback c stack)) after) :
    after.map ModifiedPointer.oldptr = ptrs ∧
      ∀ p ∈ after, p.copy.isSome = true ↔ onStack c p.oldptr := by
  have hold := congrArg (List.map Prod.fst) h
  simp only [List.map_map, Function.comp_def, wrapPointerFromCallback, List.map_id'] at hold
  refine ⟨hold, fun p hp ↦ ?_⟩
  have hpair : (p.oldptr, p.copy.isSome) ∈ after.map fun p ↦ (p.oldptr, p.copy.isSome) :=
    List.mem_map_of_mem hp
  rw [show after.map _ = _ from h, List.map_map] at hpair
  obtain ⟨ptr, -, heq⟩ := List.mem_map.mp hpair
  obtain ⟨hptr, hsome⟩ := Prod.mk.inj heq
  rw [← hsome, ← hptr]
  by_cases hon : onStack c ptr
  · simp [wrapPointerFromCallback, hon]
  · simp [wrapPointerFromCallback, hon]

theorem unwrapPointerFromCallback_apply (hsome : p.copy.isSome = true ↔ onStack c p.oldptr) :
    unwrapPointerFromCallback sizeVariable stack p ptrs a =
      if Reaches c sizeVariable ptrs a p.oldptr then p.byteAt a else stack a := by
  unfold unwrapPointerFromCallback ModifiedPointer.byteAt
  cases hcopy : p.copy with
  | none => rw [if_neg fun h : Reaches .. ↦ absurd (hsome.mpr h.1) (by simp [hcopy])]
  | some copy =>
    have hcovers : Block.Covers ⟨p.oldptr.toNat, copiedSize sizeVariable p.oldptr ptrs, copy⟩ a ↔
        Reaches c sizeVariable ptrs a p.oldptr := by
      have hsize := @lt_copiedSize_iff sizeVariable p.oldptr ptrs (a - p.oldptr.toNat)
      constructor
      · rintro ⟨hle, hlt⟩
        dsimp only at hle hlt
        obtain ⟨hmax, hcut⟩ := hsize.mp (by omega)
        refine ⟨hsome.mp (by rw [hcopy]; rfl), hle, by omega, fun other hother hon habove ↦ ?_⟩
        have := hcut other hother hon habove
        bv_omega
      · rintro ⟨-, hle, hlt, hcut⟩
        refine ⟨hle, (Nat.sub_lt_iff_lt_add' hle).mp (hsize.mpr ⟨by omega, ?_⟩)⟩
        intro other hother hon habove
        have := hcut other hother hon habove
        bv_omega
    simp only [Block.fill, hcovers, Option.elim_some]

theorem unwrapAll_apply (h : CallbackRuns (ptrs.map (wrapPointerFromCallback c stack)) after) :
    unwrapAll sizeVariable after stack a =
      (lastReaching c sizeVariable ptrs after a).elim (stack a) (·.byteAt a) := by
  obtain ⟨hold, hsome⟩ := h.oldptrs
  rw [unwrapAll_eq, hold]
  refine foldl_store_apply (fun p hp stack ↦ ?_) stack
  rw [unwrapPointerFromCallback_apply (hsome p hp)]
  simp only [decide_eq_true_eq]

/-- A byte of an object that reaches the address is the old one, or the callback has changed it. -/
theorem changes_iff (hreaches : Reaches c sizeVariable ptrs a p.oldptr)
    (hsome : p.copy.isSome = true ↔ onStack c p.oldptr) :
    Changes stack p a v ↔ p.byteAt a = v ∧ v ≠ stack a := by
  obtain ⟨copy, hcopy⟩ := Option.isSome_iff_exists.mp (hsome.mpr hreaches.1)
  unfold Changes ModifiedPointer.byteAt
  rw [hcopy]
  constructor
  · rintro ⟨copy', heq, -, -, hv, hne⟩
    cases heq
    exact ⟨hv, hne⟩
  · rintro ⟨hv, hne⟩
    exact ⟨copy, rfl, hreaches.2.1, hreaches.2.2.1, hv, hne⟩

end CopyBack

/-- **No callback write to a stack object is lost exactly if** each byte that is changed is changed
in the copy of the last object that reaches it. -/
theorem keepsWrites_iff_lastChanges {c sizeVariable : Pointer} {stack : Stack}
    {ptrs : List Pointer} {after : List ModifiedPointer}
    (hrun : CallbackRuns (ptrs.map (wrapPointerFromCallback c stack)) after) :
    KeepsWrites stack after (unwrapAll sizeVariable after stack) ↔
      LastChanges c sizeVariable stack ptrs after := by
  have hlast : ∀ a p, lastReaching c sizeVariable ptrs after a = some p →
      p ∈ after ∧ ∀ v, Changes stack p a v ↔ p.byteAt a = v ∧ v ≠ stack a := by
    intro a p hp
    obtain ⟨hmem, hreaches⟩ := List.mem_filter.mp (List.mem_of_getLast? hp)
    exact ⟨hmem, fun v ↦ changes_iff (of_decide_eq_true hreaches) (hrun.oldptrs.2 p hmem)⟩
  constructor
  · intro h a v hchange hagree
    have hkept := h.changed a v hchange hagree
    have hne : v ≠ stack a := by
      obtain ⟨p, -, copy, -, -, -, -, hne⟩ := hchange
      exact hne
    rw [unwrapAll_apply hrun] at hkept
    cases hp : lastReaching c sizeVariable ptrs after a with
    | none =>
      rw [hp] at hkept
      exact absurd hkept.symm hne
    | some p =>
      rw [hp] at hkept
      exact ⟨p, rfl, ((hlast a p hp).2 v).mpr ⟨hkept, hne⟩⟩
  · intro h
    refine ⟨fun a v hchange hagree ↦ ?_, fun a hnone ↦ ?_⟩
    · obtain ⟨p, hp, hchange'⟩ := h a v hchange hagree
      rw [unwrapAll_apply hrun, hp]
      exact (((hlast a p hp).2 v).mp hchange').1
    · rw [unwrapAll_apply hrun]
      cases hp : lastReaching c sizeVariable ptrs after a with
      | none => rfl
      | some p =>
        obtain ⟨hmem, hiff⟩ := hlast a p hp
        by_contra hne
        exact hnone p hmem _ ((hiff _).mpr ⟨rfl, hne⟩)

/-! ## Two objects -/

section TwoObjects

/-- The bytes at the new pointer of an object of zeros, after one byte was changed to 7. -/
def changedAt (ptr : Pointer) (offset : ℕ) : ModifiedPointer :=
  ⟨ptr, some fun i ↦ if i = offset then 7 else 0⟩

/-- The bytes at the new pointer of an object of zeros. -/
def notChanged (ptr : Pointer) : ModifiedPointer := ⟨ptr, some fun _ ↦ 0⟩

theorem changes_changedAt {ptr : Pointer} {offset a : ℕ} {v : BitVec 8}
    (h : Changes (fun _ ↦ 0) (changedAt ptr offset) a v) : a = ptr.toNat + offset ∧ v = 7 := by
  obtain ⟨copy, hcopy, hle, -, hv, hne⟩ := h
  obtain rfl := Option.some.inj hcopy
  replace hv : (if a - ptr.toNat = offset then 7 else 0) = v := hv
  replace hle : ptr.toNat ≤ a := hle
  split at hv
  next hoffset => exact ⟨by omega, hv.symm⟩
  next => exact absurd hv.symm hne

theorem not_changes_notChanged {ptr : Pointer} {a : ℕ} {v : BitVec 8} :
    ¬ Changes (fun _ ↦ 0) (notChanged ptr) a v := by
  rintro ⟨copy, hcopy, -, -, hv, hne⟩
  obtain rfl := Option.some.inj hcopy
  exact hne hv.symm

/-- Two arguments point to the same object, which is changed through the second one, and the object
above it is changed, too. -/
theorem keepsWrites_three_arguments :
    KeepsWrites (fun _ ↦ 0) [notChanged 0x1000, changedAt 0x1000 3, changedAt 0x1010 0]
        (unwrapAll 0xff0 [notChanged 0x1000, changedAt 0x1000 3, changedAt 0x1010 0] fun _ ↦ 0) ∧
      unwrapAll 0xff0 [notChanged 0x1000, changedAt 0x1000 3, changedAt 0x1010 0] (fun _ ↦ 0)
        0x1003 = 7 := by
  have hrun : CallbackRuns ([0x1000, 0x1000, 0x1010].map (wrapPointerFromCallback 0xff8 fun _ ↦ 0))
      [notChanged 0x1000, changedAt 0x1000 3, changedAt 0x1010 0] := by
    unfold CallbackRuns
    decide
  refine ⟨(keepsWrites_iff_lastChanges hrun).mpr ?_, by decide⟩
  rintro a v ⟨p, hp, hchange⟩ -
  simp only [List.mem_cons, List.not_mem_nil, or_false] at hp
  rcases hp with rfl | rfl | rfl
  · exact absurd hchange not_changes_notChanged
  · obtain ⟨rfl, rfl⟩ := changes_changedAt hchange
    refine ⟨changedAt 0x1000 3, ?_, hchange⟩
    unfold lastReaching
    rw [List.filter_cons_of_pos (by decide), List.filter_cons_of_pos (by decide),
      List.filter_cons_of_neg (by decide)]
    rfl
  · obtain ⟨rfl, rfl⟩ := changes_changedAt hchange
    refine ⟨changedAt 0x1010 0, ?_, hchange⟩
    unfold lastReaching
    rw [List.filter_cons_of_neg (by decide), List.filter_cons_of_neg (by decide),
      List.filter_cons_of_pos (by decide)]
    rfl

theorem not_keepsWrites_of_lost {ptr ptr' : Pointer} {offset : ℕ} {stack' : Stack}
    (hoffset : offset < maxStackvarSize) (hlost : stack' (ptr.toNat + offset) = 0) :
    ¬ KeepsWrites (fun _ ↦ 0) [changedAt ptr offset, notChanged ptr'] stack' := by
  intro h
  have hcell : (if ptr.toNat + offset - ptr.toNat = offset then (7 : BitVec 8) else 0) = 7 :=
    if_pos (Nat.add_sub_cancel_left ..)
  have hchange : Changes (fun _ ↦ 0) (changedAt ptr offset) (ptr.toNat + offset) 7 :=
    ⟨_, rfl, Nat.le_add_right .., Nat.add_lt_add_left hoffset _, hcell,
      show (7 : BitVec 8) ≠ 0 by decide⟩
  have hkept := h.changed _ 7 ⟨_, List.mem_cons_self, hchange⟩ ?_
  · rw [hlost] at hkept
    exact absurd hkept (by decide)
  · intro p hp v' hchange'
    rcases List.mem_cons.mp hp with rfl | hp
    · exact (changes_changedAt hchange').2
    · obtain rfl := List.mem_singleton.mp hp
      exact absurd hchange' not_changes_notChanged

/-- A write is lost if two arguments point to the same object, if an object is changed where another
one begins, or if only one of the two functions takes a pointer for one into the stack. -/
theorem not_keepsWrites_two_objects :
    ¬ KeepsWrites (fun _ ↦ 0) [changedAt 0x1000 3, notChanged 0x1000]
        (unwrapAll 0xff0 [changedAt 0x1000 3, notChanged 0x1000] fun _ ↦ 0) ∧
      ¬ KeepsWrites (fun _ ↦ 0) [changedAt 0x1000 16, notChanged 0x1010]
        (unwrapAll 0xff0 [changedAt 0x1000 16, notChanged 0x1010] fun _ ↦ 0) ∧
      (onStack 0x1000 0x2f80 ∧ ¬ KeepsWrites (fun _ ↦ 0) [changedAt 0x2f80 0, notChanged 0x2e00]
        (unwrapAll 0xf00 [changedAt 0x2f80 0, notChanged 0x2e00] fun _ ↦ 0)) :=
  ⟨not_keepsWrites_of_lost (by decide) (by decide),
    not_keepsWrites_of_lost (by decide) (by decide), by decide,
    not_keepsWrites_of_lost (by decide) (by decide)⟩

end TwoObjects

end Cali.Ipc.StackCopies
