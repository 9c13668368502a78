import Cali.Linker.Config
import Mathlib.Data.List.Nodup

/-!
# Specialization

Functions that some callers need for shared memory and others do not are cloned, one strongly
connected component at a time.  Calls between the functions of a component stay inside of the
component in the clones, and some of the other uses of the functions are changed to the clones.
Which ones is decided by the dependence graph; nothing here depends on it.  In the end functions
that are not used any more are removed.

If clones are taken for the functions that they were cloned from, the module after the pass is the
module before it.  The pass does not get that far if a function of a component calls one of them
with the called function itself as an argument.
-/

namespace Cali.Passes.Specialization

open Cali.Linker

/-- Code is a sequence of operands: a function, which an instruction calls or has as an argument,
or something else. -/
inductive Operand (V : Type)
  | function (instruction : ℕ) (called : Bool) (name : Str)
  | value (v : V)

/-- A module: its functions, where those that are only declared have no code, and under `none`
what its constants consist of. -/
abbrev Module (V : Type) := List (Option Str × List (Operand V))

/-- The place of an operand, and whether it is called there. -/
structure Use where
  function : Option Str
  position : ℕ
  called : Bool

variable {V : Type}

def Operand.map (r : Str → Str) : Operand V → Operand V
  | .function instruction called name => .function instruction called (r name)
  | .value v => .value v

def Operand.names : Operand V → List Str
  | .function _ _ name => [name]
  | .value _ => []

def Operand.called : Operand V → Bool
  | .function _ called _ => called
  | .value _ => false

/-- The instruction and the function that it calls, or the function that is an argument of it. -/
def Operand.user (called : Bool) : Operand V → Option (ℕ × Str)
  | .function instruction c name => if c = called then some (instruction, name) else none
  | .value _ => none

/-- The function is there. -/
def Module.Has (M : Module V) (f : Str) : Prop := ∃ x ∈ M, x.1 = some f

instance (M : Module V) (f : Str) : Decidable (M.Has f) := inferInstanceAs (Decidable (∃ _ ∈ _, _))

/-- The functions that are used, once for each use. -/
def Module.uses (M : Module V) : List Str := M.flatMap fun x ↦ x.2.flatMap Operand.names

/-! ## The pass -/

/-- `getSpecializedName` -/
def getSpecializedName (oldName : Str) : Str := "__ipc_specialized_".toList ++ oldName

/-- `setCalledFunction` and `setOperand` for the chosen uses of a function, which become uses of
its clone. -/
def redirect (chosen : Use → Bool) (old : Str) (M : Module V) : Module V :=
  M.map fun y ↦ (y.1, y.2.mapIdx fun i x ↦ x.map fun name ↦
    if chosen ⟨y.1, i, x.called⟩ = true ∧ name = old then getSpecializedName old else name)

def redirectAll (chosen : Str → Use → Bool) (scc : List Str) (M : Module V) : Module V :=
  scc.foldl (fun M f ↦ redirect (chosen f) f M) M

/-- The loop over a component in `cloneSCC`.  A function that has the name already is taken. -/
def cloneFunction (M : Module V) (f : Str) : Module V :=
  if M.Has (getSpecializedName f) then M
  else
    match M.find? fun x ↦ x.1 = some f with
    | none => M
    | some x => M ++ [(some (getSpecializedName f), x.2)]

/-- The calls in the clones. -/
def calledInClones (scc : List Str) (use : Use) : Bool :=
  use.called && decide (∃ f ∈ scc, use.function = some (getSpecializedName f))

/-- An instruction of one of the callers calls a function of the component, and has the function as
an argument as well. -/
def Module.passesItself (M : Module V) (scc callers : List Str) : Bool :=
  M.any fun x ↦ decide (x.1 ∈ callers.map some) && x.2.any fun y ↦ x.2.any fun z ↦
    (y.user true).any fun call ↦ decide (call.2 ∈ scc ∧ z.user false = some call)

/-- `cloneSCC`.  A call is collected once for each use of the called function in it.  The second
time it calls a clone, which is not in `old_to_new`, and `setCalledFunction` gets a null pointer. -/
def cloneSCC (M : Module V) (scc : List Str) : Option (Module V) :=
  let M := scc.foldl cloneFunction M
  if M.passesItself scc (scc.map getSpecializedName) then none
  else some (redirectAll (fun _ ↦ calledInClones scc) scc M)

/-- A component that requires specialization, with the uses of each of its functions that are
changed to the clone. -/
structure Component where
  scc : List Str
  chosen : Str → Use → Bool

/-- `cloneSCC`, and `specializeCalls` for each function. -/
def specializeSCC (M : Module V) (c : Component) : Option (Module V) :=
  (cloneSCC M c.scc).map (redirectAll c.chosen c.scc)

/-- `eraseFromParent` -/
def Module.erase (M : Module V) (f : Str) : Module V := M.filter fun x ↦ x.1 ≠ some f

/-- `removeIfDead` -/
def removeIfDead (M : Module V) (function : Str) : Option (Module V) :=
  if function ∈ M.uses then none else some (M.erase function)

/-- The loop over `all_old_to_new`: of a function and its clone at most one is removed. -/
def removeUnused (M : Module V) (f : Str) : Module V :=
  (removeIfDead M (getSpecializedName f)).getD ((removeIfDead M f).getD M)

/-- `runOnModule`.  The order of the last loop is that of the addresses of the functions. -/
def runOnModule (M : Module V) (components : List Component) (order : List Str) :
    Option (Module V) :=
  (components.foldlM specializeSCC M).map (order.foldl removeUnused)

/-! ## Names are read as others -/

def rename (r : Str → Str) (x : Option Str × List (Operand V)) : Option Str × List (Operand V) :=
  (x.1.map r, x.2.map (Operand.map r))

/-- The module `M'` is `M` if names are read as `r` says. -/
def Renames (r : Str → Str) (M' M : Module V) : Prop := ∀ x, x ∈ M'.map (rename r) ↔ x ∈ M

/-- The clones of the functions are read as the functions. -/
def Undoes (r : Str → Str) (olds : List Str) : Prop := ∀ f ∈ olds, r (getSpecializedName f) = r f

variable {r : Str → Str} {M M' M'' : Module V} {f g : Str} {scc olds olds' order : List Str}
  {c : Component}

theorem map_redirect {chosen : Use → Bool} (hr : r (getSpecializedName f) = r f) :
    (redirect chosen f M).map (rename r) = M.map (rename r) := by
  rw [redirect, List.map_map]
  refine List.map_congr_left fun y _ ↦ congrArg (Prod.mk _) (List.ext_getElem? fun i ↦ ?_)
  simp only [List.getElem?_map, List.getElem?_mapIdx, Option.map_map]
  refine congrArg (Option.map · y.2[i]?) (funext fun x ↦ ?_)
  cases x <;> grind [Operand.map]

theorem map_redirectAll (hr : Undoes r scc) (chosen : Str → Use → Bool) :
    (redirectAll chosen scc M).map (rename r) = M.map (rename r) :=
  List.foldlRecOn (motive := (List.map (rename r) · = M.map (rename r))) scc _ rfl
    fun _ h f hf ↦ (map_redirect (hr f hf)).trans h

theorem cloneFunction_eq (M : Module V) (f : Str) :
    cloneFunction M f = M ∧ (M.Has f → M.Has (getSpecializedName f)) ∨
      ∃ x ∈ M, x.1 = some f ∧ cloneFunction M f = M ++ [(some (getSpecializedName f), x.2)] := by
  unfold cloneFunction
  split
  next h => exact .inl ⟨rfl, fun _ ↦ h⟩
  next =>
      split
      next h =>
        exact .inl ⟨rfl, fun ⟨x, hx, hxf⟩ ↦ by simpa [hxf] using List.find?_eq_none.mp h x hx⟩
      next x h => exact .inr ⟨x, List.mem_of_find?_eq_some h, by simpa using List.find?_some h, rfl⟩

/-- **A function is cloned.** -/
theorem Renames.cloneFunction (h : Renames r M' M) (hr : r (getSpecializedName f) = r f) :
    Renames r (cloneFunction M' f) M := by
  rcases cloneFunction_eq M' f with ⟨heq, -⟩ | ⟨x, hx, hxf, heq⟩
  · rwa [heq]
  · have hclone : rename r (some (getSpecializedName f), x.2) = rename r x := by
      simp [rename, hxf, hr]
    have hmem : rename r x ∈ M'.map (rename r) := List.mem_map_of_mem hx
    intro y
    rw [heq, List.map_append, List.mem_append, List.map_singleton, hclone, List.mem_singleton,
      ← h y, or_iff_left_of_imp (· ▸ hmem)]

theorem Renames.foldl_cloneFunction (h : Renames r M' M) (hr : Undoes r scc) :
    Renames r (scc.foldl Specialization.cloneFunction M') M :=
  List.foldlRecOn (motive := (Renames r · M)) scc _ h fun _ h f hf ↦ h.cloneFunction (hr f hf)

theorem user_map (called : Bool) (y : Operand V) :
    (y.map r).user called = (y.user called).map (Prod.map id r) := by
  cases y with
  | value v => rfl
  | function instruction c name =>
    simp only [Operand.map, Operand.user]
    split <;> rfl

theorem Renames.passesItself (h : Renames r M' M) (hr : Undoes r scc) (hfix : ∀ f ∈ scc, r f = f)
    (hM' : M'.passesItself scc (scc.map getSpecializedName) = true) :
    M.passesItself scc scc = true := by
  simp only [Module.passesItself, List.any_eq_true, Bool.and_eq_true, decide_eq_true_eq,
    Option.any_eq_true, List.mem_map] at hM' ⊢
  obtain ⟨x, hx, ⟨-, ⟨f, hf, rfl⟩, hxf⟩, y, hy, z, hz, call, hcall, hmem, hz'⟩ := hM'
  have hcall' : Prod.map id r call = call := Prod.ext rfl (hfix _ hmem)
  refine ⟨rename r x, (h _).mp (List.mem_map_of_mem hx), ⟨f, hf, ?_⟩, y.map r,
    List.mem_map_of_mem hy, z.map r, List.mem_map_of_mem hz, call, ?_, hmem, ?_⟩
  · rw [rename, ← hxf, Option.map_some, hr f hf, hfix f hf]
  · rw [user_map, hcall, Option.map_some, hcall']
  · rw [user_map, hz', Option.map_some, hcall']

/-! ## The functions that are there -/

/-- The functions of `M` are in `M'`, with clones of some of them. -/
structure Extends (olds : List Str) (M M' : Module V) : Prop where
  keeps : ∀ f, M.Has f → M'.Has f
  clones : ∀ f ∈ olds, M.Has f → M'.Has (getSpecializedName f)

theorem Extends.trans (h : Extends olds M M') (h' : Extends olds' M' M'') :
    Extends (olds ++ olds') M M'' where
  keeps f hf := h'.keeps f (h.keeps f hf)
  clones := List.forall_mem_append.mpr
    ⟨fun f hf hM ↦ h'.keeps _ (h.clones f hf hM), fun f hf hM ↦ h'.clones f hf (h.keeps f hM)⟩

theorem extends_foldl {α : Type} {step : Module V → α → Module V} {olds : α → List Str}
    (hstep : ∀ M a, Extends (olds a) M (step M a)) (l : List α) (M : Module V) :
    Extends (l.flatMap olds) M (l.foldl step M) := by
  induction l generalizing M with
  | nil => exact ⟨fun _ hf ↦ hf, List.forall_mem_nil _⟩
  | cons a l ih => exact (hstep M a).trans (ih (step M a))

theorem extends_cloneFunction (M : Module V) (f : Str) : Extends [f] M (cloneFunction M f) := by
  rcases cloneFunction_eq M f with ⟨heq, hhas⟩ | ⟨y, -, -, heq⟩
  · exact heq.symm ▸ ⟨fun _ hf ↦ hf, List.forall_mem_singleton.mpr hhas⟩
  · refine heq.symm ▸ ⟨fun g ⟨x, hx, hxg⟩ ↦ ⟨x, List.mem_append_left _ hx, hxg⟩, ?_⟩
    exact List.forall_mem_singleton.mpr fun _ ↦ ⟨_, List.mem_append_right _ List.mem_cons_self, rfl⟩

theorem extends_redirectAll (chosen : Str → Use → Bool) (scc : List Str) (M : Module V) :
    Extends [] M (redirectAll chosen scc M) := by
  refine ⟨fun g hg ↦ ?_, List.forall_mem_nil _⟩
  refine List.foldlRecOn (motive := fun M' ↦ Module.Has M' g) scc _ hg fun M' h f _ ↦ ?_
  obtain ⟨x, hx, hxg⟩ := h
  exact ⟨_, List.mem_map_of_mem hx, hxg⟩

/-- **A component is specialized.** -/
theorem Renames.specializeSCC (h : Renames r M' M) (hr : Undoes r c.scc)
    (hfix : ∀ f ∈ c.scc, r f = f) (hargs : M.passesItself c.scc c.scc = false) :
    ∃ M'', specializeSCC M' c = some M'' ∧ Renames r M'' M ∧ Extends c.scc M' M'' := by
  have hclones := h.foldl_cloneFunction hr
  have hcollected : ¬ Module.passesItself (c.scc.foldl Specialization.cloneFunction M') c.scc
      (c.scc.map getSpecializedName) = true := fun hM' ↦
    absurd (hclones.passesItself hr hfix hM') (Bool.eq_false_iff.mp hargs)
  refine ⟨_, by rw [Specialization.specializeSCC, cloneSCC, if_neg hcollected, Option.map_some],
    ?_, ?_⟩
  · rw [Renames, map_redirectAll hr, map_redirectAll hr]
    exact hclones
  · have hextends := ((extends_foldl extends_cloneFunction c.scc M').trans (extends_redirectAll
      (fun _ ↦ calledInClones c.scc) c.scc _)).trans (extends_redirectAll c.chosen c.scc _)
    rwa [List.append_nil, List.append_nil, List.flatMap_singleton'] at hextends

/-- **All components are specialized.** -/
theorem Renames.foldlM_specializeSCC {components : List Component} (h : Renames r M' M)
    (hr : ∀ c ∈ components, Undoes r c.scc ∧ ∀ f ∈ c.scc, r f = f)
    (hargs : ∀ c ∈ components, M.passesItself c.scc c.scc = false) :
    ∃ M'', components.foldlM Specialization.specializeSCC M' = some M'' ∧ Renames r M'' M ∧
      Extends (components.flatMap Component.scc) M' M'' := by
  induction components generalizing M' with
  | nil => exact ⟨M', rfl, h, fun _ hf ↦ hf, List.forall_mem_nil _⟩
  | cons c components ih =>
    obtain ⟨⟨hundoes, hfix⟩, hr⟩ := List.forall_mem_cons.mp hr
    obtain ⟨hc, hargs⟩ := List.forall_mem_cons.mp hargs
    obtain ⟨M₁, hM₁, hrenames, hextends⟩ := h.specializeSCC hundoes hfix hc
    obtain ⟨M₂, hM₂, hrenames, hextends₂⟩ := ih hrenames hr hargs
    exact ⟨M₂, by rw [List.foldlM_cons, hM₁]; exact hM₂, hrenames, hextends.trans hextends₂⟩

/-! ## Functions are removed -/

/-- The module `M'` is `M` if names are read as `r` says, and the functions that it uses are
there. -/
structure Covers (r : Str → Str) (M' M : Module V) : Prop where
  renames : Renames r M' M
  closed : ∀ f ∈ M'.uses, M'.Has f

theorem mem_uses : f ∈ M.uses ↔ ∃ x ∈ M, ∃ y ∈ x.2, f ∈ y.names := by
  simp [Module.uses]

theorem Module.Has.erase (hf : M.Has f) (hfg : f ≠ g) : (M.erase g).Has f := by
  obtain ⟨x, hx, hxf⟩ := hf
  exact ⟨x, List.mem_filter.mpr ⟨hx, by simpa [hxf] using hfg⟩, hxf⟩

theorem Covers.erase (h : Covers r M' M) (hM : (M.map Prod.fst).Nodup) (hf : f ∉ M'.uses)
    (hg : M'.Has g) (hgf : g ≠ f) (hr : r g = r f) : Covers r (M'.erase f) M := by
  refine ⟨fun x ↦ ⟨fun hx ↦ ?_, fun hx ↦ ?_⟩, fun g hg ↦ ?_⟩
  · exact (h.renames x).mp (List.map_subset _ (List.filter_subset_self _) hx)
  · obtain ⟨y, hy, rfl⟩ := List.mem_map.mp ((h.renames x).mpr hx)
    by_cases hyf : y.1 = some f
    · obtain ⟨z, hz, hzg⟩ := hg
      have heq : rename r y = rename r z := List.inj_on_of_nodup_map hM hx
        ((h.renames _).mp (List.mem_map_of_mem hz)) (by simp [rename, hzg, hyf, hr])
      rw [heq]
      exact List.mem_map_of_mem (List.mem_filter.mpr ⟨hz, by simpa [hzg] using hgf⟩)
    · exact List.mem_map_of_mem (List.mem_filter.mpr ⟨hy, by simpa using hyf⟩)
  · obtain ⟨y, hy, hyg⟩ := mem_uses.mp hg
    have hg' : g ∈ M'.uses := mem_uses.mpr ⟨y, List.mem_of_mem_filter hy, hyg⟩
    exact (h.closed g hg').erase fun heq ↦ hf (heq ▸ hg')

theorem removeUnused_cases {P : Module V → Prop} (h : P M)
    (hold : f ∉ M.uses → P (M.erase f))
    (hnew : getSpecializedName f ∉ M.uses → P (M.erase (getSpecializedName f))) :
    P (removeUnused M f) := by
  unfold removeUnused removeIfDead
  split
  · split
    · exact h
    · exact hold ‹_›
  · exact hnew ‹_›

/-- **Functions are removed**, of each function and its clone at most one. -/
theorem Covers.removeUnused (hM : (M.map Prod.fst).Nodup) (hr : Undoes r olds)
    (hfresh : ∀ f ∈ olds, ∀ g ∈ olds, getSpecializedName f ≠ g) (h : Covers r M' M)
    (horder : order.Nodup) (hkeys : ∀ f ∈ order, f ∈ olds)
    (hhas : ∀ f ∈ order, M'.Has f ∧ M'.Has (getSpecializedName f)) :
    Covers r (order.foldl removeUnused M') M := by
  induction order generalizing M' with
  | nil => exact h
  | cons f order ih =>
    obtain ⟨hnotin, horder⟩ := List.nodup_cons.mp horder
    obtain ⟨hf, hkeys⟩ := List.forall_mem_cons.mp hkeys
    obtain ⟨⟨hold, hnew⟩, hhas⟩ := List.forall_mem_cons.mp hhas
    have hne := hfresh f hf f hf
    refine ih (removeUnused_cases (P := (Covers r · M)) h
      (fun hdead ↦ h.erase hM hdead hnew hne (hr f hf))
      fun hdead ↦ h.erase hM hdead hold hne.symm (hr f hf).symm) horder hkeys fun g hg ↦ ?_
    have hkeeps : ∀ k, M'.Has k → k ≠ f → k ≠ getSpecializedName f →
        (Specialization.removeUnused M' f).Has k := fun k hk hkf hkf' ↦
      removeUnused_cases (P := (Module.Has · k)) hk (fun _ ↦ hk.erase hkf) fun _ ↦ hk.erase hkf'
    have hgf : g ≠ f := fun heq ↦ hnotin (heq ▸ hg)
    exact ⟨hkeeps g (hhas g hg).1 hgf (hfresh f hf g (hkeys g hg)).symm,
      hkeeps _ (hhas g hg).2 (hfresh g (hkeys g hg) f hf)
        fun heq ↦ hgf (List.append_cancel_left heq)⟩

/-! ## The whole pass -/

/-- The function that a function was cloned from, or the function itself. -/
def original (olds : List Str) (name : Str) : Str :=
  (olds.find? fun f ↦ getSpecializedName f = name).getD name

theorem original_eq (olds : List Str) (name : Str) :
    original olds name = name ∧ (∀ f ∈ olds, getSpecializedName f ≠ name) ∨
      ∃ f ∈ olds, getSpecializedName f = name ∧ original olds name = f := by
  unfold original
  cases hfind : olds.find? _ with
  | none => exact .inl ⟨rfl, by simpa using hfind⟩
  | some g =>
    exact .inr ⟨g, List.mem_of_find?_eq_some hfind, by simpa using List.find?_some hfind, rfl⟩

theorem renames_self (hclosed : ∀ f ∈ M.uses, M.Has f) (hr : ∀ f, M.Has f → r f = f) :
    Renames r M M := by
  have hrename : ∀ x ∈ M, rename r x = x := by
    intro x hx
    have hname : x.1.map r = x.1 :=
      (Option.map_congr fun f hf ↦ hr f ⟨x, hx, hf⟩).trans (congrFun Option.map_id _)
    refine Prod.ext hname ((List.map_congr_left fun y hy ↦ ?_).trans (List.map_id _))
    have hnames : ∀ f ∈ y.names, r f = f := fun f hf ↦
      hr f (hclosed f (mem_uses.mpr ⟨x, hx, y, hy, hf⟩))
    cases y <;> simp_all [Operand.map, Operand.names]
  intro x
  rw [List.map_congr_left hrename, List.map_id']

theorem Renames.covers (h : Renames (original olds) M' M) (hclosed : ∀ f ∈ M.uses, M.Has f)
    (hextends : Extends olds M M') (holds : ∀ f ∈ olds, M.Has f) : Covers (original olds) M' M := by
  refine ⟨h, fun f hf ↦ ?_⟩
  obtain ⟨x, hx, y, hy, hf⟩ := mem_uses.mp hf
  have hused : original olds f ∈ M.uses := mem_uses.mpr ⟨_, (h _).mp (List.mem_map_of_mem hx), _,
    List.mem_map_of_mem hy, by cases y <;> simp_all [Operand.map, Operand.names]⟩
  rcases original_eq olds f with ⟨heq, -⟩ | ⟨g, hg, rfl, -⟩
  · exact hextends.keeps f (hclosed f (heq ▸ hused))
  · exact hextends.clones g hg (holds g hg)

/-- A function that calls itself is specialized for its only other caller, and removed. -/
def recursive : Module Unit :=
  [(some ['m'], [.function 0 true ['f']]), (some ['f'], [.function 0 true ['f'], .value ()])]

def components : List Component := [⟨[['f']], fun _ _ ↦ true⟩]

/-- A function that calls itself with itself as an argument. -/
example : runOnModule [(some ['f'], [.function 0 true ['f'], .function 0 false ['f'], .value ()])]
    components [['f']] = none := rfl

end Cali.Passes.Specialization
