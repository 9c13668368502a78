import Cali.Graph.Slots
import Cali.Passes.PDG

/-!
# Creating vertices

`getVertex` returns the vertex of an LLVM value and creates it when there is none yet,
together with the vertices for the parts of the value.  `createSubnodes` follows the
type of the value: into the members of structs without a limit, and through pointers
as deep as `subnode_limit` allows.  The limit is an `int` that is counted down at each member;
below the smallest `int` the source is undefined, and the functions here have no result.
-/

namespace Cali.Passes

open Cali.Graph

variable {Val Fn : Type}

/-- What the graph asks LLVM about a value. -/
structure Llvm (Val Fn : Type) where
  /-- The value as a function. -/
  asFunction : Val → Option Fn
  /-- The function of an instruction. -/
  instructionFunction : Val → Option Fn
  /-- The value is a global variable that is constant. -/
  isConstantGlobal : Val → Bool
  typeOf : Val → Ty
  /-- The table of the types that pointers point to. -/
  pointee : ℕ → Ty

/-- An array is handled like a variable of the type of its elements. -/
def Ty.unwrapArray : Ty → Ty
  | .array element => element
  | ty => ty

theorem Ty.sizeOf_unwrapArray_le (ty : Ty) : sizeOf ty.unwrapArray ≤ sizeOf ty := by
  cases ty with
  | array element =>
    simp only [Ty.unwrapArray, Ty.array.sizeOf_spec]
    omega
  | _ => exact Nat.le_refl _

namespace PDG

/-- The parts of a constant are constant. -/
def isConstant (llvm : Llvm Val Fn) (g : PDG Val Fn) (v : ℕ) : Bool :=
  (g.node v).constant || (g.node v).instruction.any llvm.isConstantGlobal

/-- The vertex that `createSubnodes` makes for a part of `parent`. -/
def subnode (g : PDG Val Fn) (parent : ℕ) (ty : Ty) (isConstant : Bool) : PDGNode Val Fn where
  function := (g.node parent).function
  type := some ty
  subnode := true
  constant := isConstant

variable [DecidableEq Fn]

mutual

/-- `createSubnodes` for a parent of type `ty`. -/
def createSubnodesOf (llvm : Llvm Val Fn) (g : PDG Val Fn) (parent : ℕ) (ty : Ty) (limit : ℤ) :
    Option (PDG Val Fn) :=
  match h : ty.unwrapArray with
  | .pointer target =>
    let r := g.pdgAddVertex (g.subnode parent (llvm.pointee target) (g.isConstant llvm parent))
    let g := r.2.addEdge parent r.1 ⟨.deref, 0⟩
    -- the type of the new vertex is the one it was made with
    if limit > 0 then createSubnodesOf llvm g r.1 (llvm.pointee target) (limit - 1) else some g
  | .struct elements => createParts llvm g parent (g.isConstant llvm parent) elements 0 limit
  | _ => some g
termination_by (limit.toNat, sizeOf ty, 0)
decreasing_by
  · exact Prod.Lex.left _ _ (by omega)
  · have hle := ty.sizeOf_unwrapArray_le
    rw [h, Ty.struct.sizeOf_spec] at hle
    exact Prod.Lex.right _ (Prod.Lex.left _ _ (by omega))

/-- A new member behind the edge with index `j`, and the vertices below it. -/
def createMember (llvm : Llvm Val Fn) (g : PDG Val Fn) (parent : ℕ) (isConstant : Bool) (ty : Ty)
    (j : ℕ) (limit : ℤ) : Option (PDG Val Fn) :=
  let r := g.pdgAddVertex (g.subnode parent ty isConstant)
  let g := r.2.addEdge parent r.1 ⟨.part, j⟩
  if limit - 1 < -2 ^ 31 then none else createSubnodesOf llvm g r.1 ty (limit - 1)
termination_by (limit.toNat, sizeOf ty, 1)
decreasing_by
  apply Prod.Lex.right'
  · omega
  · exact Prod.Lex.right _ Nat.one_pos

/-- The loop of `createSubnodes` over the members of a struct, from the index `i` on. -/
def createParts (llvm : Llvm Val Fn) (g : PDG Val Fn) (parent : ℕ) (isConstant : Bool)
    (elements : List Ty) (i : ℕ) (limit : ℤ) : Option (PDG Val Fn) :=
  match elements with
  | [] => some g
  | ty :: elements =>
    if i < g.maxParts then
      (createMember llvm g parent isConstant ty i limit).bind fun g ↦
        createParts llvm g parent isConstant elements (i + 1) limit
    else
      match g.getPartOpt parent i with
      | some v =>
        createParts llvm (g.addEdge parent v ⟨.part, g.maxParts⟩) parent isConstant elements
          (i + 1) limit
      | none =>
        (createMember llvm g parent isConstant ty g.maxParts limit).bind fun g ↦
          createParts llvm g parent isConstant elements (i + 1) limit
termination_by (limit.toNat, sizeOf elements, 0)
decreasing_by
  all_goals
    apply Prod.Lex.right
    apply Prod.Lex.left
    simp only [List.cons.sizeOf_spec]
    omega

end

/-- `createSubnodes` -/
def createSubnodesInt (llvm : Llvm Val Fn) (g : PDG Val Fn) (parent : ℕ) (limit : ℤ) :
    Option (PDG Val Fn) :=
  match (g.node parent).type with
  | some ty => createSubnodesOf llvm g parent ty limit
  | none => some g

/-- `createSubnodes` where it is defined -/
def createSubnodes (llvm : Llvm Val Fn) (g : PDG Val Fn) (parent : ℕ) (limit : ℤ) : PDG Val Fn :=
  (g.createSubnodesInt llvm parent limit).getD g

/-- The node of a value; functions are always contained in themselves. -/
def valueNode (llvm : Llvm Val Fn) (value : Val) (function : Option Fn) : PDGNode Val Fn where
  function := (llvm.asFunction value).or (function.or (llvm.instructionFunction value))
  instruction := some value
  type := some (llvm.typeOf value)

/-- `createDummyVertex` -/
def createDummyVertex (llvm : Llvm Val Fn) (g : PDG Val Fn) (value : Val) (function : Option Fn) :
    ℕ × PDG Val Fn :=
  g.pdgAddVertex { valueNode llvm value function with dummy := true }

section ValueIndex

variable [DecidableEq Val]

/-- `createVertex` -/
def createVertex (llvm : Llvm Val Fn) (g : PDG Val Fn) (value : Val) (function : Option Fn) :
    ℕ × PDG Val Fn :=
  let r := g.pdgAddVertex (valueNode llvm value function)
  let g := { r.2 with valueToVertex := Function.update r.2.valueToVertex value (some r.1) }
  (r.1, if (llvm.asFunction value).isNone then g.createSubnodes llvm r.1 g.subnodeLimit else g)

/-- `getVertex` -/
def getVertex (llvm : Llvm Val Fn) (g : PDG Val Fn) (value : Val) (function : Option Fn) :
    ℕ × PDG Val Fn :=
  match g.valueToVertex value with
  | some v =>
    (v, if function ≠ none ∧ (g.node v).function = none then g.updateFunction v function else g)
  | none => g.createVertex llvm value function

/-- One round of the loop of `removeFunction`; the vertex is taken out of the graph,
but not out of the index of functions. -/
def removeFunctionStep (g : PDG Val Fn) (v : ℕ) : PDG Val Fn :=
  let g :=
    match (g.node v).instruction with
    | some value =>
      if g.valueToVertex value = some v then
        { g with valueToVertex := Function.update g.valueToVertex value none }
      else g
    | none => g
  { g with graph := g.graph.removeVertex v }

/-- `removeFunction`; `set` is a copy of the entry of the index, and clearing it has no
effect. -/
def removeFunction (g : PDG Val Fn) (function : Fn) : PDG Val Fn :=
  let set := g.functionToVertices (some function)
  (ascending set).foldl removeFunctionStep g

end ValueIndex

/-! ## What creating subnodes preserves -/

/-- What adding vertices and edges preserves; `S` is a property of the vertices that are
handled. -/
structure Kept (I : PDG Val Fn → Prop) (S : PDG Val Fn → ℕ → Prop) : Prop where
  add : ∀ g prop, I g → I (g.pdgAddVertex prop).2 ∧
    S (g.pdgAddVertex prop).2 (g.pdgAddVertex prop).1 ∧
      ∀ v, S g v → S (g.pdgAddVertex prop).2 v
  edge : ∀ g u w p, I g → S g u → S g w → p.Clamped g.maxParts →
    I (g.addEdge u w p) ∧ ∀ v, S g v → S (g.addEdge u w p) v
  part : ∀ g u i w, I g → g.getPartOpt u i = some w → S g w

namespace Kept

variable {I : PDG Val Fn → Prop} {S : PDG Val Fn → ℕ → Prop}

theorem subnode (h : Kept I S) {g : PDG Val Fn} {parent : ℕ} (prop : PDGNode Val Fn) {p : PDGEdge}
    (hg : I g) (hparent : S g parent) (hp : p.Clamped g.maxParts) :
    let r := g.pdgAddVertex prop
    I (r.2.addEdge parent r.1 p) ∧ S (r.2.addEdge parent r.1 p) r.1 ∧
      ∀ v, S g v → S (r.2.addEdge parent r.1 p) v := by
  obtain ⟨hI, hnew, hold⟩ := h.add g prop hg
  obtain ⟨hI', hkeep⟩ := h.edge _ parent _ p hI (hold parent hparent) hnew hp
  exact ⟨hI', hkeep _ hnew, fun v hv ↦ hkeep v (hold v hv)⟩

mutual

/-- What adding vertices and adding edges preserve is preserved by `createSubnodes`. -/
theorem createSubnodesOf (h : Kept I S) {g x : PDG Val Fn} {parent : ℕ} (llvm : Llvm Val Fn)
    (ty : Ty) (limit : ℤ) (hg : I g) (hparent : S g parent)
    (hx : PDG.createSubnodesOf llvm g parent ty limit = some x) :
    I x ∧ ∀ v, S g v → S x v := by
  rw [PDG.createSubnodesOf] at hx
  split at hx
  · next target _ =>
      obtain ⟨hI, hnew, hold⟩ := h.subnode
        (g.subnode parent (llvm.pointee target) (g.isConstant llvm parent)) hg hparent
        (show (⟨.deref, 0⟩ : PDGEdge).Clamped g.maxParts from ⟨fun _ ↦ rfl, nofun⟩)
      dsimp only at hx
      split at hx
      · obtain ⟨hI', hold'⟩ := h.createSubnodesOf llvm (llvm.pointee target) (limit - 1) hI hnew hx
        exact ⟨hI', fun v hv ↦ hold' v (hold v hv)⟩
      · cases hx
        exact ⟨hI, hold⟩
  · exact h.createParts llvm _ _ _ _ hg hparent hx
  · cases hx
    exact ⟨hg, fun _ hv ↦ hv⟩
termination_by (limit.toNat, sizeOf ty, 0)
decreasing_by
  · exact Prod.Lex.left _ _ (by omega)
  · next h _ _ =>
      have hle := ty.sizeOf_unwrapArray_le
      rw [h, Ty.struct.sizeOf_spec] at hle
      exact Prod.Lex.right _ (Prod.Lex.left _ _ (by omega))

theorem createMember (h : Kept I S) {g x : PDG Val Fn} {parent j : ℕ} (llvm : Llvm Val Fn)
    (isConstant : Bool) (ty : Ty) (hj : j ≤ g.maxParts) (limit : ℤ) (hg : I g)
    (hparent : S g parent)
    (hx : PDG.createMember llvm g parent isConstant ty j limit = some x) :
    I x ∧ ∀ v, S g v → S x v := by
  rw [PDG.createMember] at hx
  obtain ⟨-, hx⟩ := Option.ite_none_left_eq_some.mp hx
  obtain ⟨hI, hnew, hold⟩ := h.subnode (g.subnode parent ty isConstant) hg hparent
    (show (⟨.part, j⟩ : PDGEdge).Clamped g.maxParts from ⟨nofun, fun _ ↦ hj⟩)
  obtain ⟨hI', hold'⟩ := h.createSubnodesOf llvm ty (limit - 1) hI hnew hx
  exact ⟨hI', fun v hv ↦ hold' v (hold v hv)⟩
termination_by (limit.toNat, sizeOf ty, 1)
decreasing_by
  apply Prod.Lex.right'
  · omega
  · exact Prod.Lex.right _ Nat.one_pos

theorem createParts (h : Kept I S) {g x : PDG Val Fn} {parent : ℕ} (llvm : Llvm Val Fn)
    (isConstant : Bool) (elements : List Ty) (i : ℕ) (limit : ℤ) (hg : I g) (hparent : S g parent)
    (hx : PDG.createParts llvm g parent isConstant elements i limit = some x) :
    I x ∧ ∀ v, S g v → S x v := by
  match elements, hx with
  | [], hx =>
    rw [PDG.createParts] at hx
    cases hx
    exact ⟨hg, fun _ hv ↦ hv⟩
  | ty :: elements, hx =>
    -- a new member, the vertices below it, and the other members
    have hmember : ∀ j ≤ g.maxParts, ((PDG.createMember llvm g parent isConstant ty j limit).bind
        fun g ↦ PDG.createParts llvm g parent isConstant elements (i + 1) limit) = some x →
        I x ∧ ∀ v, S g v → S x v := by
      intro j hj hx
      obtain ⟨y, hy, hx⟩ := Option.bind_eq_some_iff.mp hx
      obtain ⟨hI, hold⟩ := h.createMember llvm isConstant ty hj limit hg hparent hy
      obtain ⟨hI', hold'⟩ := h.createParts llvm isConstant elements (i + 1) limit hI
        (hold _ hparent) hx
      exact ⟨hI', fun v hv ↦ hold' v (hold v hv)⟩
    rw [PDG.createParts] at hx
    split at hx
    · next hi => exact hmember i (Nat.le_of_lt hi) hx
    · split at hx
      · next w hw =>
          obtain ⟨hI, hold⟩ := h.edge g parent w ⟨.part, g.maxParts⟩ hg hparent
            (h.part g parent i w hg hw) ⟨nofun, fun _ ↦ Nat.le_refl _⟩
          obtain ⟨hI', hold'⟩ := h.createParts llvm isConstant elements (i + 1) limit hI
            (hold _ hparent) hx
          exact ⟨hI', fun v hv ↦ hold' v (hold v hv)⟩
      · exact hmember g.maxParts (Nat.le_refl _) hx
termination_by (limit.toNat, sizeOf elements, 0)
decreasing_by
  all_goals
    apply Prod.Lex.right
    apply Prod.Lex.left
    simp only [List.cons.sizeOf_spec]
    omega

end

theorem createSubnodes (h : Kept I S) (llvm : Llvm Val Fn) {g : PDG Val Fn} {parent : ℕ} (hg : I g)
    (hparent : S g parent) (limit : ℤ) : I (g.createSubnodes llvm parent limit) := by
  unfold PDG.createSubnodes PDG.createSubnodesInt
  split
  · next ty _ =>
      cases hx : PDG.createSubnodesOf llvm g parent ty limit with
      | none => exact hg
      | some x => exact (h.createSubnodesOf llvm ty limit hg hparent hx).1
  · exact hg

end Kept


end PDG

end Cali.Passes
