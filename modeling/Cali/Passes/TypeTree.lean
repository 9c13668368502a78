import Cali.Lib.Search
import Cali.Passes.Wired

/-!
# The tree that `createSubnodes` builds

`createSubnodes` adds one vertex after the other, each of them together with the edge
that leads to it.  So what it adds is a tree below the vertex it is called for.  The tree
follows the type of the vertex: a struct has a vertex for each of its first `max_parts`
members and one vertex for all the others, and pointers are followed as deep as the limit
allows.
-/

namespace Cali.Passes

open Cali.Graph Cali.Lib

variable {Val Fn : Type}

/-- How much an edge adds to the number of pointers on a path. -/
def PDGEdge.derefs (p : PDGEdge) : ℕ := if p.type = .deref then 1 else 0

namespace PDG

variable {g g' x x' : PDG Val Fn} {u v w parent root : ℕ} {p q : PDGEdge}

/-! ## Trees below a vertex -/

/-- A vertex that was added, the edge to it, and the number of pointers on the path from the root
to it. -/
structure Added where
  vertex : ℕ
  source : ℕ
  label : PDGEdge
  derefs : ℕ

/-- `u` is the root or was added, and there are `n` pointers on the path to it. -/
def InTree (root : ℕ) (added : List Added) (u n : ℕ) : Prop :=
  u = root ∧ n = 0 ∨ ∃ a ∈ added, a.vertex = u ∧ a.derefs = n

variable {added added' : List Added} {a : Added} {n : ℕ}

theorem InTree.mono (h : InTree root added u n) (hsub : added ⊆ added') :
    InTree root added' u n := by
  rcases h with h | ⟨a, ha, hau⟩
  · exact Or.inl h
  · exact Or.inr ⟨a, hsub ha, hau⟩

/-- One more pointer above the root. -/
def Added.shift (n : ℕ) (a : Added) : Added := { a with derefs := n + a.derefs }

theorem InTree.graft {m : ℕ} (hv : InTree root added v n) (hu : InTree v added' u m) :
    InTree root (added'.map (Added.shift n) ++ added) u (n + m) := by
  rcases hu with ⟨rfl, rfl⟩ | ⟨a, ha, rfl, rfl⟩
  · exact hv.mono (List.subset_append_right ..)
  · exact Or.inr ⟨a.shift n, List.mem_append_left _ (List.mem_map_of_mem ha), rfl, rfl⟩

/-- `w` was added below `u`. -/
def Below (added : List Added) (u w : ℕ) : Prop := ∃ a ∈ added, a.source = u ∧ a.vertex = w

theorem reflTransGen_below_mono (hsub : added ⊆ added')
    (h : Relation.ReflTransGen (Below added) u w) : Relation.ReflTransGen (Below added') u w := by
  induction h with
  | refl => exact .refl
  | tail _ hstep ih =>
    obtain ⟨a, ha, hau⟩ := hstep
    exact ih.tail ⟨a, hsub ha, hau⟩

/-- What is known about a graph that has grown. -/
structure Tree (g : PDG Val Fn) (root : ℕ) (added : List Added) (x : PDG Val Fn) : Prop where
  wired : x.Wired
  live_iff : ∀ v, x.Live v ↔ g.Live v ∨ v ∈ added.map Added.vertex
  fresh : ∀ a ∈ added, ¬ g.Live a.vertex
  nodup : (added.map Added.vertex).Nodup
  hasEdge_iff : ∀ u p w, x.HasEdge u p w ↔
    g.HasEdge u p w ∨ ∃ a ∈ added, a.source = u ∧ a.label = p ∧ a.vertex = w
  node_eq : ∀ v, g.Live v → x.node v = g.node v
  function : ∀ a ∈ added, (x.node a.vertex).function = (g.node root).function
  structural : ∀ a ∈ added, a.label.Structural
  source : ∀ a ∈ added, ∃ n, InTree root added a.source n ∧ a.derefs = n + a.label.derefs
  reach : ∀ a ∈ added, Relation.ReflTransGen (Below added) root a.vertex
  maxParts : x.maxParts = g.maxParts

theorem Tree.live_of_inTree (h : Tree g root added x) (hroot : g.Live root)
    (hu : InTree root added u n) : x.Live u := by
  rw [h.live_iff]
  rcases hu with ⟨rfl, -⟩ | ⟨a, ha, rfl, -⟩
  · exact Or.inl hroot
  · exact Or.inr (List.mem_map_of_mem ha)

theorem Tree.function_of_inTree (h : Tree g root added x) (hroot : g.Live root)
    (hu : InTree root added u n) : (x.node u).function = (g.node root).function := by
  rcases hu with ⟨rfl, -⟩ | ⟨a, ha, rfl, -⟩
  · rw [h.node_eq _ hroot]
  · exact h.function a ha

theorem Tree.refl (hg : g.Wired) (root : ℕ) : Tree g root [] g where
  wired := hg
  live_iff _ := (or_iff_left List.not_mem_nil).symm
  fresh _ ha := absurd ha List.not_mem_nil
  nodup := .nil
  hasEdge_iff _ _ _ := (or_iff_left fun ⟨_, ha, _⟩ ↦ absurd ha List.not_mem_nil).symm
  node_eq _ _ := rfl
  function _ ha := absurd ha List.not_mem_nil
  structural _ ha := absurd ha List.not_mem_nil
  source _ ha := absurd ha List.not_mem_nil
  reach _ ha := absurd ha List.not_mem_nil
  maxParts := rfl

theorem Tree.reach_of_inTree (h : Tree g root added x) (hu : InTree root added u n) :
    Relation.ReflTransGen (Below added) root u := by
  rcases hu with ⟨rfl, -⟩ | ⟨a, ha, rfl, -⟩
  · exact .refl
  · exact h.reach a ha

theorem Tree.hasEdge_of_ne (h : Tree g root added x) (hu : g.Live u) (hne : u ≠ root) :
    x.HasEdge u p w ↔ g.HasEdge u p w := by
  rw [h.hasEdge_iff, or_iff_left]
  rintro ⟨a, ha, rfl, -⟩
  obtain ⟨n, hsource, -⟩ := h.source a ha
  rcases hsource with ⟨heq, -⟩ | ⟨b, hb, heq, -⟩
  · exact hne heq
  · exact h.fresh b hb (heq ▸ hu)

/-! ## The members of a struct -/

/-- The `Part` edges of a vertex with `n` members: one for each index up to `max_parts`. -/
structure PartsOk (g : PDG Val Fn) (v n : ℕ) : Prop where
  label_iff : ∀ i, (∃ w, g.HasEdge v ⟨.part, i⟩ w) ↔ ∃ j < n, i = min j g.maxParts
  unique : ∀ i w w', g.HasEdge v ⟨.part, i⟩ w → g.HasEdge v ⟨.part, i⟩ w' → w = w'

/-- A vertex whose type is a struct, or an array of structs, has its members. -/
def FieldsOk (g : PDG Val Fn) (v : ℕ) (ty : Ty) : Prop :=
  ∀ elements, ty.unwrapArray = .struct elements → g.PartsOk v elements.length

theorem part_structural (i : ℕ) : (⟨.part, i⟩ : PDGEdge).Structural := Or.inr rfl

theorem partsOk_zero (hnone : ∀ p w, p.Structural → ¬ g.HasEdge v p w) : g.PartsOk v 0 where
  label_iff i := by
    constructor
    · rintro ⟨w, hw⟩
      exact absurd hw (hnone _ w (part_structural i))
    · rintro ⟨j, hj, -⟩
      exact absurd hj (Nat.not_lt_zero j)
  unique i w _ hw := absurd hw (hnone _ w (part_structural i))

theorem getPartOpt_isMatch (hm : g.graph.Mirrored) (v i : ℕ) :
    g.IsMatch v ⟨.part, min i g.maxParts⟩ (g.getPartOpt v i) := by
  have hindex : (if i > g.maxParts then g.maxParts else i) = min i g.maxParts := by
    split
    · next h => exact (Nat.min_eq_right (Nat.le_of_lt h)).symm
    · next h => exact (Nat.min_eq_left (Nat.not_lt.mp h)).symm
  let cond : PDGEdge → Bool := fun q ↦ q.type = .part ∧ q.index = min i g.maxParts
  have hcond : ∀ e ∈ g.graph.outEdges v,
      cond e.property ↔ e.property = ⟨.part, min i g.maxParts⟩ := by
    rintro ⟨_, _, type, index⟩ -
    simp only [cond, decide_eq_true_eq, PDGEdge.mk.injEq]
  unfold getPartOpt
  rw [hindex]
  exact isMatch_find hm (part_structural _) hcond

theorem PartsOk.getPartOpt_eq (h : g.PartsOk v n) (hm : g.graph.Mirrored) {i : ℕ}
    (hw : g.HasEdge v ⟨.part, min i g.maxParts⟩ w) : g.getPartOpt v i = some w := by
  have hmatch := getPartOpt_isMatch hm v i
  cases hget : g.getPartOpt v i with
  | none =>
    rw [hget] at hmatch
    exact absurd ⟨part_structural _, w, hw⟩ hmatch
  | some w' =>
    rw [hget] at hmatch
    rw [h.unique _ w' w hmatch.2 hw]

theorem PartsOk.congr (h : g.PartsOk v n) (hparts : x.maxParts = g.maxParts)
    (hedge : ∀ p w, x.HasEdge v p w ↔ g.HasEdge v p w) : x.PartsOk v n where
  label_iff i := by
    simp only [hedge, hparts]
    exact h.label_iff i
  unique i w w' hw hw' := h.unique i w w' ((hedge _ _).mp hw) ((hedge _ _).mp hw')

theorem Tree.partsOk (ht : Tree g root added x) (hv : g.Live v) (hne : v ≠ root)
    (h : g.PartsOk v n) : x.PartsOk v n :=
  h.congr ht.maxParts fun _ _ ↦ ht.hasEdge_of_ne hv hne

theorem Tree.fieldsOk (ht : Tree g root added x) (hv : g.Live v) (hne : v ≠ root) {ty : Ty}
    (h : g.FieldsOk v ty) : x.FieldsOk v ty :=
  fun elements heq ↦ ht.partsOk hv hne (h elements heq)

theorem PartsOk.succ_of_hasEdge (h : g.PartsOk v n)
    (hw : g.HasEdge v ⟨.part, min n g.maxParts⟩ w) : g.PartsOk v (n + 1) where
  label_iff i := by
    rw [h.label_iff]
    constructor
    · rintro ⟨j, hj, rfl⟩
      exact ⟨j, Nat.lt_succ_of_lt hj, rfl⟩
    · rintro ⟨j, hj, rfl⟩
      rcases Nat.lt_succ_iff_lt_or_eq.mp hj with hj | rfl
      · exact ⟨j, hj, rfl⟩
      · exact (h.label_iff _).mp ⟨w, hw⟩
  unique := h.unique

/-! ## Growing -/

variable [DecidableEq Fn]

theorem PartsOk.addSubnode (h : g.PartsOk v n) (hg : g.Wired) (ty : Ty) (c : Bool)
    (hnew : ∀ w, ¬ g.HasEdge v ⟨.part, min n g.maxParts⟩ w) :
    (g.addSubnode v ty c ⟨.part, min n g.maxParts⟩).2.PartsOk v (n + 1) where
  label_iff i := by
    simp only [hg.hasEdge_addSubnode, maxParts_addSubnode, true_and, PDGEdge.mk.injEq]
    constructor
    · rintro ⟨w, hw | ⟨rfl, -⟩⟩
      · obtain ⟨j, hj, rfl⟩ := (h.label_iff i).mp ⟨w, hw⟩
        exact ⟨j, Nat.lt_succ_of_lt hj, rfl⟩
      · exact ⟨n, Nat.lt_succ_self n, rfl⟩
    · rintro ⟨j, hj, rfl⟩
      rcases Nat.lt_succ_iff_lt_or_eq.mp hj with hj | rfl
      · obtain ⟨w, hw⟩ := (h.label_iff _).mpr ⟨j, hj, rfl⟩
        exact ⟨w, Or.inl hw⟩
      · exact ⟨_, Or.inr ⟨rfl, rfl⟩⟩
  unique i w w' hw hw' := by
    rw [hg.hasEdge_addSubnode] at hw hw'
    rcases hw with hw | ⟨-, hi, rfl⟩
    · rcases hw' with hw' | ⟨-, hi, rfl⟩
      · exact h.unique i w w' hw hw'
      · exact absurd (hi ▸ hw) (hnew w)
    · rcases hw' with hw' | ⟨-, -, rfl⟩
      · exact absurd (hi ▸ hw') (hnew w')
      · rfl

theorem Tree.add (h : Tree g root added x) (hroot : g.Live root) (ty : Ty) (c : Bool)
    (hu : InTree root added u n) (hp : p.Structural) :
    Tree g root (⟨(x.addSubnode u ty c p).1, u, p, n + p.derefs⟩ :: added)
      (x.addSubnode u ty c p).2 := by
  have hnew : ¬ x.Live (x.addSubnode u ty c p).1 := h.wired.not_live_addSubnode
  have hne : ∀ v, x.Live v → v ≠ (x.addSubnode u ty c p).1 := fun v hv heq ↦ hnew (heq ▸ hv)
  have hold : ∀ a ∈ added, x.Live a.vertex := fun a ha ↦
    (h.live_iff _).mpr (Or.inr (List.mem_map_of_mem ha))
  have hsub : added ⊆ ⟨(x.addSubnode u ty c p).1, u, p, n + p.derefs⟩ :: added :=
    List.subset_cons_self _ _
  constructor
  · exact h.wired.addSubnode (h.live_of_inTree hroot hu)
  · intro v
    rw [h.wired.live_addSubnode, h.live_iff, List.map_cons, List.mem_cons, or_assoc]
    exact or_congr_right or_comm
  · refine List.forall_mem_cons.mpr ⟨fun hlive ↦ hnew ((h.live_iff _).mpr (Or.inl hlive)), h.fresh⟩
  · refine List.nodup_cons.mpr ⟨fun hmem ↦ hnew ((h.live_iff _).mpr (Or.inr hmem)), h.nodup⟩
  · intro a q b
    rw [h.wired.hasEdge_addSubnode, h.hasEdge_iff, or_assoc, List.exists_mem_cons_iff]
    refine or_congr_right (or_comm.trans (or_congr_left ?_))
    exact ⟨fun ⟨h₁, h₂, h₃⟩ ↦ ⟨h₁.symm, h₂.symm, h₃.symm⟩,
      fun ⟨h₁, h₂, h₃⟩ ↦ ⟨h₁.symm, h₂.symm, h₃.symm⟩⟩
  · intro v hv
    rw [node_addSubnode, if_neg (hne v ((h.live_iff v).mpr (Or.inl hv)))]
    exact h.node_eq v hv
  · refine List.forall_mem_cons.mpr ⟨?_, fun a ha ↦ ?_⟩
    · rw [node_addSubnode, if_pos rfl]
      exact h.function_of_inTree hroot hu
    · rw [node_addSubnode, if_neg (hne _ (hold a ha))]
      exact h.function a ha
  · exact List.forall_mem_cons.mpr ⟨hp, h.structural⟩
  · refine List.forall_mem_cons.mpr ⟨⟨n, hu.mono hsub, rfl⟩, fun a ha ↦ ?_⟩
    obtain ⟨m, hm, hderefs⟩ := h.source a ha
    exact ⟨m, hm.mono hsub, hderefs⟩
  · refine List.forall_mem_cons.mpr ⟨?_, fun a ha ↦ reflTransGen_below_mono hsub (h.reach a ha)⟩
    exact (reflTransGen_below_mono hsub (h.reach_of_inTree hu)).tail
      ⟨_, List.mem_cons_self, rfl, rfl⟩
  · exact h.maxParts

/-- The graph `g` has grown by vertices below `root`, one after the other. -/
inductive Grows (g : PDG Val Fn) (root : ℕ) : List Added → PDG Val Fn → Prop
  | refl : Grows g root [] g
  | add {added : List Added} {x : PDG Val Fn} {u n : ℕ} {p : PDGEdge} (ty : Ty) (c : Bool)
      (h : Grows g root added x) (hu : InTree root added u n) (hp : p.Structural) :
      Grows g root (⟨(x.addSubnode u ty c p).1, u, p, n + p.derefs⟩ :: added)
        (x.addSubnode u ty c p).2

theorem Grows.graft (h : Grows g root added x) (hv : InTree root added v n)
    (h' : Grows x v added' x') :
    Grows g root (added'.map (Added.shift n) ++ added) x' := by
  induction h' with
  | refl => exact h
  | add ty c _ hu hp ih =>
    have hnew := ih.add ty c (hv.graft hu) hp
    rw [Nat.add_assoc] at hnew
    exact hnew

theorem Grows.tree (h : Grows g root added x) (hg : g.Wired) (hroot : g.Live root) :
    Tree g root added x := by
  induction h with
  | refl => exact .refl hg root
  | add ty c _ hu hp ih => exact ih.add hroot ty c hu hp

/-! ## What `createSubnodes` builds -/

/-- A tree with at most `bound` pointers on a path, in which the structs that are members have
their own members. -/
structure Built (g : PDG Val Fn) (root bound : ℕ) (added : List Added) (x : PDG Val Fn) :
    Prop where
  grows : Grows g root added x
  derefs : ∀ a ∈ added, a.derefs ≤ bound
  fields : ∀ a ∈ added, a.label.type = .part → ∀ ty, (x.node a.vertex).type = some ty →
    x.FieldsOk a.vertex ty

theorem Built.nil (g : PDG Val Fn) (root bound : ℕ) : Built g root bound [] g :=
  ⟨.refl, fun _ ha ↦ absurd ha List.not_mem_nil, fun _ ha ↦ absurd ha List.not_mem_nil⟩

theorem Built.mono {bound bound' : ℕ} (h : Built g root bound added x) (hle : bound ≤ bound') :
    Built g root bound' added x :=
  ⟨h.grows, fun a ha ↦ (h.derefs a ha).trans hle, h.fields⟩

omit [DecidableEq Fn] in
theorem mem_graft {a : Added} (ha : a ∈ added'.map (Added.shift n) ++ added) :
    (∃ b ∈ added', a = b.shift n) ∨ a ∈ added := by
  rcases List.mem_append.mp ha with ha | ha
  · obtain ⟨b, hb, rfl⟩ := List.mem_map.mp ha
    exact Or.inl ⟨b, hb, rfl⟩
  · exact Or.inr ha

theorem Built.graft {bound bound' : ℕ} (h : Grows g root added x)
    (hderefs : ∀ a ∈ added, a.derefs ≤ bound) (hv : InTree root added v n)
    (h' : Built x v bound' added' x') (hbound : n + bound' ≤ bound)
    (hfields : ∀ a ∈ added, a.label.type = .part → ∀ ty, (x'.node a.vertex).type = some ty →
      x'.FieldsOk a.vertex ty) :
    Built g root bound (added'.map (Added.shift n) ++ added) x' where
  grows := h.graft hv h'.grows
  derefs a ha := by
    rcases mem_graft ha with ⟨b, hb, rfl⟩ | ha
    · exact (Nat.add_le_add_left (h'.derefs b hb) n).trans hbound
    · exact hderefs a ha
  fields a ha := by
    rcases mem_graft ha with ⟨b, hb, rfl⟩ | ha
    · exact h'.fields b hb
    · exact hfields a ha

theorem Built.append {bound : ℕ} (hg : g.Wired) (hroot : g.Live root)
    (h : Built g root bound added x) (h' : Built x root bound added' x') :
    Built g root bound (added'.map (Added.shift 0) ++ added) x' := by
  have ht := h.grows.tree hg hroot
  have hroot' : x.Live root := (ht.live_iff root).mpr (Or.inl hroot)
  have ht' := h'.grows.tree ht.wired hroot'
  refine Built.graft h.grows h.derefs (Or.inl ⟨rfl, rfl⟩) h' (Nat.zero_add bound).le ?_
  intro a ha hpart ty hty
  have hlive : x.Live a.vertex := (ht.live_iff _).mpr (Or.inr (List.mem_map_of_mem ha))
  have hne : a.vertex ≠ root := fun heq ↦ ht.fresh a ha (heq ▸ hroot)
  rw [ht'.node_eq _ hlive] at hty
  exact ht'.fieldsOk hlive hne (h.fields a ha hpart ty hty)

theorem Built.pointee {bound : ℕ} {ty : Ty} {c : Bool}
    (h : Built (g.addSubnode root ty c ⟨.deref, 0⟩).2 (g.addSubnode root ty c ⟨.deref, 0⟩).1 bound
      added x) :
    ∃ added, Built g root (1 + bound) added x := by
  have hnil : Grows g root [] g := .refl
  have hnew := hnil.add ty c (p := ⟨.deref, 0⟩) (Or.inl ⟨rfl, rfl⟩) (Or.inl rfl)
  refine ⟨_, Built.graft hnew ?_ (Or.inr ⟨_, List.mem_cons_self, rfl, rfl⟩) h le_rfl ?_⟩
  · intro a ha
    rw [List.mem_singleton.mp ha]
    exact Nat.le_add_right 1 bound
  · intro a ha hpart
    rw [List.mem_singleton.mp ha] at hpart
    cases hpart

theorem Built.member {bound i : ℕ} {ty : Ty} {c : Bool} (hg : g.Wired) (hroot : g.Live root)
    (h : Built (g.addSubnode root ty c ⟨.part, i⟩).2 (g.addSubnode root ty c ⟨.part, i⟩).1 bound
      added x)
    (hfields : x.FieldsOk (g.addSubnode root ty c ⟨.part, i⟩).1 ty) :
    ∃ added, Built g root bound added x := by
  have hnil : Grows g root [] g := .refl
  have hnew := hnil.add ty c (Or.inl ⟨rfl, rfl⟩) (part_structural i)
  have ht := h.grows.tree (hg.addSubnode hroot) (hg.live_addSubnode.mpr (Or.inr rfl))
  refine ⟨_, Built.graft hnew ?_ (Or.inr ⟨_, List.mem_cons_self, rfl, rfl⟩) h
    (Nat.zero_add bound).le ?_⟩
  · intro a ha
    rw [List.mem_singleton.mp ha]
    exact Nat.zero_le bound
  · intro a ha _ ty' hty
    rw [List.mem_singleton.mp ha] at hty ⊢
    rw [ht.node_eq _ (hg.live_addSubnode.mpr (Or.inr rfl)), node_addSubnode, if_pos rfl] at hty
    exact Option.some.inj hty ▸ hfields

theorem Built.partsOk_member {bound i : ℕ} {ty : Ty} {c : Bool} (hg : g.Wired) (hroot : g.Live root)
    (h : Built (g.addSubnode root ty c ⟨.part, i⟩).2 (g.addSubnode root ty c ⟨.part, i⟩).1 bound
      added x)
    (hparts : (g.addSubnode root ty c ⟨.part, i⟩).2.PartsOk root n) : x.PartsOk root n :=
  have hne : root ≠ (g.addSubnode root ty c ⟨.part, i⟩).1 := fun heq ↦
    hg.not_live_addSubnode (heq ▸ hroot)
  (h.grows.tree (hg.addSubnode hroot) (hg.live_addSubnode.mpr (Or.inr rfl))).partsOk
    (hg.live_addSubnode.mpr (Or.inl hroot)) hne hparts

/-! ## The limit as an `int` -/

mutual

/-- Each `limit - 1` that is computed below a vertex of type `ty` without parts is an `int`. -/
def LimitFits (pointee : ℕ → Ty) (maxParts : ℕ) (ty : Ty) (limit : ℤ) : Prop :=
  match h : ty.unwrapArray with
  | .pointer target => limit > 0 → LimitFits pointee maxParts (pointee target) (limit - 1)
  | .struct elements => PartsFit pointee maxParts elements 0 limit
  | _ => True
termination_by (limit.toNat, sizeOf ty)
decreasing_by
  · exact Prod.Lex.left _ _ (by omega)
  · have hle := ty.sizeOf_unwrapArray_le
    rw [h, Ty.struct.sizeOf_spec] at hle
    exact Prod.Lex.right _ (by omega)

/-- The members from the index `i` on; those from `maxParts` on share the vertex of the first. -/
def PartsFit (pointee : ℕ → Ty) (maxParts : ℕ) (elements : List Ty) (i : ℕ) (limit : ℤ) : Prop :=
  match elements with
  | [] => True
  | ty :: elements =>
    (i ≤ maxParts → -2 ^ 31 ≤ limit - 1 ∧ LimitFits pointee maxParts ty (limit - 1)) ∧
      PartsFit pointee maxParts elements (i + 1) limit
termination_by (limit.toNat, sizeOf elements)
decreasing_by
  all_goals
    apply Prod.Lex.right'
    · omega
    · simp only [List.cons.sizeOf_spec]
      omega

end

section LimitFits

variable {pointee : ℕ → Ty} {maxParts : ℕ} {ty : Ty} {limit : ℤ}

theorem limitFits_pointer {target : ℕ} (h : ty.unwrapArray = .pointer target) :
    LimitFits pointee maxParts ty limit ↔
      (limit > 0 → LimitFits pointee maxParts (pointee target) (limit - 1)) := by
  rw [LimitFits]
  split <;> simp_all

theorem limitFits_struct {elements : List Ty} (h : ty.unwrapArray = .struct elements) :
    LimitFits pointee maxParts ty limit ↔ PartsFit pointee maxParts elements 0 limit := by
  rw [LimitFits]
  split <;> simp_all

theorem limitFits_other (hpointer : ∀ target, ty.unwrapArray ≠ .pointer target)
    (hstruct : ∀ elements, ty.unwrapArray ≠ .struct elements) :
    LimitFits pointee maxParts ty limit := by
  rw [LimitFits]
  split <;> simp_all

end LimitFits

/-- There is a result, one with `P`, exactly if `fits` holds. -/
def ResultIf (fits : Prop) (P : PDG Val Fn → Prop) : Option (PDG Val Fn) → Prop
  | none => ¬ fits
  | some x => fits ∧ P x

section ResultIf

omit [DecidableEq Fn]

variable {fits fits' : Prop} {P Q : PDG Val Fn → Prop} {r : Option (PDG Val Fn)}

theorem ResultIf.imp (h : ResultIf fits P r) (hfits : fits ↔ fits') (hP : ∀ x, P x → Q x) :
    ResultIf fits' Q r := by
  cases r with
  | none => exact mt hfits.mpr h
  | some x => exact ⟨hfits.mp h.1, hP x h.2⟩

theorem ResultIf.bind {k : PDG Val Fn → Option (PDG Val Fn)} (h : ResultIf fits P r)
    (hk : ∀ x, P x → ResultIf fits' Q (k x)) : ResultIf (fits ∧ fits') Q (r.bind k) := by
  cases r with
  | none => exact fun hboth ↦ h hboth.1
  | some x =>
    refine (hk x h.2).imp ⟨fun h' ↦ ⟨h.1, h'⟩, And.right⟩ fun _ hx ↦ hx

end ResultIf

mutual

/-- `createSubnodes` builds a tree, for a vertex that has none yet. -/
theorem createSubnodesOf_built (llvm : Llvm Val Fn) (g : PDG Val Fn) (parent : ℕ) (ty : Ty)
    (limit : ℤ) (hg : g.Wired) (hlive : g.Live parent)
    (hnone : ∀ p w, p.Structural → ¬ g.HasEdge parent p w) :
    ResultIf (LimitFits llvm.pointee g.maxParts ty limit)
      (fun x ↦ (∃ added, Built g parent (limit.toNat + 1) added x) ∧ x.FieldsOk parent ty)
      (createSubnodesOf llvm g parent ty limit) := by
  rw [createSubnodesOf]
  split
  · next target h =>
      rw [limitFits_pointer h]
      have hnot : ∀ x : PDG Val Fn, x.FieldsOk parent ty := fun x elements heq ↦ by
        rw [h] at heq
        cases heq
      dsimp only
      split
      · next hpos =>
          have hbelow := createSubnodesOf_built llvm
            (g.addSubnode parent (llvm.pointee target) (g.isConstant llvm parent) ⟨.deref, 0⟩).2
            (g.addSubnode parent (llvm.pointee target) (g.isConstant llvm parent) ⟨.deref, 0⟩).1
            (llvm.pointee target) (limit - 1) (hg.addSubnode hlive)
            (hg.live_addSubnode.mpr (Or.inr rfl)) fun _ _ _ ↦ hg.not_hasEdge_new hlive
          refine hbelow.imp ⟨fun h _ ↦ h, fun h ↦ h hpos⟩ ?_
          rintro x ⟨⟨below, hbuilt⟩, -⟩
          obtain ⟨added, hadded⟩ := hbuilt.pointee
          exact ⟨⟨added, hadded.mono (by omega)⟩, hnot x⟩
      · next hpos =>
          have hnil := Built.nil
            (g.addSubnode parent (llvm.pointee target) (g.isConstant llvm parent) ⟨.deref, 0⟩).2
            (g.addSubnode parent (llvm.pointee target) (g.isConstant llvm parent) ⟨.deref, 0⟩).1 0
          obtain ⟨added, hadded⟩ := hnil.pointee
          exact ⟨fun h ↦ absurd h hpos, ⟨added, hadded.mono (by omega)⟩, hnot _⟩
  · next elements h =>
      refine (createParts_built llvm g parent (g.isConstant llvm parent) elements 0 limit hg hlive
        (partsOk_zero hnone)).imp (limitFits_struct h).symm ?_
      rintro x ⟨hbuilt, hall⟩
      refine ⟨hbuilt, fun elements' heq ↦ ?_⟩
      rw [h] at heq
      rw [Nat.zero_add] at hall
      cases heq
      exact hall
  · next hpointer hstruct =>
      exact ⟨limitFits_other hpointer hstruct, ⟨[], .nil ..⟩, fun elements heq ↦
        absurd heq (hstruct elements)⟩
termination_by (limit.toNat, sizeOf ty, 0)
decreasing_by
  · exact Prod.Lex.left _ _ (by omega)
  · next h _ =>
      have hle := ty.sizeOf_unwrapArray_le
      rw [h, Ty.struct.sizeOf_spec] at hle
      exact Prod.Lex.right _ (Prod.Lex.left _ _ (by omega))

theorem createMember_built (llvm : Llvm Val Fn) (g : PDG Val Fn) (parent : ℕ) (isConstant : Bool)
    (ty : Ty) (i : ℕ) (limit : ℤ) (hg : g.Wired) (hlive : g.Live parent)
    (hparts : g.PartsOk parent i)
    (hnew : ∀ w, ¬ g.HasEdge parent ⟨.part, min i g.maxParts⟩ w) :
    ResultIf (-2 ^ 31 ≤ limit - 1 ∧ LimitFits llvm.pointee g.maxParts ty (limit - 1))
      (fun x ↦ (∃ added, Built g parent (limit.toNat + 1) added x) ∧ x.PartsOk parent (i + 1))
      (createMember llvm g parent isConstant ty (min i g.maxParts) limit) := by
  rw [createMember]
  split
  · next hlow => exact fun h ↦ absurd h.1 (Int.not_le.mpr hlow)
  · next hlow =>
      refine (createSubnodesOf_built llvm
        (g.addSubnode parent ty isConstant ⟨.part, min i g.maxParts⟩).2
        (g.addSubnode parent ty isConstant ⟨.part, min i g.maxParts⟩).1 ty (limit - 1)
        (hg.addSubnode hlive) (hg.live_addSubnode.mpr (Or.inr rfl))
        fun _ _ _ ↦ hg.not_hasEdge_new hlive).imp
        ⟨fun h ↦ ⟨Int.not_lt.mp hlow, h⟩, And.right⟩ ?_
      rintro x ⟨⟨below, hbelow⟩, hfields⟩
      exact ⟨(hbelow.mono (by omega)).member hg hlive hfields,
        hbelow.partsOk_member hg hlive (hparts.addSubnode hg ty isConstant hnew)⟩
termination_by (limit.toNat, sizeOf ty, 1)
decreasing_by
  apply Prod.Lex.right'
  · omega
  · exact Prod.Lex.right _ Nat.one_pos

theorem createParts_built (llvm : Llvm Val Fn) (g : PDG Val Fn) (parent : ℕ) (isConstant : Bool)
    (elements : List Ty) (i : ℕ) (limit : ℤ) (hg : g.Wired) (hlive : g.Live parent)
    (hparts : g.PartsOk parent i) :
    ResultIf (PartsFit llvm.pointee g.maxParts elements i limit)
      (fun x ↦ (∃ added, Built g parent (limit.toNat + 1) added x) ∧
        x.PartsOk parent (i + elements.length))
      (createParts llvm g parent isConstant elements i limit) := by
  match elements with
  | [] =>
    rw [createParts, PartsFit]
    exact ⟨trivial, ⟨[], .nil ..⟩, hparts⟩
  | ty :: elements =>
    have hlength : i + (ty :: elements).length = i + 1 + elements.length := by
      rw [List.length_cons]
      omega
    -- what a new member and the rest of the loop build
    have hmember : ∀ j, j = min i g.maxParts → i ≤ g.maxParts →
        (∀ w, ¬ g.HasEdge parent ⟨.part, j⟩ w) →
        ResultIf (PartsFit llvm.pointee g.maxParts (ty :: elements) i limit)
          (fun x ↦ (∃ added, Built g parent (limit.toNat + 1) added x) ∧
            x.PartsOk parent (i + 1 + elements.length))
          ((createMember llvm g parent isConstant ty j limit).bind fun x ↦
            createParts llvm x parent isConstant elements (i + 1) limit) := by
      rintro _ rfl hle hnew
      have hrest : ∀ x, (∃ added, Built g parent (limit.toNat + 1) added x) ∧
          x.PartsOk parent (i + 1) →
          ResultIf (PartsFit llvm.pointee g.maxParts elements (i + 1) limit)
            (fun y ↦ (∃ added, Built g parent (limit.toNat + 1) added y) ∧
              y.PartsOk parent (i + 1 + elements.length))
            (createParts llvm x parent isConstant elements (i + 1) limit) := by
        rintro x ⟨⟨member, hbuilt⟩, hpartsx⟩
        have ht := hbuilt.grows.tree hg hlive
        refine (createParts_built llvm x parent isConstant elements (i + 1) limit ht.wired
          ((ht.live_iff parent).mpr (Or.inl hlive)) hpartsx).imp (by rw [ht.maxParts]) ?_
        rintro y ⟨⟨others, hothers⟩, hall⟩
        exact ⟨⟨_, hbuilt.append hg hlive hothers⟩, hall⟩
      refine ((createMember_built llvm g parent isConstant ty i limit hg hlive hparts hnew).bind
        hrest).imp ?_ fun _ hx ↦ hx
      rw [PartsFit]
      exact and_congr_left' ⟨fun h _ ↦ h, fun h ↦ h hle⟩
    rw [createParts, hlength]
    split
    · next hi =>
        refine hmember i (Nat.min_eq_left (Nat.le_of_lt hi)).symm (Nat.le_of_lt hi) fun w hw ↦ ?_
        obtain ⟨j, hj, heq⟩ := (hparts.label_iff i).mp ⟨w, hw⟩
        omega
    · next hi =>
        have hmin : min i g.maxParts = g.maxParts := Nat.min_eq_right (Nat.not_lt.mp hi)
        have hmatch := getPartOpt_isMatch hg.mirrored parent i
        split
        · next v hget =>
            rw [hget] at hmatch
            obtain ⟨j, hj, heq⟩ := (hparts.label_iff _).mp ⟨v, hmatch.2⟩
            rw [addEdge_of_hasEdge (hmin ▸ hmatch.2), PartsFit]
            refine (createParts_built llvm g parent isConstant elements (i + 1) limit hg hlive
              (hparts.succ_of_hasEdge hmatch.2)).imp ⟨fun h ↦ ⟨fun hle ↦ ?_, h⟩, And.right⟩
              fun _ hx ↦ hx
            omega
        · next hget =>
            rw [hget] at hmatch
            have hnew : ∀ w, ¬ g.HasEdge parent ⟨.part, g.maxParts⟩ w := fun w hw ↦
              hmatch ⟨part_structural _, w, hmin.symm ▸ hw⟩
            refine hmember g.maxParts hmin.symm (Nat.not_lt.mp fun hlt ↦ ?_) hnew
            obtain ⟨w, hw⟩ := (hparts.label_iff g.maxParts).mpr
              ⟨g.maxParts, hlt, (Nat.min_self _).symm⟩
            exact hnew w hw
termination_by (limit.toNat, sizeOf elements, 0)
decreasing_by
  all_goals
    apply Prod.Lex.right
    apply Prod.Lex.left
    simp only [List.cons.sizeOf_spec]
    omega

end

/-! ## The type tree -/

/-- There is a `Deref` or `Part` edge from `u` to `w`. -/
def PartOf (g : PDG Val Fn) (u w : ℕ) : Prop := ∃ p, p.Structural ∧ g.HasEdge u p w

/-- A path of `Deref` and `Part` edges from `u` to `w` with `n` pointers on it. -/
inductive DerefPath (g : PDG Val Fn) (u : ℕ) : ℕ → ℕ → Prop
  | refl : DerefPath g u 0 u
  | tail {n v w : ℕ} {p : PDGEdge} (h : DerefPath g u n v) (hp : p.Structural)
      (he : g.HasEdge v p w) : DerefPath g u (n + p.derefs) w

/-- The vertex is in the graph `g'`, but it was not in `g`. -/
def New (g g' : PDG Val Fn) (v : ℕ) : Prop := g'.Live v ∧ ¬ g.Live v

/-- The vertices that are in `g'` and not in `g` are a tree below `parent`: it has the members of
the structs in it, and follows pointers as far as `limit` allows. -/
structure TypeTree (g g' : PDG Val Fn) (parent : ℕ) (limit : ℤ) : Prop where
  finite : {v | New g g' v}.Finite
  function : ∀ v, New g g' v → (g'.node v).function = (g.node parent).function
  incoming : ∀ v, New g g' v →
    ∃! e : ℕ × PDGEdge, e.2.Structural ∧ g'.HasEdge e.1 e.2 v
  source : ∀ u v, New g g' v → g'.PartOf u v → u = parent ∨ New g g' u
  reach : ∀ v, New g g' v → Relation.TransGen g'.PartOf parent v
  acyclic : ∀ v, v = parent ∨ New g g' v → ¬ Relation.TransGen g'.PartOf v v
  fields : ∀ v ty elements,
    v = parent ∨ New g g' v ∧ (∃ u i, g'.HasEdge u ⟨.part, i⟩ v) →
    (g'.node v).type = some ty → ty.unwrapArray = .struct elements →
      (∀ i < elements.length, (g'.getPartOpt v i).isSome) ∧
        ∀ i < elements.length, ∀ j < elements.length, i ≠ j →
          (g'.getPartOpt v i = g'.getPartOpt v j ↔ g.maxParts ≤ i ∧ g.maxParts ≤ j)
  derefs : ∀ u w n, u = parent ∨ New g g' u → g'.DerefPath u n w → (n : ℤ) ≤ max limit 0 + 1

section Tree

omit [DecidableEq Fn]

theorem Tree.eq_of_vertex_eq (h : Tree g root added x) {a b : Added} (ha : a ∈ added)
    (hb : b ∈ added) (heq : a.vertex = b.vertex) : a = b :=
  List.inj_on_of_nodup_map h.nodup ha hb heq

theorem Tree.new_iff (h : Tree g root added x) : New g x v ↔ ∃ a ∈ added, a.vertex = v := by
  unfold New
  rw [h.live_iff, List.mem_map]
  constructor
  · rintro ⟨hlive | hmem, hnew⟩
    · exact absurd hlive hnew
    · exact hmem
  · rintro ⟨a, ha, rfl⟩
    exact ⟨Or.inr ⟨a, ha, rfl⟩, h.fresh a ha⟩

theorem Tree.exists_inTree_iff (h : Tree g root added x) :
    (∃ n, InTree root added v n) ↔ v = root ∨ New g x v := by
  rw [h.new_iff]
  constructor
  · rintro ⟨_, ⟨rfl, -⟩ | ⟨a, ha, hv, -⟩⟩
    · exact Or.inl rfl
    · exact Or.inr ⟨a, ha, hv⟩
  · rintro (rfl | ⟨a, ha, hv⟩)
    · exact ⟨0, Or.inl ⟨rfl, rfl⟩⟩
    · exact ⟨a.derefs, Or.inr ⟨a, ha, hv, rfl⟩⟩

theorem Tree.inTree_unique (h : Tree g root added x) (hroot : g.Live root) {m : ℕ}
    (hn : InTree root added u n) (hm : InTree root added u m) : n = m := by
  rcases hn with ⟨rfl, rfl⟩ | ⟨a, ha, rfl, rfl⟩
  · rcases hm with ⟨-, rfl⟩ | ⟨b, hb, hbu, -⟩
    · rfl
    · exact absurd (hbu ▸ hroot) (h.fresh b hb)
  · rcases hm with ⟨hau, -⟩ | ⟨b, hb, hbu, rfl⟩
    · exact absurd (hau ▸ hroot) (h.fresh a ha)
    · rw [h.eq_of_vertex_eq ha hb hbu.symm]

theorem Tree.added_of_new (h : Tree g root added x) (hg : g.Wired) (hw : ¬ g.Live w)
    (he : x.HasEdge u p w) : ∃ a ∈ added, a.source = u ∧ a.label = p ∧ a.vertex = w :=
  ((h.hasEdge_iff u p w).mp he).resolve_left (hg.not_hasEdge_right hw)

theorem Tree.added_of_inTree (h : Tree g root added x) (hg : g.Wired)
    (hnone : ∀ p w, p.Structural → ¬ g.HasEdge root p w) (hu : InTree root added u n)
    (hp : p.Structural) (he : x.HasEdge u p w) :
    ∃ a ∈ added, a.source = u ∧ a.label = p ∧ a.vertex = w := by
  refine ((h.hasEdge_iff u p w).mp he).resolve_left ?_
  rcases hu with ⟨rfl, -⟩ | ⟨a, ha, rfl, -⟩
  · exact hnone p w hp
  · exact hg.not_hasEdge_left (h.fresh a ha)

/-- A path of the tree leads to a vertex with as many more pointers above it. -/
theorem Tree.inTree_of_derefPath (h : Tree g root added x) (hg : g.Wired) (hroot : g.Live root)
    (hnone : ∀ p w, p.Structural → ¬ g.HasEdge root p w) {m : ℕ} (hu : InTree root added u m)
    (hpath : x.DerefPath u n w) : InTree root added w (m + n) := by
  induction hpath with
  | refl => exact hu
  | tail _ hp he ih =>
    obtain ⟨a, ha, rfl, rfl, rfl⟩ := h.added_of_inTree hg hnone ih hp he
    obtain ⟨k, hk, hderefs⟩ := h.source a ha
    rw [h.inTree_unique hroot hk ih] at hderefs
    exact Or.inr ⟨a, ha, rfl, hderefs.trans (Nat.add_assoc ..)⟩

theorem Tree.transGen_below (h : Tree g root added x) (hg : g.Wired)
    (hnone : ∀ p w, p.Structural → ¬ g.HasEdge root p w) (hu : InTree root added u n)
    (hpath : Relation.TransGen x.PartOf u w) :
    Relation.TransGen (Below added) u w ∧ ∃ m, InTree root added w m := by
  have hstep : ∀ {u w n}, InTree root added u n → x.PartOf u w →
      Below added u w ∧ ∃ m, InTree root added w m := by
    rintro u w n hu ⟨p, hp, he⟩
    obtain ⟨a, ha, hsource, -, hvertex⟩ := h.added_of_inTree hg hnone hu hp he
    exact ⟨⟨a, ha, hsource, hvertex⟩, a.derefs, Or.inr ⟨a, ha, hvertex, rfl⟩⟩
  induction hpath with
  | single he => exact (hstep hu he).imp_left .single
  | tail _ he ih =>
    obtain ⟨hbelow, m, hm⟩ := ih
    exact (hstep hm he).imp_left hbelow.tail

theorem Tree.leftUnique_below (h : Tree g root added x) : Relator.LeftUnique (Below added) := by
  rintro u w u' ⟨a, ha, rfl, rfl⟩ ⟨b, hb, rfl, hvertex⟩
  rw [h.eq_of_vertex_eq hb ha hvertex]

theorem Tree.partOf_of_below (h : Tree g root added x) (hbelow : Below added u w) :
    x.PartOf u w := by
  obtain ⟨a, ha, rfl, rfl⟩ := hbelow
  exact ⟨a.label, h.structural a ha, (h.hasEdge_iff _ _ _).mpr (Or.inr ⟨a, ha, rfl, rfl, rfl⟩)⟩

theorem Tree.acyclic (h : Tree g root added x) (hg : g.Wired) (hroot : g.Live root)
    (hnone : ∀ p w, p.Structural → ¬ g.HasEdge root p w) (hu : InTree root added u n) :
    ¬ Relation.TransGen x.PartOf u u := by
  intro hcycle
  obtain ⟨hbelow, -⟩ := h.transGen_below hg hnone hu hcycle
  have hloop := transGen_root_of_leftUnique h.leftUnique_below (h.reach_of_inTree hu) hbelow
  obtain ⟨_, -, a, ha, -, heq⟩ := Relation.TransGen.tail'_iff.mp hloop
  exact h.fresh a ha (heq ▸ hroot)

/-- Different members have different vertices, except those that `getPartOpt` clamps. -/
theorem Tree.getPartOpt_fields (h : Tree g root added x) (hg : g.Wired)
    (hnone : ∀ p w, p.Structural → ¬ g.HasEdge root p w) {m : ℕ} (hv : InTree root added v m)
    (hparts : x.PartsOk v n) :
    (∀ i < n, (x.getPartOpt v i).isSome) ∧
      ∀ i < n, ∀ j < n, i ≠ j →
        (x.getPartOpt v i = x.getPartOpt v j ↔ g.maxParts ≤ i ∧ g.maxParts ≤ j) := by
  have hget : ∀ i < n, ∃ w, x.HasEdge v ⟨.part, min i x.maxParts⟩ w ∧
      x.getPartOpt v i = some w := by
    intro i hi
    obtain ⟨w, hw⟩ := (hparts.label_iff _).mpr ⟨i, hi, rfl⟩
    exact ⟨w, hw, hparts.getPartOpt_eq h.wired.mirrored hw⟩
  refine ⟨fun i hi ↦ ?_, fun i hi j hj hne ↦ ?_⟩
  · obtain ⟨w, -, hw⟩ := hget i hi
    rw [hw]
    rfl
  · obtain ⟨w, he, hw⟩ := hget i hi
    obtain ⟨w', he', hw'⟩ := hget j hj
    rw [hw, hw', Option.some.injEq, ← h.maxParts]
    constructor
    · rintro rfl
      obtain ⟨a, ha, -, hlabel, hvertex⟩ := h.added_of_inTree hg hnone hv (part_structural _) he
      obtain ⟨b, hb, -, hlabel', hvertex'⟩ := h.added_of_inTree hg hnone hv (part_structural _) he'
      rw [h.eq_of_vertex_eq ha hb (hvertex.trans hvertex'.symm), hlabel', PDGEdge.mk.injEq]
        at hlabel
      omega
    · rintro ⟨hle, hle'⟩
      rw [Nat.min_eq_right hle] at he
      rw [Nat.min_eq_right hle'] at he'
      exact hparts.unique _ w w' he he'

end Tree

theorem Built.typeTree {limit : ℤ} {ty : Ty} (h : Built g root (limit.toNat + 1) added x)
    (hty : (g.node root).type = some ty) (hfields : x.FieldsOk root ty) (hg : g.Wired)
    (hroot : g.Live root) (hnone : ∀ p w, p.Structural → ¬ g.HasEdge root p w) :
    TypeTree g x root limit := by
  have ht := h.grows.tree hg hroot
  constructor
  · refine (List.finite_toSet (added.map Added.vertex)).subset fun v hv ↦ ?_
    exact List.mem_map.mpr (ht.new_iff.mp hv)
  · intro v hv
    obtain ⟨a, ha, rfl⟩ := ht.new_iff.mp hv
    exact ht.function a ha
  · intro v hv
    obtain ⟨a, ha, rfl⟩ := ht.new_iff.mp hv
    refine ⟨(a.source, a.label), ⟨ht.structural a ha,
      (ht.hasEdge_iff _ _ _).mpr (Or.inr ⟨a, ha, rfl, rfl, rfl⟩)⟩, ?_⟩
    rintro ⟨u, p⟩ ⟨-, he⟩
    obtain ⟨b, hb, rfl, rfl, hvertex⟩ := ht.added_of_new hg (ht.fresh a ha) he
    rw [ht.eq_of_vertex_eq hb ha hvertex]
  · rintro u v hv ⟨p, -, he⟩
    obtain ⟨a, ha, rfl, -⟩ := ht.added_of_new hg hv.2 he
    obtain ⟨n, hn, -⟩ := ht.source a ha
    exact ht.exists_inTree_iff.mp ⟨n, hn⟩
  · intro v hv
    obtain ⟨a, ha, rfl⟩ := ht.new_iff.mp hv
    have hne : a.vertex ≠ root := fun heq ↦ ht.fresh a ha (heq ▸ hroot)
    have hpath := (Relation.reflTransGen_iff_eq_or_transGen.mp (ht.reach a ha)).resolve_left hne
    exact Relation.TransGen.mono (fun _ _ ↦ ht.partOf_of_below) _ _ hpath
  · intro v hv
    obtain ⟨n, hn⟩ := ht.exists_inTree_iff.mpr hv
    exact ht.acyclic hg hroot hnone hn
  · intro v ty' elements hv hty' hstruct
    obtain ⟨n, hn⟩ := ht.exists_inTree_iff.mpr (hv.imp_right And.left)
    refine ht.getPartOpt_fields hg hnone hn ?_
    rcases hv with rfl | ⟨hnew, u, i, he⟩
    · rw [ht.node_eq _ hroot, hty] at hty'
      exact hfields elements (Option.some.inj hty' ▸ hstruct)
    · obtain ⟨a, ha, -, hlabel, rfl⟩ := ht.added_of_new hg hnew.2 he
      exact h.fields a ha (congrArg PDGEdge.type hlabel) ty' hty' elements hstruct
  · intro u w n hu hpath
    obtain ⟨m, hm⟩ := ht.exists_inTree_iff.mpr hu
    have hle : m + n ≤ limit.toNat + 1 := by
      rcases ht.inTree_of_derefPath hg hroot hnone hm hpath with ⟨-, hzero⟩ | ⟨a, ha, -, heq⟩
      · exact hzero ▸ Nat.zero_le _
      · exact heq ▸ h.derefs a ha
    omega

/-- **`createSubnodes` ends and builds the type tree of a vertex that has no parts yet, for every
number of parts, exactly if the limit stays an `int` on the way down.** -/
theorem typeTree_iff_limitFits (llvm : Llvm Val Fn) (g : PDG Val Fn) (parent : ℕ) (ty : Ty)
    (limit : ℤ) (hg : g.Wired) (hlive : g.Live parent) (hty : (g.node parent).type = some ty)
    (hnone : ∀ p w, p.Structural → ¬ g.HasEdge parent p w) :
    (∃ g', g.createSubnodesInt llvm parent limit = some g' ∧ TypeTree g g' parent limit) ↔
      LimitFits llvm.pointee g.maxParts ty limit := by
  have hbuilt := createSubnodesOf_built llvm g parent ty limit hg hlive hnone
  unfold createSubnodesInt
  rw [hty]
  dsimp only
  cases hx : createSubnodesOf llvm g parent ty limit with
  | none =>
    rw [hx] at hbuilt
    exact ⟨fun ⟨_, hsome, _⟩ ↦ absurd hsome (Option.some_ne_none _).symm, fun h ↦ absurd h hbuilt⟩
  | some x =>
    rw [hx] at hbuilt
    obtain ⟨hfits, ⟨added, hadded⟩, hfields⟩ := hbuilt
    exact ⟨fun _ ↦ hfits, fun _ ↦ ⟨x, rfl, hadded.typeTree hty hfields hg hlive hnone⟩⟩

/-- A list node: a value, and a pointer to the next node. -/
def listNode : Ty := .struct [.other, .pointer 0]

/-- All pointers point to list nodes. -/
def listTypes : Llvm Unit Unit := ⟨fun _ ↦ none, fun _ ↦ none, fun _ ↦ false, fun _ ↦ listNode,
  fun _ ↦ listNode⟩

/-- A graph with one list node. -/
def oneListNode : PDG Unit Unit :=
  ((init 8 3).pdgAddVertex { function := some (), type := some listNode }).2

theorem oneListNode_plain : oneListNode.Wired ∧ oneListNode.Live 0 ∧
    ∀ p w, p.Structural → ¬ oneListNode.HasEdge 0 p w :=
  ⟨(wired_init 8 3).pdgAddVertex _, by decide, fun _ _ _ he ↦
    not_hasEdge_init 8 3 ((wired_init 8 3).hasEdge_pdgAddVertex.mp he)⟩

theorem limitFits_listNode (limit : ℤ) :
    LimitFits listTypes.pointee 8 listNode limit ↔ -2 ^ 31 < limit := by
  induction h : limit.toNat using Nat.strong_induction_on generalizing limit with
  | _ n ih =>
    have hnext : LimitFits listTypes.pointee 8 (.pointer 0) (limit - 1) :=
      (limitFits_pointer rfl).mpr fun hpos ↦ (ih _ (by omega) _ rfl).mpr (by omega)
    have hother : LimitFits listTypes.pointee 8 .other (limit - 1) := limitFits_other nofun nofun
    rw [limitFits_struct rfl, PartsFit, PartsFit, PartsFit]
    constructor
    · rintro ⟨hle, -⟩
      have := hle (by decide)
      omega
    · intro hlt
      exact ⟨fun _ ↦ ⟨by omega, hother⟩, fun _ ↦ ⟨by omega, hnext⟩, trivial⟩

theorem typeTree_oneListNode : ∃ g', oneListNode.createSubnodesInt listTypes 0 3 = some g' ∧
    TypeTree oneListNode g' 0 3 :=
  let ⟨hwired, hlive, hnone⟩ := oneListNode_plain
  (typeTree_iff_limitFits listTypes oneListNode 0 listNode 3 hwired hlive rfl hnone).mpr
    ((limitFits_listNode 3).mpr (by decide))

/-- The smallest `int` has no predecessor. -/
theorem not_typeTree_intMin : oneListNode.Wired ∧ oneListNode.Live 0 ∧
    (∀ p w, p.Structural → ¬ oneListNode.HasEdge 0 p w) ∧
    ¬ ∃ g', oneListNode.createSubnodesInt listTypes 0 (-2 ^ 31) = some g' ∧
      TypeTree oneListNode g' 0 (-2 ^ 31) := by
  obtain ⟨hwired, hlive, hnone⟩ := oneListNode_plain
  refine ⟨hwired, hlive, hnone, fun ⟨g', hsome, _⟩ ↦ ?_⟩
  have hbuilt := createSubnodesOf_built listTypes oneListNode 0 listNode (-2 ^ 31) hwired hlive
    hnone
  rw [show createSubnodesOf listTypes oneListNode 0 listNode (-2 ^ 31) = some g' from hsome]
    at hbuilt
  exact absurd ((limitFits_listNode _).mp hbuilt.1) (by decide)

end PDG

end Cali.Passes
