import Mathlib.Data.List.DropRight
import Mathlib.Data.List.Sort
import Cali.Lib.Loop
import Cali.Passes.PDG

/-!
# Clusters of struct types

`DataDrivenSCCPass::analyzeStructs` puts the struct types of a module into clusters, so that the
copies of a type that came from different files count as one.  A struct is first put into the
cluster of its name, without the number that was appended to it.  Then the clusters are gone through
once: the structs that are not equal to the first struct of their cluster are put into a new cluster
at the end.

The comparison of two structs uses the clusters of their fields, as they are at that time.  The loop
ends, and what remains in a cluster is equal to its first struct as far as the names of the fields
tell.  It may not be equal with the clusters of the result, because fields of the same name can be
separated later.  In which order the clusters and their structs are looked at depends on the list
of the types and on their addresses.  No order goes wrong if structs that are equal by the names
of their fields have fields that are equal, by the names of theirs, to the same structs; and if
this kind of equality is transitive, which it is up to pointers to empty types, then only if.
-/

namespace Cali.Passes.StructClusters

open Cali.Lib

/-- The types of the elements of a struct, up to identity.  A struct type is given by a number. -/
inductive ElementType where
  | pointer (pointee : ElementType)
  | struct (st : ℕ)
  | other (id : ℕ)
deriving DecidableEq, Repr

/-- What LLVM knows about struct types.  The sets of structs are ordered by their addresses. -/
structure StructTypes where
  getStructName : ℕ → List Char
  elements : ℕ → List ElementType
  isEmptyTy : ElementType → Bool
  address : ℕ → ℕ
  address_injective : Function.Injective address

/-- `std::map<const StructType *, int>` -/
abbrev ClusterMap := ℕ → Option ℕ

/-- Both structs are found, and in the same cluster. -/
def SameCluster (equality : ClusterMap) (st1 st2 : ℕ) : Prop :=
  ∃ c, equality st1 = some c ∧ equality st2 = some c

/-- The comparison of two types by the clusters, if both are structs. -/
def structsEqual (equality : ClusterMap) : ElementType → ElementType → Bool
  | .struct st1, .struct st2 => (equality st1).isSome && equality st1 == equality st2
  | _, _ => false

/-- The comparison of two elements. -/
def elementsEqual (types : StructTypes) (equality : ClusterMap) (t1 t2 : ElementType) : Bool :=
  t1 == t2 ||
    match t1, t2 with
    | .pointer p1, .pointer p2 =>
      types.isEmptyTy p1 || types.isEmptyTy p2 || structsEqual equality p1 p2
    | t1, t2 => structsEqual equality t1 t2

/-- `struct_deep_equal` -/
def structDeepEqual (types : StructTypes) (st1 st2 : ℕ) (equality : ClusterMap) : Bool :=
  (types.elements st1).length == (types.elements st2).length &&
    ((types.elements st1).zip (types.elements st2)).all fun t ↦ elementsEqual types equality t.1 t.2

/-- The name without the dots and digits at its end. -/
def StructTypes.baseName (types : StructTypes) (st : ℕ) : List Char :=
  (types.getStructName st).rdropWhile (· ∈ ".0123456789".toList)

/-- The variables of the first loop. -/
structure Naming where
  nameToCluster : List Char → Option ℕ
  clusters : List (Finset ℕ)
  structClusters : ClusterMap

/-- One turn of the first loop. -/
def addStruct (types : StructTypes) (s : Naming) (st : ℕ) : Naming :=
  match s.nameToCluster (types.baseName st) with
  | some c =>
    { s with
      structClusters := Function.update s.structClusters st (some c)
      clusters := s.clusters.modify c (insert st) }
  | none =>
    { nameToCluster :=
        Function.update s.nameToCluster (types.baseName st) (some s.clusters.length)
      structClusters := Function.update s.structClusters st (some s.clusters.length)
      clusters := s.clusters ++ [{st}] }

/-- The first loop. -/
def nameClusters (types : StructTypes) (structTypes : List ℕ) : Naming :=
  structTypes.foldl (addStruct types) ⟨fun _ ↦ none, [], fun _ ↦ none⟩

/-- The variables of the loop over one cluster. -/
structure Comparison where
  newClusterIndex : ℕ
  ref : Option ℕ
  clusters : List (Finset ℕ)

/-- One turn of the loop over a cluster. -/
def compareNext (types : StructTypes) (equality : ClusterMap) (s : Comparison) (st : ℕ) :
    Comparison :=
  match s.ref with
  | none => { s with ref := some st }
  | some ref =>
    if structDeepEqual types st ref equality then s
    else
      let s := if s.newClusterIndex = 0 then
        { s with clusters := s.clusters ++ [∅], newClusterIndex := s.clusters.length } else s
      { s with clusters := s.clusters.modify s.newClusterIndex (insert st) }

/-- The order in which a set of structs is gone through. -/
def StructTypes.inOrder (types : StructTypes) (cluster : Finset ℕ) : List ℕ :=
  (ascending cluster).insertionSort (Order.Preimage types.address (· ≤ ·))

/-- The variables of the second loop. -/
structure Filtering where
  i : ℕ
  clusters : List (Finset ℕ)
  structClusters : ClusterMap

/-- One turn of the second loop; there is none if the index is the number of clusters. -/
def filterNext (types : StructTypes) (s : Filtering) : Option Filtering :=
  match s.clusters[s.i]? with
  | none => none
  | some cluster =>
    let r := (types.inOrder cluster).foldl (compareNext types s.structClusters)
      ⟨0, none, s.clusters⟩
    some
      { i := s.i + 1
        clusters := r.clusters
        structClusters :=
          if r.newClusterIndex = 0 then s.structClusters
          else (types.inOrder (r.clusters.getD r.newClusterIndex ∅)).foldl
            (fun structClusters st ↦ Function.update structClusters st (some r.newClusterIndex))
            s.structClusters }

/-- The second loop begins with the clusters of the names. -/
def filterInit (types : StructTypes) (structTypes : List ℕ) : Filtering :=
  ⟨0, (nameClusters types structTypes).clusters, (nameClusters types structTypes).structClusters⟩

/-- `analyzeStructs`; `none` means that the rounds were not enough for the second loop. -/
def analyzeStructs (types : StructTypes) (structTypes : List ℕ) (rounds : ℕ) : Option ClusterMap :=
  (iterate (filterNext types) rounds (filterInit types structTypes)).map Filtering.structClusters

/-! ## Consistent clusters -/

/-- `r` is the first struct of the cluster `c`, in the order of the sets. -/
def IsFirst (types : StructTypes) (equality : ClusterMap) (c r : ℕ) : Prop :=
  equality r = some c ∧ ∀ st, equality st = some c → types.address r ≤ types.address st

/-- The structs of a cluster are equal to its first struct. -/
def Consistent (types : StructTypes) (equality : ClusterMap) : Prop :=
  ∀ c r, IsFirst types equality c r → ∀ st, equality st = some c →
    st = r ∨ structDeepEqual types st r equality = true

/-- The elements are compared by the clusters of `s` and `t`. -/
def ComparedByCluster (types : StructTypes) (t1 t2 : ElementType) (s t : ℕ) : Prop :=
  t1 = .struct s ∧ t2 = .struct t ∨
    t1 = .pointer (.struct s) ∧ t2 = .pointer (.struct t) ∧
      types.isEmptyTy (.struct s) = false ∧ types.isEmptyTy (.struct t) = false

/-- The names put `s` and `t` into one cluster. -/
def SameName (types : StructTypes) (structTypes : List ℕ) (s t : ℕ) : Prop :=
  s ∈ structTypes ∧ t ∈ structTypes ∧ types.baseName s = types.baseName t

/-- The elements are equal if the structs that `same` relates are. -/
def ElementsAgree (types : StructTypes) (same : ℕ → ℕ → Prop) (t1 t2 : ElementType) : Prop :=
  t1 = t2 ∨
    (∃ p1 p2, t1 = .pointer p1 ∧ t2 = .pointer p2 ∧
      (types.isEmptyTy p1 = true ∨ types.isEmptyTy p2 = true)) ∨
    ∃ s t, ComparedByCluster types t1 t2 s t ∧ same s t

def StructsAgree (types : StructTypes) (same : ℕ → ℕ → Prop) (st1 st2 : ℕ) : Prop :=
  (types.elements st1).length = (types.elements st2).length ∧
    ∀ e ∈ (types.elements st1).zip (types.elements st2), ElementsAgree types same e.1 e.2

/-- Two structs with one name are equal as far as the names of their fields tell. -/
def EqualByName (types : StructTypes) (structTypes : List ℕ) (s t : ℕ) : Prop :=
  SameName types structTypes s t ∧ StructsAgree types (SameName types structTypes) s t

/-- **Equality by name is hereditary**: the fields of equal structs that have the same name are
equal to the same structs. -/
def Hereditary (types : StructTypes) (structTypes : List ℕ) : Prop :=
  ∀ st1 st2, EqualByName types structTypes st1 st2 →
    ∀ e ∈ (types.elements st1).zip (types.elements st2), ∀ s t,
      ComparedByCluster types e.1 e.2 s t → SameName types structTypes s t →
        ∀ u, EqualByName types structTypes u s ↔ EqualByName types structTypes u t

/-- The types at other addresses. -/
def StructTypes.placedAt (types : StructTypes) (address : ℕ → ℕ)
    (h : Function.Injective address) : StructTypes :=
  { types with address, address_injective := h }

/-- The clusters are consistent, in whatever order the structs are listed and wherever they are. -/
def AlwaysConsistent (types : StructTypes) (structTypes : List ℕ) : Prop :=
  ∀ (address : ℕ → ℕ) (h : Function.Injective address) (order : List ℕ), order.Perm structTypes →
    ∀ rounds, structTypes.length < rounds →
      ∃ structClusters, analyzeStructs (types.placedAt address h) order rounds =
          some structClusters ∧
        Consistent (types.placedAt address h) structClusters

variable {types : StructTypes} {structTypes : List ℕ} {equality : ClusterMap}
variable {t1 t2 : ElementType} {st1 st2 s t st r c : ℕ} {same same' : ℕ → ℕ → Prop}

/-! ## Comparing two structs -/

section Compare

theorem structsEqual_iff : structsEqual equality t1 t2 = true ↔
    ∃ s t, t1 = .struct s ∧ t2 = .struct t ∧ SameCluster equality s t := by
  constructor
  · intro h
    unfold structsEqual at h
    split at h
    next s t =>
      obtain ⟨hsome, heq⟩ := (Bool.and_eq_true _ _).mp h
      obtain ⟨c, hc⟩ := Option.isSome_iff_exists.mp hsome
      exact ⟨s, t, rfl, rfl, c, hc, (eq_of_beq heq).symm.trans hc⟩
    next => cases h
  · rintro ⟨s, t, rfl, rfl, c, hs, ht⟩
    simp [structsEqual, hs, ht]

theorem elementsEqual_iff : elementsEqual types equality t1 t2 = true ↔
    ElementsAgree types (SameCluster equality) t1 t2 := by
  unfold elementsEqual
  rw [Bool.or_eq_true, beq_iff_eq]
  refine or_congr_right ?_
  split
  next p1 p2 =>
    rw [Bool.or_eq_true, Bool.or_eq_true, structsEqual_iff]
    constructor
    · intro h
      by_cases hempty : types.isEmptyTy p1 = true ∨ types.isEmptyTy p2 = true
      · exact Or.inl ⟨p1, p2, rfl, rfl, hempty⟩
      · obtain ⟨s, t, rfl, rfl, hsame⟩ := h.resolve_left hempty
        rw [not_or, Bool.not_eq_true, Bool.not_eq_true] at hempty
        exact Or.inr ⟨s, t, Or.inr ⟨rfl, rfl, hempty⟩, hsame⟩
    · rintro (⟨q1, q2, h1, h2, hempty⟩ | ⟨s, t, ⟨h1, -⟩ | ⟨h1, h2, -⟩, hsame⟩)
      · cases h1
        cases h2
        exact Or.inl hempty
      · cases h1
      · cases h1
        cases h2
        exact Or.inr ⟨s, t, rfl, rfl, hsame⟩
  next hpointer =>
    rw [structsEqual_iff]
    constructor
    · rintro ⟨s, t, rfl, rfl, hsame⟩
      exact Or.inr ⟨s, t, Or.inl ⟨rfl, rfl⟩, hsame⟩
    · rintro (⟨q1, q2, h1, h2, -⟩ | ⟨s, t, ⟨h1, h2⟩ | ⟨h1, h2, -⟩, hsame⟩)
      · exact absurd h2 (hpointer q1 q2 h1)
      · exact ⟨s, t, h1, h2, hsame⟩
      · exact absurd h2 (hpointer _ _ h1)

theorem structDeepEqual_iff : structDeepEqual types st1 st2 equality = true ↔
    StructsAgree types (SameCluster equality) st1 st2 := by
  unfold structDeepEqual StructsAgree
  rw [Bool.and_eq_true, beq_iff_eq, List.all_eq_true]
  simp only [elementsEqual_iff]

theorem eq_of_mem_zip_self {α : Type} {l : List α} {e : α × α} (h : e ∈ l.zip l) :
    e.1 = e.2 := by
  rw [List.zip_eq_zipWith, List.zipWith_self, List.mem_map] at h
  obtain ⟨a, -, rfl⟩ := h
  rfl

theorem StructsAgree.refl (st : ℕ) : StructsAgree types same st st :=
  ⟨rfl, fun _ he ↦ Or.inl (eq_of_mem_zip_self he)⟩

theorem structDeepEqual_self : structDeepEqual types st st equality = true :=
  structDeepEqual_iff.mpr (.refl st)

theorem ComparedByCluster.symm (h : ComparedByCluster types t1 t2 s t) :
    ComparedByCluster types t2 t1 t s := by
  rcases h with ⟨h1, h2⟩ | ⟨h1, h2, hs, ht⟩
  · exact Or.inl ⟨h2, h1⟩
  · exact Or.inr ⟨h2, h1, ht, hs⟩

theorem mem_zip_swap {α : Type} {l l' : List α} {e : α × α} (h : e ∈ l.zip l') :
    e.swap ∈ l'.zip l := by
  rw [← List.zip_swap]
  exact List.mem_map_of_mem h

theorem StructsAgree.symm (hsymm : ∀ s t, same s t → same t s)
    (h : StructsAgree types same st1 st2) : StructsAgree types same st2 st1 := by
  refine ⟨h.1.symm, fun e he ↦ ?_⟩
  rcases h.2 e.swap (mem_zip_swap he) with heq | ⟨p1, p2, h1, h2, hempty⟩ | ⟨s, t, hst, hsame⟩
  · exact Or.inl heq.symm
  · exact Or.inr (Or.inl ⟨p2, p1, h2, h1, hempty.symm⟩)
  · exact Or.inr (Or.inr ⟨t, s, hst.symm, hsymm s t hsame⟩)

theorem StructsAgree.mono
    (hsame : ∀ e ∈ (types.elements st1).zip (types.elements st2), ∀ s t,
      ComparedByCluster types e.1 e.2 s t → same s t → same' s t)
    (h : StructsAgree types same st1 st2) : StructsAgree types same' st1 st2 := by
  refine ⟨h.1, fun e he ↦ (h.2 e he).imp_right (Or.imp_right ?_)⟩
  rintro ⟨s, t, hcompared, hst⟩
  exact ⟨s, t, hcompared, hsame e he s t hcompared hst⟩

theorem ElementsAgree.eq_or_same (h : ElementsAgree types same t1 t2)
    (hcompared : ComparedByCluster types t1 t2 s t) : s = t ∨ same s t := by
  rcases h with rfl | ⟨p1, p2, rfl, rfl, hempty⟩ | ⟨s', t', hcompared', hsame⟩
  · rcases hcompared with ⟨rfl, h2⟩ | ⟨rfl, h2, -⟩
    · cases h2
      exact Or.inl rfl
    · cases h2
      exact Or.inl rfl
  · rcases hcompared with ⟨h1, -⟩ | ⟨h1, h2, hs, ht⟩
    · cases h1
    · cases h1
      cases h2
      rw [hs, ht] at hempty
      simp at hempty
  · right
    rcases hcompared with ⟨rfl, rfl⟩ | ⟨rfl, rfl, -⟩ <;>
      rcases hcompared' with ⟨h1, h2⟩ | ⟨h1, h2, -⟩ <;> cases h1 <;> cases h2 <;> exact hsame

theorem SameName.symm (h : SameName types structTypes s t) : SameName types structTypes t s :=
  ⟨h.2.1, h.1, h.2.2.symm⟩

theorem SameName.equalByName (h : SameName types structTypes s s) :
    EqualByName types structTypes s s :=
  ⟨h, .refl s⟩

theorem equalByName_perm (types : StructTypes) {order : List ℕ} (h : order.Perm structTypes) :
    SameName types order = SameName types structTypes ∧
      EqualByName types order = EqualByName types structTypes := by
  have hname : SameName types order = SameName types structTypes := by
    funext s t
    simp only [SameName, h.mem_iff]
  refine ⟨hname, ?_⟩
  unfold EqualByName
  rw [hname]

theorem EqualByName.symm (h : EqualByName types structTypes s t) :
    EqualByName types structTypes t s :=
  ⟨h.1.symm, h.2.symm fun _ _ ↦ SameName.symm⟩

end Compare

/-! ## The sets and the map

Both loops write each struct twice: into the set of its cluster and into the map. The first keeps
the two the same; the second leaves the structs that it moves in their old set, so there only the
sets that it will still come to are those of the map. -/

section Lists

variable {clusters : List (Finset ℕ)} {structClusters : ClusterMap} {moved : Finset ℕ} {i i' : ℕ}

/-- The sets from the index `i` on are the clusters of the map. -/
structure Lists (i : ℕ) (clusters : List (Finset ℕ)) (structClusters : ClusterMap) : Prop where
  nonempty : ∀ (j : ℕ) (cluster : Finset ℕ), clusters[j]? = some cluster → cluster.Nonempty
  mem_iff : ∀ (j : ℕ) (cluster : Finset ℕ), i ≤ j → clusters[j]? = some cluster →
    ∀ st, st ∈ cluster ↔ structClusters st = some j
  lt_length : ∀ st c, structClusters st = some c → c < clusters.length

theorem Lists.mono (h : Lists i clusters structClusters) (hle : i ≤ i') :
    Lists i' clusters structClusters :=
  ⟨h.nonempty, fun j cluster hj ↦ h.mem_iff j cluster (hle.trans hj), h.lt_length⟩

/-- A struct that is in no other cluster is put into the cluster `c`. -/
theorem Lists.insertStruct (h : Lists i clusters structClusters) (hc : c < clusters.length)
    (hst : ∀ c', structClusters st = some c' → c' = c) :
    Lists i (clusters.modify c (insert st)) (Function.update structClusters st (some c)) := by
  have hget : ∀ {j : ℕ} {cluster : Finset ℕ}, (clusters.modify c (insert st))[j]? = some cluster →
      ∃ old, clusters[j]? = some old ∧ cluster = if c = j then insert st old else old := by
    intro j cluster hj
    rw [List.getElem?_modify] at hj
    obtain ⟨old, hold, rfl⟩ := Option.map_eq_some_iff.mp hj
    exact ⟨old, hold, rfl⟩
  constructor
  case nonempty =>
    intro j cluster hj
    obtain ⟨old, hold, rfl⟩ := hget hj
    split
    · exact Finset.insert_nonempty ..
    · exact h.nonempty j old hold
  case mem_iff =>
    intro j cluster hle hj st'
    obtain ⟨old, hold, rfl⟩ := hget hj
    have hmem := h.mem_iff j old hle hold st'
    rw [Function.update_apply]
    by_cases hcj : c = j
    · by_cases heq : st' = st
      · simp [hcj, heq]
      · simp [hcj, heq, hmem]
    · by_cases heq : st' = st
      · subst heq
        have hother : structClusters st' ≠ some j := fun hj ↦ hcj (hst j hj).symm
        simp [hcj, hmem, hother]
      · simp [hcj, heq, hmem]
  case lt_length =>
    intro st' c' hst'
    rw [List.length_modify]
    rw [Function.update_apply] at hst'
    split at hst'
    · exact Option.some.inj hst' ▸ hc
    · exact h.lt_length st' c' hst'

theorem eq_some_or_of_concat {α : Type} {l : List α} {a b : α} {j : ℕ}
    (h : (l ++ [a])[j]? = some b) : j < l.length ∧ l[j]? = some b ∨ j = l.length ∧ b = a := by
  rcases Nat.lt_trichotomy j l.length with hlt | rfl | hgt
  · rw [List.getElem?_append_left hlt] at h
    exact Or.inl ⟨hlt, h⟩
  · rw [List.getElem?_concat_length] at h
    exact Or.inr ⟨rfl, (Option.some.inj h).symm⟩
  · rw [List.getElem?_eq_none (by rw [List.length_append]; exact hgt)] at h
    cases h

/-- Structs that are in no cluster from `i'` on are put into a new cluster at the end. -/
theorem Lists.concat (h : Lists i clusters structClusters) (hle : i ≤ i')
    (hmoved : moved.Nonempty)
    (hold : ∀ st ∈ moved, ∀ c, structClusters st = some c → c < i') :
    Lists i' (clusters ++ [moved])
      fun st ↦ if st ∈ moved then some clusters.length else structClusters st := by
  constructor
  case nonempty =>
    intro j cluster hj
    rcases eq_some_or_of_concat hj with ⟨-, hj⟩ | ⟨-, rfl⟩
    · exact h.nonempty j cluster hj
    · exact hmoved
  case mem_iff =>
    intro j cluster hj hcluster st
    rcases eq_some_or_of_concat hcluster with ⟨hlt, hcluster⟩ | ⟨rfl, rfl⟩
    · rw [h.mem_iff j cluster (hle.trans hj) hcluster]
      split
      next hst =>
        refine iff_of_false (fun hc ↦ Nat.not_lt.mpr hj (hold st hst j hc)) fun heq ↦ ?_
        exact Nat.ne_of_gt hlt (Option.some.inj heq)
      next => rfl
    · split
      next hst => exact iff_of_true hst rfl
      next hst => exact iff_of_false hst fun hc ↦ Nat.lt_irrefl _ (h.lt_length st _ hc)
  case lt_length =>
    intro st c hc
    rw [List.length_append]
    split at hc
    · exact Option.some.inj hc ▸ Nat.lt_succ_self _
    · exact Nat.lt_succ_of_lt (h.lt_length st c hc)

end Lists

/-! ## The clusters of the names -/

section Naming

/-- The names have numbers below `n`, and each has its own. -/
structure Distinct (n : ℕ) (nameToCluster : List Char → Option ℕ) : Prop where
  lt : ∀ name c, nameToCluster name = some c → c < n
  inj : ∀ name name' c, nameToCluster name = some c → nameToCluster name' = some c → name = name'

theorem Distinct.update {n : ℕ} {nameToCluster : List Char → Option ℕ} {name : List Char}
    (h : Distinct n nameToCluster) :
    Distinct (n + 1) (Function.update nameToCluster name (some n)) := by
  have hcases : ∀ {name' c}, Function.update nameToCluster name (some n) name' = some c →
      name' = name ∧ c = n ∨ nameToCluster name' = some c ∧ c < n := by
    intro name' c hc
    rw [Function.update_apply] at hc
    split at hc
    next heq => exact Or.inl ⟨heq, (Option.some.inj hc).symm⟩
    next => exact Or.inr ⟨hc, h.lt name' c hc⟩
  constructor
  case lt =>
    intro name' c hc
    rcases hcases hc with ⟨-, rfl⟩ | ⟨-, hlt⟩
    · exact Nat.lt_succ_self c
    · exact Nat.lt_succ_of_lt hlt
  case inj =>
    intro name₁ name₂ c h₁ h₂
    rcases hcases h₁ with ⟨rfl, rfl⟩ | ⟨h₁, hlt₁⟩
    · rcases hcases h₂ with ⟨rfl, -⟩ | ⟨-, hlt₂⟩
      · rfl
      · exact absurd hlt₂ (Nat.lt_irrefl c)
    · rcases hcases h₂ with ⟨-, rfl⟩ | ⟨h₂, -⟩
      · exact absurd hlt₁ (Nat.lt_irrefl c)
      · exact h.inj name₁ name₂ c h₁ h₂

/-- What the first loop knows about the structs that it has seen. -/
structure Named (types : StructTypes) (structTypes : List ℕ) (s : Naming) : Prop where
  lists : Lists 0 s.clusters s.structClusters
  distinct : Distinct s.clusters.length s.nameToCluster
  exists_iff : ∀ st, (∃ c, s.structClusters st = some c) ↔ st ∈ structTypes
  named : ∀ st c, s.structClusters st = some c → s.nameToCluster (types.baseName st) = some c

variable {x : Naming}

theorem exists_update_iff (h : ∀ st', (∃ c, equality st' = some c) ↔ st' ∈ structTypes) (st' : ℕ) :
    (∃ c', Function.update equality st (some c) st' = some c') ↔ st' ∈ structTypes ++ [st] := by
  rw [List.mem_append, List.mem_singleton, ← h, Function.update_apply]
  split
  next heq => exact iff_of_true ⟨c, rfl⟩ (Or.inr heq)
  next hne => rw [or_iff_left hne]

theorem Named.insertStruct (h : Named types structTypes x)
    (hc : x.nameToCluster (types.baseName st) = some c) :
    Named types (structTypes ++ [st])
      { x with
        structClusters := Function.update x.structClusters st (some c)
        clusters := x.clusters.modify c (insert st) } where
  lists := by
    refine h.lists.insertStruct (h.distinct.lt _ c hc) fun c' hc' ↦ ?_
    exact Option.some.inj ((h.named st c' hc').symm.trans hc)
  distinct := by
    rw [List.length_modify]
    exact h.distinct
  exists_iff := exists_update_iff h.exists_iff
  named st' c' hst' := by
    dsimp only at hst' ⊢
    rw [Function.update_apply] at hst'
    split at hst'
    next heq => rw [heq, hc, hst']
    next => exact h.named st' c' hst'

theorem Named.appendCluster (h : Named types structTypes x)
    (hnone : x.nameToCluster (types.baseName st) = none) :
    Named types (structTypes ++ [st])
      { nameToCluster :=
          Function.update x.nameToCluster (types.baseName st) (some x.clusters.length)
        structClusters := Function.update x.structClusters st (some x.clusters.length)
        clusters := x.clusters ++ [{st}] } where
  lists := by
    have hold : ∀ st' ∈ ({st} : Finset ℕ), ∀ c, x.structClusters st' = some c → c < 0 := by
      intro st' hst' c hc
      obtain rfl := Finset.mem_singleton.mp hst'
      exact absurd ((h.named st' c hc).symm.trans hnone) (Option.some_ne_none c)
    have hlists := h.lists.concat (Nat.le_refl 0) (Finset.singleton_nonempty st) hold
    have hmap : (fun st' ↦ if st' ∈ ({st} : Finset ℕ) then some x.clusters.length
        else x.structClusters st') =
          Function.update x.structClusters st (some x.clusters.length) := by
      funext st'
      simp only [Finset.mem_singleton, Function.update_apply]
    rwa [hmap] at hlists
  distinct := by
    rw [List.length_append]
    exact h.distinct.update
  exists_iff := exists_update_iff h.exists_iff
  named st' c hst' := by
    dsimp only at hst' ⊢
    rw [Function.update_apply] at hst' ⊢
    split at hst'
    next heq => rw [heq, if_pos rfl, hst']
    next =>
      have hname := h.named st' c hst'
      rw [if_neg, hname]
      intro heq
      rw [heq, hnone] at hname
      cases hname

theorem Named.addStruct (h : Named types structTypes x) :
    Named types (structTypes ++ [st]) (addStruct types x st) := by
  unfold StructClusters.addStruct
  split
  next c hc => exact h.insertStruct hc
  next hnone => exact h.appendCluster hnone

theorem named_nameClusters (types : StructTypes) (structTypes : List ℕ) :
    Named types structTypes (nameClusters types structTypes) := by
  induction structTypes using List.reverseRecOn with
  | nil =>
    exact ⟨⟨nofun, nofun, nofun⟩, ⟨nofun, nofun⟩,
      fun _ ↦ iff_of_false nofun List.not_mem_nil, nofun⟩
  | append_singleton structTypes st ih =>
    unfold nameClusters
    rw [List.foldl_concat]
    exact ih.addStruct

theorem Named.sameCluster_iff (h : Named types structTypes x) :
    SameCluster x.structClusters s t ↔ SameName types structTypes s t := by
  unfold SameName
  rw [← h.exists_iff, ← h.exists_iff]
  constructor
  · rintro ⟨c, hs, ht⟩
    exact ⟨⟨c, hs⟩, ⟨c, ht⟩, h.distinct.inj _ _ c (h.named s c hs) (h.named t c ht)⟩
  · rintro ⟨⟨c, hs⟩, ⟨c', ht⟩, hname⟩
    have hc := h.named s c hs
    rw [hname, h.named t c' ht] at hc
    exact ⟨c, hs, ht.trans hc⟩

theorem equalByName_iff : EqualByName types structTypes s t ↔ SameName types structTypes s t ∧
    structDeepEqual types s t (nameClusters types structTypes).structClusters = true := by
  have hsame : SameCluster (nameClusters types structTypes).structClusters =
      SameName types structTypes := by
    funext s t
    exact propext (named_nameClusters types structTypes).sameCluster_iff
  rw [structDeepEqual_iff, hsame]
  rfl

instance : Decidable (EqualByName types structTypes s t) :=
  haveI : Decidable (SameName types structTypes s t) := instDecidableAnd
  decidable_of_iff' _ equalByName_iff

theorem Named.map_addStruct (h : Named types structTypes x) (hs : x.structClusters s = some c) :
    (StructClusters.addStruct types x st).structClusters s = some c := by
  have hname := h.named s c hs
  unfold StructClusters.addStruct
  split
  next c' hc' =>
    dsimp only
    rw [Function.update_apply]
    split
    next heq => rw [← hc', ← heq, hname]
    next => exact hs
  next hnone =>
    dsimp only
    rw [Function.update_of_ne, hs]
    rintro rfl
    rw [hnone] at hname
    cases hname

theorem nameClusters_cons (types : StructTypes) (s : ℕ) (l : List ℕ) :
    (nameClusters types (s :: l)).structClusters s = some 0 := by
  induction l using List.reverseRecOn with
  | nil => exact Function.update_self ..
  | append_singleton l st ih =>
    rw [← List.cons_append]
    unfold nameClusters
    rw [List.foldl_concat]
    exact (named_nameClusters types (s :: l)).map_addStruct ih

end Naming

/-! ## The structs that are moved -/

section Moved

variable {clusters : List (Finset ℕ)} {cluster moved : Finset ℕ} {ref n : ℕ}

/-- The structs that are not equal to the first one. -/
def movedFrom (types : StructTypes) (equality : ClusterMap) (cluster : Finset ℕ) (ref : ℕ) :
    Finset ℕ :=
  cluster.filter fun st ↦ structDeepEqual types st ref equality = false

/-- The variables of the loop over a cluster that has moved some structs so far. -/
def splitOff (clusters : List (Finset ℕ)) (ref : ℕ) (moved : Finset ℕ) : Comparison :=
  if moved = ∅ then ⟨0, some ref, clusters⟩ else ⟨clusters.length, some ref, clusters ++ [moved]⟩

theorem modify_concat_length {α : Type} (l : List α) (a : α) (f : α → α) :
    (l ++ [a]).modify l.length f = l ++ [f a] := by
  induction l with
  | nil => rfl
  | cons b l ih => rw [List.cons_append, List.length_cons, List.modify_succ_cons, ih,
      List.cons_append]

theorem compareNext_splitOff (hpos : 0 < clusters.length) :
    compareNext types equality (splitOff clusters ref moved) st =
      splitOff clusters ref
        (if structDeepEqual types st ref equality = true then moved else insert st moved) := by
  have href : (splitOff clusters ref moved).ref = some ref := by
    unfold splitOff
    split <;> rfl
  rw [compareNext, href]
  by_cases hequal : structDeepEqual types st ref equality = true
  · simp only [if_pos hequal]
  · have hnew : splitOff clusters ref (insert st moved) =
        ⟨clusters.length, some ref, clusters ++ [insert st moved]⟩ :=
      if_neg (Finset.insert_nonempty st moved).ne_empty
    simp only [if_neg hequal, hnew]
    by_cases hmoved : moved = ∅
    · simp [splitOff, hmoved, modify_concat_length]
    · simp [splitOff, hmoved, modify_concat_length, hpos.ne']

theorem foldl_compareNext (hpos : 0 < clusters.length) (l : List ℕ) :
    l.foldl (compareNext types equality) (splitOff clusters ref moved) =
      splitOff clusters ref (moved ∪ movedFrom types equality l.toFinset ref) := by
  induction l generalizing moved with
  | nil => simp [movedFrom]
  | cons st l ih =>
    rw [List.foldl_cons, compareNext_splitOff hpos, ih, List.toFinset_cons]
    congr 1
    unfold movedFrom
    rw [Finset.filter_insert]
    by_cases hequal : structDeepEqual types st ref equality = true
    · rw [if_pos hequal, if_neg (ne_false_of_eq_true hequal)]
    · rw [if_neg hequal, if_pos (Bool.eq_false_of_not_eq_true hequal), Finset.union_insert,
        Finset.insert_union]

theorem foldl_update (m : ClusterMap) (l : List ℕ) :
    l.foldl (fun m st ↦ Function.update m st (some n)) m =
      fun st ↦ if st ∈ l then some n else m st := by
  induction l generalizing m with
  | nil => rfl
  | cons a l ih =>
    rw [List.foldl_cons, ih]
    funext st
    rw [Function.update_apply]
    by_cases hst : st = a
    · simp [hst]
    · simp [hst]

theorem mem_inOrder (types : StructTypes) {cluster : Finset ℕ} :
    st ∈ types.inOrder cluster ↔ st ∈ cluster := by
  rw [StructTypes.inOrder, List.mem_insertionSort, mem_ascending]

theorem toFinset_inOrder (cluster : Finset ℕ) : (types.inOrder cluster).toFinset = cluster := by
  ext st
  rw [List.mem_toFinset, mem_inOrder types]

theorem exists_inOrder_eq_cons (types : StructTypes) (hne : cluster.Nonempty) :
    ∃ ref l, types.inOrder cluster = ref :: l ∧ ref ∈ cluster ∧
      ∀ st ∈ cluster, types.address ref ≤ types.address st := by
  cases horder : types.inOrder cluster with
  | nil =>
    obtain ⟨st, hst⟩ := hne
    rw [← mem_inOrder types, horder] at hst
    cases hst
  | cons ref l =>
    have hmem : ∀ st, st ∈ cluster ↔ st ∈ ref :: l := by
      intro st
      rw [← mem_inOrder types, horder]
    have hsorted := List.pairwise_insertionSort (Order.Preimage types.address (· ≤ ·))
      (ascending cluster)
    rw [show List.insertionSort _ _ = _ from horder] at hsorted
    refine ⟨ref, l, rfl, (hmem ref).mpr List.mem_cons_self, fun st hst ↦ ?_⟩
    rcases List.mem_cons.mp ((hmem st).mp hst) with rfl | hst
    · exact Nat.le_refl _
    · exact List.rel_of_pairwise_cons hsorted hst

theorem foldl_compareNext_cons (hpos : 0 < clusters.length) (l : List ℕ) :
    (ref :: l).foldl (compareNext types equality) ⟨0, none, clusters⟩ =
      splitOff clusters ref (movedFrom types equality (ref :: l).toFinset ref) := by
  have hstart : compareNext types equality ⟨0, none, clusters⟩ ref = splitOff clusters ref ∅ :=
    (if_pos rfl).symm
  rw [List.foldl_cons, hstart, foldl_compareNext hpos, Finset.empty_union, List.toFinset_cons]
  congr 1
  -- the first struct is equal to itself
  unfold movedFrom
  rw [Finset.filter_insert, if_neg (ne_false_of_eq_true structDeepEqual_self)]

/-- **One turn of the second loop**: what is not equal to the first struct of the cluster is moved
to a new one. -/
theorem filterNext_eq_some (types : StructTypes) {x : Filtering}
    (hcluster : x.clusters[x.i]? = some cluster) (hne : cluster.Nonempty) :
    ∃ ref ∈ cluster, (∀ st ∈ cluster, types.address ref ≤ types.address st) ∧
      let moved := movedFrom types x.structClusters cluster ref
      filterNext types x = some
        { i := x.i + 1
          clusters := if moved = ∅ then x.clusters else x.clusters ++ [moved]
          structClusters := fun st ↦
            if st ∈ moved then some x.clusters.length else x.structClusters st } := by
  have hpos : 0 < x.clusters.length :=
    Nat.zero_lt_of_lt (List.getElem?_eq_some_iff.mp hcluster).1
  obtain ⟨ref, l, horder, href, hleast⟩ := exists_inOrder_eq_cons types hne
  refine ⟨ref, href, hleast, ?_⟩
  intro moved
  have hloop : (types.inOrder cluster).foldl (compareNext types x.structClusters)
      ⟨0, none, x.clusters⟩ = splitOff x.clusters ref moved := by
    rw [horder, foldl_compareNext_cons hpos, ← horder, toFinset_inOrder]
  unfold filterNext
  simp only [hcluster, hloop, Option.some.injEq]
  unfold splitOff
  by_cases hmoved : moved = ∅
  · simp [hmoved]
  · simp [hmoved, hpos.ne', foldl_update, mem_inOrder]

end Moved

/-! ## The whole loop -/

section Loop

variable {x x' : Filtering}

/-- What the second loop keeps: the clusters that it will come to are those of the map, the structs
of a cluster have one name, and the clusters it has left are equal by the names. -/
structure Refined (types : StructTypes) (structTypes : List ℕ) (x : Filtering) : Prop where
  lists : Lists x.i x.clusters x.structClusters
  exists_iff : ∀ st, (∃ c, x.structClusters st = some c) ↔ st ∈ structTypes
  refines : ∀ s t, SameCluster x.structClusters s t → SameName types structTypes s t
  equal : ∀ c < x.i, ∀ r, IsFirst types x.structClusters c r →
    ∀ st, x.structClusters st = some c → EqualByName types structTypes st r

/-- A turn of the loop that compares the structs of a cluster with `ref`. -/
structure Turn (types : StructTypes) (x : Filtering) (cluster : Finset ℕ) (ref : ℕ)
    (x' : Filtering) : Prop where
  cluster_eq : x.clusters[x.i]? = some cluster
  ref_mem : ref ∈ cluster
  ref_le : ∀ st ∈ cluster, types.address ref ≤ types.address st
  i_eq : x'.i = x.i + 1
  clusters_eq : movedFrom types x.structClusters cluster ref = ∅ ∧ x'.clusters = x.clusters ∨
    (movedFrom types x.structClusters cluster ref).Nonempty ∧
      x'.clusters = x.clusters ++ [movedFrom types x.structClusters cluster ref]
  map_eq : ∀ st, x'.structClusters st =
    if st ∈ movedFrom types x.structClusters cluster ref then some x.clusters.length
    else x.structClusters st

theorem Refined.exists_turn (h : Refined types structTypes x)
    (hnext : filterNext types x = some x') :
    ∃ cluster ref, Turn types x cluster ref x' := by
  cases hcluster : x.clusters[x.i]? with
  | none => simp [filterNext, hcluster] at hnext
  | some cluster =>
    obtain ⟨ref, href, hleast, hstep⟩ :=
      filterNext_eq_some types hcluster (h.lists.nonempty _ cluster hcluster)
    obtain rfl := Option.some.inj (hnext.symm.trans hstep)
    refine ⟨cluster, ref, hcluster, href, hleast, rfl, ?_, fun _ ↦ rfl⟩
    by_cases hmoved : movedFrom types x.structClusters cluster ref = ∅
    · exact Or.inl ⟨hmoved, if_pos hmoved⟩
    · exact Or.inr ⟨Finset.nonempty_iff_ne_empty.mpr hmoved, if_neg hmoved⟩

variable {cluster : Finset ℕ} {ref : ℕ}

/-- The structs of the clusters that the loop will come to. -/
def pending (structTypes : List ℕ) (x : Filtering) : Finset ℕ :=
  structTypes.toFinset.filter fun st ↦ (x.structClusters st).any fun c ↦ x.i ≤ c

theorem mem_pending : st ∈ pending structTypes x ↔
    st ∈ structTypes ∧ ∃ c, x.structClusters st = some c ∧ x.i ≤ c := by
  unfold pending
  rw [Finset.mem_filter, List.mem_toFinset, Option.any_eq_true]
  simp only [decide_eq_true_eq]

section Turn

variable (h : Refined types structTypes x) (hturn : Turn types x cluster ref x')

include h hturn

theorem Refined.mem_movedFrom :
    st ∈ movedFrom types x.structClusters cluster ref ↔
      x.structClusters st = some x.i ∧
        structDeepEqual types st ref x.structClusters = false := by
  unfold movedFrom
  rw [Finset.mem_filter, h.lists.mem_iff x.i cluster (Nat.le_refl _) hturn.cluster_eq st]

theorem Refined.eq_some_iff :
    x'.structClusters st = some c ↔
      c = x.clusters.length ∧ x.structClusters st = some x.i ∧
        structDeepEqual types st ref x.structClusters = false ∨
      x.structClusters st = some c ∧
        (c = x.i → structDeepEqual types st ref x.structClusters = true) := by
  rw [hturn.map_eq]
  split
  next hmem =>
    obtain ⟨hi, hfalse⟩ := (h.mem_movedFrom hturn).mp hmem
    constructor
    · intro hc
      exact Or.inl ⟨(Option.some.inj hc).symm, hi, hfalse⟩
    · rintro (⟨rfl, -⟩ | ⟨hc, hequal⟩)
      · rfl
      · rw [hequal (Option.some.inj (hc.symm.trans hi))] at hfalse
        cases hfalse
  next hmem =>
    constructor
    · intro hc
      refine Or.inr ⟨hc, fun hci ↦ Bool.eq_true_of_not_eq_false fun hfalse ↦ hmem ?_⟩
      exact (h.mem_movedFrom hturn).mpr ⟨hci ▸ hc, hfalse⟩
    · rintro (⟨-, hi⟩ | ⟨hc, -⟩)
      · exact absurd ((h.mem_movedFrom hturn).mpr hi) hmem
      · exact hc

theorem Refined.eq_some_iff_of_ne (hlength : c ≠ x.clusters.length) (hi : c ≠ x.i) :
    x'.structClusters st = some c ↔ x.structClusters st = some c := by
  rw [h.eq_some_iff hturn, or_iff_right fun hc ↦ hlength hc.1, and_iff_left fun hc ↦ absurd hc hi]

theorem Refined.eq_some_i_iff :
    x'.structClusters st = some x.i ↔
      st ∈ cluster ∧ structDeepEqual types st ref x.structClusters = true := by
  have hlt := (List.getElem?_eq_some_iff.mp hturn.cluster_eq).1
  rw [h.eq_some_iff hturn, or_iff_right fun hc ↦ Nat.ne_of_lt hlt hc.1, imp_iff_right rfl,
    h.lists.mem_iff x.i cluster (Nat.le_refl _) hturn.cluster_eq st]

theorem Refined.sameCluster (hsame : SameCluster x'.structClusters s t) :
    SameCluster x.structClusters s t := by
  obtain ⟨c, hs, ht⟩ := hsame
  rcases (h.eq_some_iff hturn).mp hs with ⟨rfl, hs, -⟩ | ⟨hs, -⟩
  · rcases (h.eq_some_iff hturn).mp ht with ⟨-, ht, -⟩ | ⟨ht, -⟩
    · exact ⟨x.i, hs, ht⟩
    · exact absurd (h.lists.lt_length t _ ht) (Nat.lt_irrefl _)
  · rcases (h.eq_some_iff hturn).mp ht with ⟨rfl, -⟩ | ⟨ht, -⟩
    · exact absurd (h.lists.lt_length s _ hs) (Nat.lt_irrefl _)
    · exact ⟨c, hs, ht⟩

theorem Refined.equalByName (hst : st ∈ cluster)
    (hequal : structDeepEqual types st ref x.structClusters = true) :
    EqualByName types structTypes st ref := by
  have hmem := h.lists.mem_iff x.i cluster (Nat.le_refl _) hturn.cluster_eq
  refine ⟨h.refines st ref ⟨x.i, (hmem st).mp hst, (hmem ref).mp hturn.ref_mem⟩, ?_⟩
  exact (structDeepEqual_iff.mp hequal).mono fun _ _ s t _ hsame ↦ h.refines s t hsame

/-- **The step lemma.** -/
theorem Refined.step : Refined types structTypes x' := by
  have hlt := (List.getElem?_eq_some_iff.mp hturn.cluster_eq).1
  constructor
  case lists =>
    have hmap : x'.structClusters = fun st ↦
        if st ∈ movedFrom types x.structClusters cluster ref then some x.clusters.length
        else x.structClusters st := funext hturn.map_eq
    rw [hturn.i_eq]
    rcases hturn.clusters_eq with ⟨hempty, heq⟩ | ⟨hmoved, heq⟩
    · rw [heq, hmap, hempty]
      exact h.lists.mono (Nat.le_succ _)
    · rw [heq, hmap]
      refine h.lists.concat (Nat.le_succ _) hmoved fun st hst c hc ↦ ?_
      have hi := ((h.mem_movedFrom hturn).mp hst).1
      exact Option.some.inj (hi.symm.trans hc) ▸ Nat.lt_succ_self _
  case exists_iff =>
    intro st
    rw [← h.exists_iff, hturn.map_eq]
    split
    next hmem =>
      exact iff_of_true ⟨_, rfl⟩ ⟨_, ((h.mem_movedFrom hturn).mp hmem).1⟩
    next => rfl
  case refines => exact fun s t hsame ↦ h.refines s t (h.sameCluster hturn hsame)
  case equal =>
    intro c hc r hfirst st hst
    rw [hturn.i_eq] at hc
    rcases Nat.lt_succ_iff_lt_or_eq.mp hc with hc | rfl
    · have hiff : ∀ st, x'.structClusters st = some c ↔ x.structClusters st = some c :=
        fun st ↦ h.eq_some_iff_of_ne hturn (by omega) (Nat.ne_of_lt hc)
      have hfirst' : IsFirst types x.structClusters c r :=
        ⟨(hiff r).mp hfirst.1, fun st hst ↦ hfirst.2 st ((hiff st).mpr hst)⟩
      exact h.equal c hc r hfirst' st ((hiff st).mp hst)
    · -- the first of the structs that stay is the one they have been compared with
      obtain ⟨hmem, hequal⟩ := (h.eq_some_i_iff hturn).mp hst
      have href : x'.structClusters ref = some x.i :=
        (h.eq_some_i_iff hturn).mpr ⟨hturn.ref_mem, structDeepEqual_self⟩
      have hr : r = ref := types.address_injective (Nat.le_antisymm (hfirst.2 ref href)
        (hturn.ref_le r ((h.eq_some_i_iff hturn).mp hfirst.1).1))
      subst hr
      exact h.equalByName hturn hmem hequal

theorem Refined.pending_lt : (pending structTypes x').card < (pending structTypes x).card := by
  refine Finset.card_lt_card ⟨fun st hst ↦ ?_, fun hsub ↦ ?_⟩
  · obtain ⟨hmem, c, hc, hle⟩ := mem_pending.mp hst
    rw [hturn.i_eq] at hle
    refine mem_pending.mpr ⟨hmem, ?_⟩
    rcases (h.eq_some_iff hturn).mp hc with ⟨-, hi, -⟩ | ⟨hc, -⟩
    · exact ⟨x.i, hi, Nat.le_refl _⟩
    · exact ⟨c, hc, Nat.le_of_succ_le hle⟩
  · have hi : x.structClusters ref = some x.i :=
      (h.lists.mem_iff x.i cluster (Nat.le_refl _) hturn.cluster_eq ref).mp hturn.ref_mem
    have hpending : ref ∈ pending structTypes x :=
      mem_pending.mpr ⟨(h.exists_iff ref).mp ⟨x.i, hi⟩, x.i, hi, Nat.le_refl _⟩
    obtain ⟨-, c, hc, hle⟩ := mem_pending.mp (hsub hpending)
    have hi' : x'.structClusters ref = some x.i :=
      (h.eq_some_i_iff hturn).mpr ⟨hturn.ref_mem, structDeepEqual_self⟩
    rw [hturn.i_eq, ← Option.some.inj (hi'.symm.trans hc)] at hle
    exact Nat.not_succ_le_self _ hle

end Turn

theorem refined_filterInit (types : StructTypes) (structTypes : List ℕ) :
    Refined types structTypes (filterInit types structTypes) := by
  have hnamed := named_nameClusters types structTypes
  exact ⟨hnamed.lists, hnamed.exists_iff, fun _ _ ↦ hnamed.sameCluster_iff.mp,
    fun c hc ↦ absurd hc (Nat.not_lt_zero c)⟩

/-- **The loop ends**, after at most one turn for each struct, and what each turn keeps holds in the
end. -/
theorem exists_analyzeStructs (types : StructTypes) {I : Filtering → Prop} {rounds : ℕ}
    (hinit : I (filterInit types structTypes))
    (hturn : ∀ x cluster ref x', Refined types structTypes x → I x → Turn types x cluster ref x' →
      I x')
    (hrounds : structTypes.length < rounds) :
    ∃ x, analyzeStructs types structTypes rounds = some x.structClusters ∧
      Refined types structTypes x ∧ I x ∧ x.clusters.length ≤ x.i := by
  have hcard : (pending structTypes (filterInit types structTypes)).card ≤ structTypes.length :=
    (Finset.card_filter_le ..).trans (List.toFinset_card_le structTypes)
  obtain ⟨x, hx, ⟨h, hI⟩, hend⟩ : ∃ x,
      iterate (filterNext types) rounds (filterInit types structTypes) = some x ∧
        (Refined types structTypes x ∧ I x) ∧ filterNext types x = none := by
    refine iterate_spec (fun x ↦ (pending structTypes x).card) ?_
      ⟨refined_filterInit types structTypes, hinit⟩ (Nat.lt_of_le_of_lt hcard hrounds)
    rintro x x' ⟨hx, hI⟩ hnext
    obtain ⟨cluster, ref, hstep⟩ := hx.exists_turn hnext
    exact ⟨⟨hx.step hstep, hturn x cluster ref x' hx hI hstep⟩, hx.pending_lt hstep⟩
  refine ⟨x, by rw [analyzeStructs, hx]; rfl, h, hI, ?_⟩
  cases hcluster : x.clusters[x.i]? with
  | none => exact List.getElem?_eq_none_iff.mp hcluster
  | some cluster => simp [filterNext, hcluster] at hend

end Loop

/-! ## Equality by name that is hereditary -/

section Hereditary

variable {x x' : Filtering} {cluster : Finset ℕ} {ref : ℕ}

/-- Structs of one name that are equal to the same structs are in one cluster. -/
def KeepsEqual (types : StructTypes) (structTypes : List ℕ) (x : Filtering) : Prop :=
  ∀ s t, SameName types structTypes s t →
    (∀ u, EqualByName types structTypes u s ↔ EqualByName types structTypes u t) →
      SameCluster x.structClusters s t

/-- Structs that are equal by the names are equal with the clusters of the map. -/
theorem KeepsEqual.structDeepEqual (h : KeepsEqual types structTypes x)
    (hhered : Hereditary types structTypes) (hequal : EqualByName types structTypes s t) :
    structDeepEqual types s t x.structClusters = true :=
  structDeepEqual_iff.mpr (hequal.2.mono fun e he s' t' hcompared hname ↦
    h s' t' hname (hhered s t hequal e he s' t' hcompared hname))

/-- **One turn** does not separate them. -/
theorem KeepsEqual.turn (h : KeepsEqual types structTypes x) (hx : Refined types structTypes x)
    (hhered : Hereditary types structTypes) (hturn : Turn types x cluster ref x') :
    KeepsEqual types structTypes x' := by
  intro s t hname htwins
  have hmem := hx.lists.mem_iff x.i cluster (Nat.le_refl _) hturn.cluster_eq
  have hequal : ∀ {st}, x.structClusters st = some x.i →
      (StructClusters.structDeepEqual types st ref x.structClusters = true ↔
        EqualByName types structTypes ref st) := fun hst ↦
    ⟨fun htrue ↦ (hx.equalByName hturn ((hmem _).mpr hst) htrue).symm,
      fun hst ↦ h.structDeepEqual hhered hst.symm⟩
  obtain ⟨c, hs, ht⟩ := h s t hname htwins
  have hst : c = x.i → StructClusters.structDeepEqual types s ref x.structClusters =
      StructClusters.structDeepEqual types t ref x.structClusters := by
    rintro rfl
    rw [Bool.eq_iff_iff, hequal hs, hequal ht]
    exact htwins ref
  by_cases hstay : c = x.i → StructClusters.structDeepEqual types s ref x.structClusters = true
  · exact ⟨c, (hx.eq_some_iff hturn).mpr (Or.inr ⟨hs, hstay⟩),
      (hx.eq_some_iff hturn).mpr (Or.inr ⟨ht, fun hc ↦ hst hc ▸ hstay hc⟩)⟩
  · obtain ⟨rfl, hfalse⟩ := Classical.not_imp.mp hstay
    rw [Bool.not_eq_true] at hfalse
    exact ⟨_, (hx.eq_some_iff hturn).mpr (Or.inl ⟨rfl, hs, hfalse⟩),
      (hx.eq_some_iff hturn).mpr (Or.inl ⟨rfl, ht, hst rfl ▸ hfalse⟩)⟩

/-- **The clusters are consistent**, whatever the order of the list and the addresses are. -/
theorem consistent_of_hereditary (hhered : Hereditary types structTypes) {rounds : ℕ}
    (hrounds : structTypes.length < rounds) :
    ∃ structClusters, analyzeStructs types structTypes rounds = some structClusters ∧
      Consistent types structClusters := by
  have hinit : KeepsEqual types structTypes (filterInit types structTypes) := fun s t hname _ ↦
    (named_nameClusters types structTypes).sameCluster_iff.mpr hname
  obtain ⟨x, hx, h, hkeeps, hend⟩ := exists_analyzeStructs types hinit
    (fun _ _ _ _ hx hkeeps hturn ↦ hkeeps.turn hx hhered hturn) hrounds
  refine ⟨x.structClusters, hx, fun c r hfirst st hst ↦ Or.inr ?_⟩
  exact hkeeps.structDeepEqual hhered
    (h.equal c (Nat.lt_of_lt_of_le (h.lists.lt_length st c hst) hend) r hfirst st hst)

theorem Hereditary.alwaysConsistent (hhered : Hereditary types structTypes) :
    AlwaysConsistent types structTypes := by
  intro address h order horder rounds hrounds
  have hperm := equalByName_perm types horder
  refine consistent_of_hereditary ?_ (horder.length_eq.symm ▸ hrounds)
  show Hereditary types order
  unfold Hereditary
  rw [hperm.1, hperm.2]
  exact hhered

end Hereditary

/-! ## Fields that are separated later -/

section Separated

variable {x x' : Filtering} {cluster : Finset ℕ} {ref s' t' : ℕ}

/-- The structs `s` and `t` stay in the first cluster, and the fields `s'` and `t'` are separated
when the loop comes to them. -/
structure Separates (names : ClusterMap) (s t s' t' : ℕ) (x : Filtering) : Prop where
  start : x.i = 0 → x.structClusters = names
  fst : x.structClusters s = some 0
  snd : x.structClusters t = some 0
  later : ∀ c, x.structClusters s' = some c → x.structClusters t' = some c → x.i ≤ c

/-- **One turn**, if `s` has the first address. -/
theorem Separates.turn {names : ClusterMap} (h : Separates names s t s' t' x)
    (hx : Refined types structTypes x)
    (htrans : ∀ r s t, EqualByName types structTypes r s → EqualByName types structTypes s t →
      EqualByName types structTypes r t)
    (hequal : structDeepEqual types t s names = true)
    (hfields : ¬ EqualByName types structTypes s' t')
    (hs : ∀ st, st ≠ s → types.address s < types.address st)
    (hturn : Turn types x cluster ref x') : Separates names s t s' t' x' := by
  have hlt := (List.getElem?_eq_some_iff.mp hturn.cluster_eq).1
  have hmem := hx.lists.mem_iff x.i cluster (Nat.le_refl _) hturn.cluster_eq
  -- the first struct of the cluster, if `s` is in it
  have href : x.structClusters s = some x.i → ref = s := by
    intro hi
    by_contra hne
    exact Nat.not_lt.mpr (hturn.ref_le s ((hmem s).mpr hi)) (hs ref hne)
  have hstay : ∀ {st}, x.structClusters st = some 0 →
      (x.i = 0 → structDeepEqual types st s names = true) → x'.structClusters st = some 0 := by
    intro st hst heq
    refine (hx.eq_some_iff hturn).mpr (Or.inr ⟨hst, fun hi ↦ ?_⟩)
    rw [href (hi ▸ h.fst), h.start hi.symm]
    exact heq hi.symm
  refine ⟨fun hi ↦ absurd (hturn.i_eq.symm.trans hi) (Nat.succ_ne_zero _),
    hstay h.fst fun _ ↦ structDeepEqual_self, hstay h.snd fun _ ↦ hequal, fun c hc hc' ↦ ?_⟩
  rw [hturn.i_eq]
  rcases (hx.eq_some_iff hturn).mp hc with ⟨rfl, -⟩ | ⟨hold, hstays⟩
  · exact hlt
  · rcases (hx.eq_some_iff hturn).mp hc' with ⟨rfl, -⟩ | ⟨hold', hstays'⟩
    · exact hlt
    · refine Nat.lt_of_le_of_ne (h.later c hold hold') ?_
      rintro rfl
      -- both are equal to the first struct of the cluster, and so to each other
      have h₁ := hx.equalByName hturn ((hmem s').mpr hold) (hstays rfl)
      have h₂ := hx.equalByName hturn ((hmem t').mpr hold') (hstays' rfl)
      exact hfields (htrans _ _ _ h₁ h₂.symm)

/-- **The list and the addresses begin with `s`**: then the clusters are not consistent. -/
theorem not_consistent_of_fields (types : StructTypes) {l : List ℕ} {rounds : ℕ}
    {e : ElementType × ElementType}
    (htrans : ∀ r s t, EqualByName types (st1 :: l) r s → EqualByName types (st1 :: l) s t →
      EqualByName types (st1 :: l) r t)
    (hequal : EqualByName types (st1 :: l) st1 st2)
    (he : e ∈ (types.elements st1).zip (types.elements st2))
    (hcompared : ComparedByCluster types e.1 e.2 s' t') (hname : SameName types (st1 :: l) s' t')
    (hfields : ¬ EqualByName types (st1 :: l) s' t')
    (hleast : ∀ st, st ≠ st1 → types.address st1 < types.address st)
    (hrounds : (st1 :: l).length < rounds) (m : ClusterMap)
    (hm : analyzeStructs types (st1 :: l) rounds = some m) : ¬ Consistent types m := by
  intro hconsistent
  have hfirst := nameClusters_cons types st1 l
  have hinit : Separates (nameClusters types (st1 :: l)).structClusters st1 st2 s' t'
      (filterInit types (st1 :: l)) := by
    obtain ⟨c, h₁, h₂⟩ := (named_nameClusters types (st1 :: l)).sameCluster_iff.mpr hequal.1
    refine ⟨fun _ ↦ rfl, hfirst, ?_, fun c _ _ ↦ Nat.zero_le c⟩
    exact h₂.trans (h₁.symm.trans hfirst)
  obtain ⟨x, hx, h, hseparates, hend⟩ := exists_analyzeStructs types hinit
    (fun _ _ _ _ hx h hturn ↦
      h.turn hx htrans (equalByName_iff.mp hequal.symm).2 hfields hleast hturn) hrounds
  obtain rfl : x.structClusters = m := Option.some.inj (hx.symm.trans hm)
  have hisFirst : IsFirst types x.structClusters 0 st1 := by
    refine ⟨hseparates.fst, fun st _ ↦ ?_⟩
    rcases eq_or_ne st st1 with rfl | hne
    · exact Nat.le_refl _
    · exact (hleast st hne).le
  have hagree : StructsAgree types (SameCluster x.structClusters) st1 st2 := by
    rcases hconsistent 0 st1 hisFirst st2 hseparates.snd with rfl | hagree
    · exact .refl _
    · refine (structDeepEqual_iff.mp hagree).symm ?_
      rintro s t ⟨c, hs, ht⟩
      exact ⟨c, ht, hs⟩
  rcases (hagree.2 e he).eq_or_same hcompared with rfl | ⟨c, hs, ht⟩
  · exact hfields hname.equalByName
  · exact Nat.not_lt.mpr (hend.trans (hseparates.later c hs ht)) (h.lists.lt_length s' c hs)

/-- The addresses with that of `s` first. -/
def addressFrom (s st : ℕ) : ℕ :=
  if st = s then 0 else st + 1

theorem addressFrom_injective (s : ℕ) : Function.Injective (addressFrom s) := by
  intro st st' h
  unfold addressFrom at h
  split at h <;> split at h <;> omega

theorem hereditary_of_alwaysConsistent (halways : AlwaysConsistent types structTypes)
    (htrans : ∀ r s t, EqualByName types structTypes r s → EqualByName types structTypes s t →
      EqualByName types structTypes r t) : Hereditary types structTypes := by
  intro st1 st2 hequal e he s' t' hcompared hname
  by_cases hfields : EqualByName types structTypes s' t'
  · exact fun u ↦ ⟨fun hu ↦ htrans u s' t' hu hfields, fun hu ↦ htrans u t' s' hu hfields.symm⟩
  · exfalso
    have horder := List.perm_cons_erase hequal.1.1
    obtain ⟨m, hm, hconsistent⟩ := halways (addressFrom st1) (addressFrom_injective st1) _
      horder.symm (structTypes.length + 1) (Nat.lt_succ_self _)
    have hperm := equalByName_perm types horder.symm
    rw [← hperm.2] at htrans hequal hfields
    rw [← hperm.1] at hname
    refine not_consistent_of_fields (types.placedAt _ (addressFrom_injective st1))
      htrans hequal he hcompared hname hfields (fun st hne ↦ ?_) ?_ m hm hconsistent
    · show addressFrom st1 st1 < addressFrom st1 st
      rw [addressFrom, addressFrom, if_pos rfl, if_neg hne]
      exact Nat.succ_pos st
    · rw [← horder.length_eq]
      exact Nat.lt_succ_self _

end Separated

/-! ## Copies of two types -/

section Copies

/-- Copies of two types: `A` has a pointer to `B`, and one of the copies of `B` is another type. -/
def copies : StructTypes where
  getStructName
    | 1 => "struct.A".toList
    | 2 => "struct.A.1".toList
    | 3 => "struct.B".toList
    | 4 => "struct.B.1".toList
    | 5 => "struct.A.2".toList
    | 6 => "struct.B.2".toList
    | _ => []
  elements
    | 1 => [.pointer (.struct 3)]
    | 2 => [.pointer (.struct 4)]
    | 3 => [.other 32]
    | 4 => [.other 64]
    | 5 => [.pointer (.struct 6)]
    | 6 => [.other 32]
    | _ => []
  isEmptyTy _ := false
  address st := st
  address_injective := Function.injective_id

theorem hereditary_iff : Hereditary types structTypes ↔
    ∀ st1 ∈ structTypes, ∀ st2 ∈ structTypes, EqualByName types structTypes st1 st2 →
      ∀ e ∈ (types.elements st1).zip (types.elements st2), ∀ s ∈ structTypes, ∀ t ∈ structTypes,
        ComparedByCluster types e.1 e.2 s t → types.baseName s = types.baseName t →
          ∀ u ∈ structTypes,
            (EqualByName types structTypes u s ↔ EqualByName types structTypes u t) := by
  constructor
  · intro h st1 _ st2 _ hequal e he s hs t ht hcompared hname u _
    exact h st1 st2 hequal e he s t hcompared ⟨hs, ht, hname⟩ u
  · intro h st1 st2 hequal e he s t hcompared hname u
    by_cases hu : u ∈ structTypes
    · exact h st1 hequal.1.1 st2 hequal.1.2.1 hequal e he s hname.1 t hname.2.1 hcompared
        hname.2.2 u hu
    · exact iff_of_false (fun hus ↦ hu hus.1.1) fun hut ↦ hu hut.1.1

end Copies

end Cali.Passes.StructClusters
