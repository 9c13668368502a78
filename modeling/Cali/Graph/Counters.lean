import Mathlib.Data.BitVec
import Mathlib.Data.Finset.Card
import Mathlib.Data.Finset.Union
import Cali.Graph.Adjacency

/-!
# The counters of a graph

`num_vertices` and `num_edges` are counted along with the calls.  Both counters are right modulo
`2 ^ 64` in every graph that the clients build (`Counted`), with one exception: `remove_vertex`
subtracts the lengths of both lists of the vertex, and a loop stands in both of them.
-/

namespace Cali.Graph.BaseGraph

open Cali.Lib

variable {N L : Type}

/-- `num_vertices` -/
def numVertices (g : BaseGraph N L) : BitVec 64 := g.size

/-- `num_edges` -/
def numEdges (g : BaseGraph N L) : BitVec 64 := g.edgeSize

def liveVertices (g : BaseGraph N L) : Finset ℕ := (Finset.range g.capacity).filter g.Live

section Edges

variable [DecidableEq L] {g : BaseGraph N L} {d : LabelledGraph ℕ L} {u v w : ℕ} {p : L}

/-- The distinct edges in the lists of all slots. -/
def storedEdges (g : BaseGraph N L) : Finset (Edge L) :=
  (Finset.range g.capacity).biUnion fun v ↦ (g.outEdges v ++ g.inEdges v).toFinset

/-- The loops at a vertex. -/
def loopsAt (g : BaseGraph N L) (v : ℕ) : Finset (Edge L) :=
  (g.inEdges v).toFinset ∩ (g.outEdges v).toFinset

omit [DecidableEq L] in
theorem mem_liveVertices : v ∈ g.liveVertices ↔ g.Live v := by
  unfold liveVertices
  rw [Finset.mem_filter, Finset.mem_range]
  exact and_iff_right_of_imp And.left

theorem Represents.mem_storedEdges (h : g.Represents d) {e : Edge L} :
    e ∈ g.storedEdges ↔ e ∈ g.outEdges e.source := by
  unfold storedEdges
  simp only [Finset.mem_biUnion, Finset.mem_range, List.mem_toFinset, List.mem_append]
  constructor
  · rintro ⟨v, -, hout | hin⟩
    · obtain rfl := h.mirrored.source_eq hout
      exact hout
    · obtain rfl := h.mirrored.target_eq hin
      exact (h.mirrored.mem_inEdges_iff e).mp hin
  · intro hout
    exact ⟨e.source, (h.live_of_mem_outEdges hout).1.1, Or.inl hout⟩

/-! ## What the calls do to the counters -/

omit [DecidableEq L] in
theorem size_addVertex (prop : N) : (g.addVertex prop).2.size = g.size + 1 := by
  unfold addVertex
  split
  · rfl
  · rfl

omit [DecidableEq L] in
theorem edgeSize_addVertex (prop : N) : (g.addVertex prop).2.edgeSize = g.edgeSize := by
  unfold addVertex
  split
  · rfl
  · rfl

theorem Mirrored.edgeSize_addEdge (hm : g.Mirrored) :
    (g.addEdge u w p).edgeSize = if g.HasEdge u p w then g.edgeSize else g.edgeSize + 1 := by
  have hin : (⟨u, w, p⟩ : Edge L) ∈ g.inEdges w ↔ g.HasEdge u p w := hm.mem_inEdges_iff ⟨u, w, p⟩
  unfold BaseGraph.addEdge
  simp only [inEdges_setOutEdges]
  by_cases h : g.HasEdge u p w
  · rw [if_pos h, if_neg fun hins ↦ uniqueInsert_snd.mp hins h]
    rfl
  · rw [if_neg h, if_pos (uniqueInsert_snd.mpr h), if_pos (uniqueInsert_snd.mpr (hin.not.mpr h))]
    rfl

theorem Mirrored.edgeSize_removeEdge (hm : g.Mirrored) (e : Edge L) :
    (g.removeEdge e).edgeSize =
      if e ∈ g.outEdges e.source then g.edgeSize - 1 else g.edgeSize := by
  have hin := hm.mem_inEdges_iff e
  unfold BaseGraph.removeEdge uniqueRemove
  simp only [inEdges_setOutEdges]
  by_cases h : e ∈ g.outEdges e.source
  · rw [if_pos h, if_pos (by simp [h, hin])]
    rfl
  · rw [if_neg h, if_neg (by simp [h])]
    rfl

theorem edgeSize_removeFromSources (es : List (Edge L)) :
    (g.removeFromSources es).edgeSize = g.edgeSize := by
  induction es generalizing g with
  | nil => rfl
  | cons e es ih => exact ih

theorem edgeSize_removeFromTargets (es : List (Edge L)) :
    (g.removeFromTargets es).edgeSize = g.edgeSize := by
  induction es generalizing g with
  | nil => rfl
  | cons e es ih => exact ih

/-- `remove_vertex` subtracts the lengths of the two lists. -/
theorem edgeSize_removeVertex (v : ℕ) :
    (g.removeVertex v).edgeSize =
      g.edgeSize - BitVec.ofNat 64 (g.inEdges v).length -
        BitVec.ofNat 64 (g.outEdges v).length := by
  show (g.detach v).edgeSize = _
  unfold detach
  rw [edgeSize_removeFromTargets, edgeSize_removeFromSources]
  rfl

theorem size_removeVertex (v : ℕ) : (g.removeVertex v).size = g.size - 1 := by
  show (g.detach v).size - 1 = g.size - 1
  rw [(sameNodes_detach g v).size]

/-! ## The counters are right -/

/-- The counters are those of the live vertices and of the stored edges, modulo `2 ^ 64`. -/
structure Counted (g : BaseGraph N L) : Prop where
  size_eq : g.size = BitVec.ofNat 64 g.liveVertices.card
  edgeSize_eq : g.edgeSize = BitVec.ofNat 64 g.storedEdges.card

theorem counted_nil (prop : N) : (nil prop : BaseGraph N L).Counted := ⟨rfl, rfl⟩

theorem ofNat_succ_sub_one (n : ℕ) : BitVec.ofNat 64 (n + 1) - 1 = BitVec.ofNat 64 n := by
  rw [BitVec.ofNat_add]
  exact BitVec.add_sub_cancel _ _

theorem Counted.addVertex (hc : g.Counted) (h : g.Represents d) (prop : N) :
    (g.addVertex prop).2.Counted := by
  have h' := h.addVertex prop
  have hlive : (g.addVertex prop).2.liveVertices =
      insert (g.addVertex prop).1 g.liveVertices := by
    ext v
    rw [mem_liveVertices, h.slots.live_addVertex, Finset.mem_insert, mem_liveVertices, or_comm]
  have hfresh : (g.addVertex prop).1 ∉ g.liveVertices :=
    mem_liveVertices.not.mpr (h.slots.not_live_addVertex prop)
  have hedges : (g.addVertex prop).2.storedEdges = g.storedEdges := by
    obtain ⟨hout, -⟩ := h.edges_eq_nil fun hlive ↦ Nat.lt_irrefl g.capacity hlive.1
    ext e
    rw [h'.mem_storedEdges, h.mem_storedEdges, outEdges_addVertex_of_nil hout]
  constructor
  · rw [size_addVertex, hlive, Finset.card_insert_of_notMem hfresh, BitVec.ofNat_add, hc.size_eq]
    rfl
  · rw [edgeSize_addVertex, hedges, hc.edgeSize_eq]

omit [DecidableEq L] in
theorem SameNodes.liveVertices {g' : BaseGraph N L} (h : SameNodes g g') :
    g'.liveVertices = g.liveVertices := by
  ext v
  rw [mem_liveVertices, mem_liveVertices, h.live]

theorem Counted.addEdge (hc : g.Counted) (h : g.Represents d) (hu : u ∈ d.vertices)
    (hw : w ∈ d.vertices) : (g.addEdge u w p).Counted := by
  have hedges : (g.addEdge u w p).storedEdges = insert ⟨u, w, p⟩ g.storedEdges := by
    ext ⟨x, y, q⟩
    rw [(h.addEdge hu hw).mem_storedEdges, Finset.mem_insert, h.mem_storedEdges, Edge.mk.injEq,
      or_comm, and_comm (a := y = w)]
    exact hasEdge_addEdge
  have hsame := sameNodes_addEdge g u w p
  constructor
  · rw [hsame.size, hsame.liveVertices, hc.size_eq]
  · rw [h.mirrored.edgeSize_addEdge, hedges]
    by_cases hold : g.HasEdge u p w
    · rw [if_pos hold, Finset.insert_eq_of_mem (h.mem_storedEdges.mpr hold), hc.edgeSize_eq]
    · rw [if_neg hold, Finset.card_insert_of_notMem (h.mem_storedEdges.not.mpr hold),
        BitVec.ofNat_add, hc.edgeSize_eq]
      rfl

theorem Counted.removeEdge (hc : g.Counted) (h : g.Represents d) (e : Edge L) :
    (g.removeEdge e).Counted := by
  have hedges : (g.removeEdge e).storedEdges = g.storedEdges.erase e := by
    ext e'
    rw [(h.removeEdge e).mem_storedEdges, Finset.mem_erase, h.mem_storedEdges,
      h.mirrored.mem_outEdges_removeEdge, and_comm]
  have hsame := sameNodes_removeEdge g e
  constructor
  · rw [hsame.size, hsame.liveVertices, hc.size_eq]
  · rw [h.mirrored.edgeSize_removeEdge, hedges, hc.edgeSize_eq]
    by_cases hold : e ∈ g.outEdges e.source
    · have hcard := Finset.card_erase_add_one (h.mem_storedEdges.mpr hold)
      rw [if_pos hold, ← hcard, ofNat_succ_sub_one]
    · rw [if_neg hold, Finset.erase_eq_of_notMem (h.mem_storedEdges.not.mpr hold)]

theorem Represents.card_storedEdges_removeVertex (h : g.Represents d) (hv : g.Live v) :
    g.storedEdges.card + (g.loopsAt v).card =
      (g.removeVertex v).storedEdges.card + ((g.inEdges v).length + (g.outEdges v).length) := by
  let lists := (g.inEdges v).toFinset ∪ (g.outEdges v).toFinset
  have hmem : ∀ e, e ∈ lists ↔ e ∈ g.storedEdges ∧ (e.source = v ∨ e.target = v) := by
    intro e
    rw [Finset.mem_union, List.mem_toFinset, List.mem_toFinset, h.mem_storedEdges,
      h.mirrored.mem_inEdges_iff_hasEdge, h.mirrored.mem_outEdges_iff]
    constructor
    · rintro (⟨rfl, hedge⟩ | ⟨rfl, hedge⟩)
      · exact ⟨hedge, Or.inr rfl⟩
      · exact ⟨hedge, Or.inl rfl⟩
    · rintro ⟨hedge, rfl | rfl⟩
      · exact Or.inr ⟨rfl, hedge⟩
      · exact Or.inl ⟨rfl, hedge⟩
  have hrest : (g.removeVertex v).storedEdges = g.storedEdges \ lists := by
    ext e
    rw [(h.removeVertex hv).mem_storedEdges, Finset.mem_sdiff, hmem, h.mem_storedEdges]
    have hkept : e ∈ (g.removeVertex v).outEdges e.source ↔
        e ∈ g.outEdges e.source ∧ e.source ≠ v ∧ e.target ≠ v := h.mirrored.hasEdge_removeVertex
    rw [hkept]
    refine and_congr_right fun hedge ↦ ?_
    rw [not_and, not_or, imp_iff_right hedge]
  have hsub : lists ⊆ g.storedEdges := fun e he ↦ ((hmem e).mp he).1
  have hlists : lists.card + (g.loopsAt v).card =
      (g.inEdges v).length + (g.outEdges v).length := by
    rw [loopsAt, Finset.card_union_add_card_inter,
      List.toFinset_card_of_nodup (h.mirrored.inEdges_nodup v),
      List.toFinset_card_of_nodup (h.mirrored.outEdges_nodup v)]
  rw [hrest, ← hlists, ← add_assoc, Finset.card_sdiff_add_card_eq_card hsub]

/-- **`remove_vertex` counts a loop twice.** -/
theorem Counted.edgeSize_removeVertex (hc : g.Counted) (h : g.Represents d) (hv : g.Live v) :
    (g.removeVertex v).edgeSize + BitVec.ofNat 64 (g.loopsAt v).card =
      BitVec.ofNat 64 (g.removeVertex v).storedEdges.card := by
  have hcard := congrArg (BitVec.ofNat 64) (h.card_storedEdges_removeVertex hv)
  simp only [BitVec.ofNat_add] at hcard
  rw [BaseGraph.edgeSize_removeVertex, hc.edgeSize_eq, sub_sub, sub_add_eq_add_sub, hcard,
    add_sub_cancel_right]

theorem Counted.removeVertex (hc : g.Counted) (h : g.Represents d) (hv : g.Live v)
    (hloops : g.loopsAt v = ∅) : (g.removeVertex v).Counted := by
  have hlive : (g.removeVertex v).liveVertices = g.liveVertices.erase v := by
    ext u
    rw [mem_liveVertices, live_removeVertex, Finset.mem_erase, mem_liveVertices, and_comm]
  constructor
  · have hcard := Finset.card_erase_add_one (mem_liveVertices.mpr hv)
    rw [size_removeVertex, hlive, hc.size_eq, ← hcard, ofNat_succ_sub_one]
  · have hedges := hc.edgeSize_removeVertex h hv
    rw [hloops, Finset.card_empty] at hedges
    rw [← hedges]
    exact (BitVec.add_zero _).symm

end Edges

/-! ## Runs -/

section Runs

variable [DecidableEq L] {g g' : BaseGraph N L} {d : LabelledGraph ℕ L} {c : Call N L}

/-- The numbers fit into `size_t`. -/
def Fits (g : BaseGraph N L) : Prop :=
  g.liveVertices.card < 2 ^ 64 ∧ g.storedEdges.card < 2 ^ 64

/-- The two counters are the numbers of vertices and of edges. -/
def Exact (g : BaseGraph N L) : Prop :=
  g.numVertices.toNat = g.liveVertices.card ∧ g.numEdges.toNat = g.storedEdges.card

/-- The call subtracts more from a counter than it holds. -/
def Call.Underflows (g : BaseGraph N L) : Call N L → Prop
  | .addVertex _ => False
  | .addEdge .. => False
  | .addEdgeUnique .. => False
  | .removeEdge e => e ∈ g.outEdges e.source ∧ e ∈ g.inEdges e.target ∧ g.numEdges.toNat < 1
  | .removeVertex v => g.numVertices.toNat < 1 ∨
      g.numEdges.toNat < (g.inEdges v).length + (g.outEdges v).length

/-- The call removes no vertex that has a loop. -/
def Call.KeepsLoops (g : BaseGraph N L) : Call N L → Prop
  | .removeVertex v => ∀ p, ¬ g.HasEdge v p v
  | _ => True

theorem Represents.loopsAt_eq_empty (h : g.Represents d) {v : ℕ} (hv : ∀ p, ¬ g.HasEdge v p v) :
    g.loopsAt v = ∅ := by
  refine Finset.eq_empty_of_forall_notMem fun e he ↦ ?_
  rw [loopsAt, Finset.mem_inter, List.mem_toFinset, List.mem_toFinset] at he
  obtain ⟨hin, hout⟩ := he
  obtain ⟨-, hedge⟩ := h.mirrored.mem_outEdges_iff.mp hout
  rw [h.mirrored.target_eq hin] at hedge
  exact hv _ hedge

theorem Counted.exact (hc : g.Counted) (hfits : g.Fits) : g.Exact := by
  unfold Exact numVertices numEdges
  rw [hc.size_eq, hc.edgeSize_eq, BitVec.toNat_ofNat, BitVec.toNat_ofNat]
  exact ⟨Nat.mod_eq_of_lt hfits.1, Nat.mod_eq_of_lt hfits.2⟩

/-- **The step lemma.** -/
theorem Counted.step (hc : g.Counted) (h : g.Represents d) (hloops : c.KeepsLoops g)
    (hstep : Step g c g') : g'.Counted := by
  obtain ⟨hok, rfl⟩ := hstep
  cases c with
  | addVertex prop => exact hc.addVertex h prop
  | addEdge v1 v2 p => exact hc.addEdge h ((h.live v1).mp hok.1) ((h.live v2).mp hok.2)
  | addEdgeUnique v1 v2 p =>
    obtain ⟨hlive1, hlive2, hnew⟩ := hok
    show (g.addEdgeUnique v1 v2 p).Counted
    rw [h.mirrored.addEdgeUnique_eq hnew]
    exact hc.addEdge h ((h.live v1).mp hlive1) ((h.live v2).mp hlive2)
  | removeEdge e => exact hc.removeEdge h e
  | removeVertex v => exact hc.removeVertex h hok (h.loopsAt_eq_empty hloops)

theorem Counted.not_underflows (hc : g.Counted) (h : g.Represents d) (hloops : c.KeepsLoops g)
    (hok : c.Ok g) (hfits : g.Fits) : ¬ c.Underflows g := by
  obtain ⟨hvertices, hedges⟩ := hc.exact hfits
  cases c with
  | addVertex prop => exact id
  | addEdge v1 v2 p => exact id
  | addEdgeUnique v1 v2 p => exact id
  | removeEdge e =>
    rintro ⟨hout, -, hzero⟩
    rw [hedges] at hzero
    exact Nat.not_lt.mpr (Finset.card_pos.mpr ⟨e, h.mem_storedEdges.mpr hout⟩) hzero
  | removeVertex v =>
    have hcard := h.card_storedEdges_removeVertex hok
    rw [h.loopsAt_eq_empty hloops, Finset.card_empty] at hcard
    rintro (hzero | hless)
    · rw [hvertices] at hzero
      exact Nat.not_lt.mpr (Finset.card_pos.mpr ⟨v, mem_liveVertices.mpr hok⟩) hzero
    · rw [hedges] at hless
      omega

/-- **The counters are exact** as long as no vertex with a loop is removed: in every graph of a run
whose numbers fit into `size_t` they are the numbers of live vertices and of stored edges, and no
call subtracts more than a counter holds. -/
theorem counters_exact_of_keepsLoops {prop : N} {t : List (Call N L × BaseGraph N L)}
    (hrun : IsRun Step (nil prop) t) (hloops : RunOk (fun g c ↦ c.KeepsLoops g) (nil prop) t) :
    (∀ g ∈ runStates (nil prop) t, g.Fits → g.Exact) ∧
      RunOk (fun g c ↦ g.Fits → ¬ c.Underflows g) (nil prop) t := by
  have hstart : ∃ d, (nil prop : BaseGraph N L).Represents d ∧
      (nil prop : BaseGraph N L).Counted :=
    ⟨_, represents_nil prop, counted_nil prop⟩
  have hstep : ∀ (g : BaseGraph N L) c g', (∃ d, g.Represents d ∧ g.Counted) → c.KeepsLoops g →
      Step g c g' → ∃ d, g'.Represents d ∧ g'.Counted := by
    rintro g c g' ⟨d, h, hc⟩ hloops hstep
    obtain ⟨d', -, h'⟩ := h.step hstep
    exact ⟨d', h', hc.step h hloops hstep⟩
  constructor
  · intro g hg
    obtain ⟨d, -, hc⟩ := hrun.invariant hstep hstart hloops g hg
    exact hc.exact
  · refine hrun.runOk_of_invariant hstep ?_ hstart hloops
    rintro g c g' ⟨d, h, hc⟩ hloops ⟨hok, -⟩
    exact hc.not_underflows h hloops hok

instance (g : BaseGraph N L) : Decidable g.Fits := inferInstanceAs (Decidable (_ ∧ _))

instance (g : BaseGraph N L) : Decidable g.Exact := inferInstanceAs (Decidable (_ ∧ _))

instance (g : BaseGraph N L) (c : Call N L) : Decidable (c.Underflows g) :=
  match c with
  | .addVertex _ => isFalse id
  | .addEdge .. => isFalse id
  | .addEdgeUnique .. => isFalse id
  | .removeEdge _ => inferInstanceAs (Decidable (_ ∧ _ ∧ _))
  | .removeVertex _ => inferInstanceAs (Decidable (_ ∨ _))

omit [DecidableEq L] in
theorem forall_not_loop_iff {v : ℕ} :
    (∀ e ∈ g.outEdges v, e ≠ ⟨v, v, e.property⟩) ↔ ∀ p, ¬ g.HasEdge v p v := by
  constructor
  · intro h p hp
    exact h _ hp rfl
  · intro h e he heq
    rw [heq] at he
    exact h _ he

instance (g : BaseGraph N L) (c : Call N L) : Decidable (c.KeepsLoops g) :=
  match c with
  | .addVertex _ => isTrue trivial
  | .addEdge .. => isTrue trivial
  | .addEdgeUnique .. => isTrue trivial
  | .removeEdge _ => isTrue trivial
  | .removeVertex _ => decidable_of_iff _ forall_not_loop_iff

/-- A loop that is removed as an edge before its vertex is removed. -/
theorem counters_exact_loop_removed_first :
    ∃ t : List (Call Unit ℕ × BaseGraph Unit ℕ), IsRun Step (nil ()) t ∧
      RunOk (fun g c ↦ c.KeepsLoops g) (nil ()) t ∧
      (∃ g ∈ runStates (nil ()) t, g.numEdges = 4 ∧ g.Fits) ∧
      (∀ g ∈ runStates (nil ()) t, g.Fits → g.Exact) ∧
      RunOk (fun g c ↦ g.Fits → ¬ c.Underflows g) (nil ()) t := by
  let t : List (Call Unit ℕ × BaseGraph Unit ℕ) := trace exec (nil ())
    [.addVertex (), .addVertex (), .addEdge 0 0 5, .addEdge 0 1 5, .addEdge 0 1 6,
      .addEdgeUnique 1 0 5, .removeEdge ⟨0, 0, 5⟩, .removeVertex 0, .removeVertex 1]
  have hrun : IsRun Step (nil ()) t := by
    refine isRun_trace ?_
    simp only [Step, and_true]
    decide
  have hloops : RunOk (fun g c ↦ c.KeepsLoops g) (nil ()) t := by decide
  exact ⟨t, hrun, hloops, by decide, counters_exact_of_keepsLoops hrun hloops⟩

/-- A loop at a vertex that is removed: the counter of edges is `2 ^ 64 - 1`. -/
theorem not_exact_loop_removed :
    ∃ t : List (Call Unit ℕ × BaseGraph Unit ℕ), IsRun Step (nil ()) t ∧
      (∃ g ∈ runStates (nil ()) t, g.Fits ∧ ¬ g.Exact) ∧
      ¬ RunOk (fun g c ↦ g.Fits → ¬ c.Underflows g) (nil ()) t := by
  let t : List (Call Unit ℕ × BaseGraph Unit ℕ) := trace exec (nil ())
    [.addVertex (), .addEdge 0 0 5, .removeVertex 0]
  have hrun : IsRun Step (nil ()) t := by
    refine isRun_trace ?_
    simp only [Step, and_true]
    decide
  exact ⟨t, hrun, by decide, by decide⟩

end Runs

end Cali.Graph.BaseGraph
