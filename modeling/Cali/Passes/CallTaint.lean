import Cali.Passes.Extension
import Cali.Passes.SharingSearch

/-!
# Taking the marks of a call over to the specialised function

When a function is specialised for the calls that handle shared memory, the marks of the
call's arguments and of its result are copied to the parameters and the result of the new
function.  The local function `matchSubnodes` follows the `Deref` and `Part` edges of both
sides together.  It visits each vertex of the function once, with the vertex of the call it
meets it with first, and counts the `Deref` edges: behind a parameter the marks count from
the second pointer on, behind the result from the first.
-/

namespace Cali.Passes

open Cali.Graph Cali.Lib

variable {Val Fn : Type}

namespace PDG

/-- `getParamOpt` -/
def getParamOpt (g : PDG Val Fn) (v index : ℕ) : Option ℕ :=
  ((g.graph.outEdges v).find? fun e ↦
    e.property.type = .param ∧ e.property.index = index).map (·.target)

/-- `getReturnOpt` -/
def getReturnOpt (g : PDG Val Fn) (v : ℕ) : Option ℕ :=
  ((g.graph.outEdges v).find? fun e ↦ e.property.type = .return).map (·.target)

end PDG

/-- The arguments of a call of `matchSubnodes`. -/
structure MatchCall where
  funcParam : ℕ
  callArg : ℕ
  derefCounter : ℤ
deriving DecidableEq, Repr

/-- What the calls of `matchSubnodes` share. -/
structure TaintState (Val Fn : Type) where
  pdg : PDG Val Fn
  mapping : ℕ → Option ℕ
  somethingReachesIpc : Bool

/-- The function that is specialised. -/
structure OldFunction (Fn : Type) where
  function : Fn
  isVarArg : Bool
  argSize : ℕ

/-- A call instruction: its value, the function that it is in, the function that it calls, and
its arguments. -/
structure CallSite (Val Fn : Type) where
  call : Val
  function : Option Fn
  calledFunction : Option Fn
  args : List Val

/-- The parameter of the function for the argument `i` of a call; there is one vertex for all
variable arguments. -/
def OldFunction.paramIndex (old : OldFunction Fn) (i : ℕ) : ℕ :=
  if old.isVarArg = true ∧ i ≥ old.argSize then old.argSize else i

/-- The calls that `matchSubnodes` makes for the edges of `funcParam`. -/
def PDG.matchCalls (g : PDG Val Fn) (c : MatchCall) : List MatchCall :=
  (g.graph.outEdges c.funcParam).filterMap fun e ↦
    match e.property.type with
    | .deref => (g.getDerefOpt c.callArg).map fun v2 ↦ ⟨e.target, v2, c.derefCounter + 1⟩
    | .part => (g.getPartOpt c.callArg e.property.index).map fun v2 ↦
        ⟨e.target, v2, c.derefCounter⟩
    | _ => none

namespace TaintState

/-- The first part of `matchSubnodes`, for a vertex that is not in `mapping`. -/
def visit (s : TaintState Val Fn) (c : MatchCall) : TaintState Val Fn :=
  let s := { s with mapping := Function.update s.mapping c.funcParam (some c.callArg) }
  if c.derefCounter ≥ 0 ∧ s.pdg.Marked c.callArg then
    { s with pdg := s.pdg.setReaches c.funcParam, somethingReachesIpc := true }
  else s

/-- `matchSubnodes`, with the calls that are still to be made.  `none` would mean that the
rounds were not enough. -/
def matchLoop : ℕ → List MatchCall → TaintState Val Fn → Option (TaintState Val Fn)
  | 0, _, _ => none
  | _ + 1, [], s => some s
  | rounds + 1, c :: calls, s =>
    if (s.mapping c.funcParam).isSome then matchLoop rounds calls s
    else matchLoop rounds ((s.visit c).pdg.matchCalls c ++ calls) (s.visit c)

/-- `matchSubnodes(funcParam, callArg, derefCounter)` -/
def matchSubnodes (s : TaintState Val Fn) (c : MatchCall) : Option (TaintState Val Fn) :=
  s.matchLoop (s.pdg.unseenEdges (fun v ↦ (s.mapping v).isSome) + 2) [c]

/-- `mapping.clear()` -/
def clear (s : TaintState Val Fn) : TaintState Val Fn := { s with mapping := fun _ ↦ none }

variable [DecidableEq Fn] [DecidableEq Val]

/-- `getVertex`, as an argument of `matchSubnodes`. -/
def getVertex (llvm : Llvm Val Fn) (s : TaintState Val Fn) (value : Val) (function : Option Fn) :
    ℕ × TaintState Val Fn :=
  let r := s.pdg.getVertex llvm value function
  (r.1, { s with pdg := r.2 })

/-- The loop of `matchAndPropagateTaint` over the arguments, from the index `i` on. -/
def matchArgs (llvm : Llvm Val Fn) (old : OldFunction Fn) (vFunc : ℕ) (function : Option Fn) :
    ℕ → List Val → TaintState Val Fn → Option (TaintState Val Fn)
  | _, [], s => some s
  | i, arg :: args, s =>
    let s := s.clear
    match s.pdg.getParamOpt vFunc (old.paramIndex i) with
    | some vFuncParam =>
      let r := s.getVertex llvm arg function
      (r.2.matchSubnodes ⟨vFuncParam, r.1, -2⟩).bind
        (matchArgs llvm old vFunc function (i + 1) args)
    | none => matchArgs llvm old vFunc function (i + 1) args s

/-- The loop of `matchAndPropagateTaintGraphwise` over the edges to the call. -/
def matchParamEdges (old : OldFunction Fn) (vFunc : ℕ) :
    List (Edge PDGEdge) → TaintState Val Fn → Option (TaintState Val Fn)
  | [], s => some s
  | e :: es, s =>
    if e.property.type ≠ .param then matchParamEdges old vFunc es s
    else
      let s := s.clear
      match s.pdg.getParamOpt vFunc (old.paramIndex e.property.index) with
      | some vFuncParam =>
        (s.matchSubnodes ⟨vFuncParam, e.source, -2⟩).bind (matchParamEdges old vFunc es)
      | none => matchParamEdges old vFunc es s

end TaintState

namespace PDG

variable [DecidableEq Fn] [DecidableEq Val]

/-- `matchAndPropagateTaint` for a call: the graph, and the calls to specialise. -/
def matchAndPropagateTaint (llvm : Llvm Val Fn) (g : PDG Val Fn) (site : CallSite Val Fn)
    (newCalls : List Val) (old : OldFunction Fn) (newFunction : Val) :
    Option (PDG Val Fn × List Val) :=
  if site.calledFunction ≠ some old.function then some (g, newCalls)
  else
    let r := g.getVertex llvm newFunction none
    let vFunc := r.1
    let s : TaintState Val Fn := ⟨r.2, fun _ ↦ none, false⟩
    let matched :=
      match s.pdg.getReturnOpt vFunc with
      | some vFuncRet =>
        let r := s.getVertex llvm site.call none
        r.2.matchSubnodes ⟨vFuncRet, r.1, -1⟩
      | none => some s
    (matched.bind (TaintState.matchArgs llvm old vFunc site.function 0 site.args)).map fun s ↦
      (s.pdg, if s.somethingReachesIpc then newCalls ++ [site.call] else newCalls)

/-- `matchAndPropagateTaintGraphwise` -/
def matchAndPropagateTaintGraphwise (llvm : Llvm Val Fn) (g : PDG Val Fn) (callVertex : ℕ)
    (old : OldFunction Fn) (newFunction : Val) : Option (PDG Val Fn × Bool) :=
  let r := g.getVertex llvm newFunction none
  let vFunc := r.1
  let s : TaintState Val Fn := ⟨r.2, fun _ ↦ none, false⟩
  let matched :=
    match s.pdg.getReturnOpt vFunc with
    | some vFuncRet => s.matchSubnodes ⟨vFuncRet, callVertex, -1⟩
    | none => some s
  (matched.bind fun s ↦ s.matchParamEdges old vFunc (s.pdg.graph.inEdges callVertex)).map fun s ↦
    (s.pdg, s.somethingReachesIpc)

end PDG

/-! ## Paths on both sides -/

namespace PDG

/-- There are paths with the same labels, with `n` pointers on them, from `x₀` to `x` and from
`y₀` to `y`. -/
inductive Corresponds (g : PDG Val Fn) (x₀ y₀ : ℕ) : ℕ → ℕ → ℕ → Prop
  | refl : Corresponds g x₀ y₀ x₀ y₀ 0
  | step {x y n x' y' : ℕ} {p : PDGEdge} (h : Corresponds g x₀ y₀ x y n)
      (hx : g.HasEdge x p x') (hy : g.follow p y = some y') :
      Corresponds g x₀ y₀ x' y' (n + p.derefs)

/-- Vertices of the call that correspond to the same vertex of the function look alike: they are
marked alike, from `required` pointers on, and have the same parts. -/
def Alike (g : PDG Val Fn) (x₀ y₀ required : ℕ) : Prop :=
  ∀ x y n y' n', g.Corresponds x₀ y₀ x y n → g.Corresponds x₀ y₀ x y' n' →
    (required ≤ n ∧ g.Marked y → required ≤ n' ∧ g.Marked y') ∧
      ∀ p w, g.HasEdge x p w → (g.follow p y).isSome → (g.follow p y').isSome

/-- The marks of the graph `g` behind `y₀`, from `required` pointers on, were taken over to what
is behind `x₀`, and the call was selected. -/
def Completed (g g' : PDG Val Fn) (selected : Prop) (x₀ y₀ required : ℕ) : Prop :=
  ∀ x y n, g.Corresponds x₀ y₀ x y n → required ≤ n → g.Marked y →
    (g'.node x).reachesIpcSink = true ∧ selected

variable {g g' : PDG Val Fn} {x₀ y₀ x y n required : ℕ}

theorem Wired.inside (hg : g.Wired) : g.graph.Inside := by
  rintro u w ⟨e, he, rfl⟩
  have hlive := hg.live u e.property e.target (hg.mirrored.mem_outEdges_iff.mp he).2
  exact ⟨hlive.1.1, hlive.2.1⟩

/-- A vertex with an edge is in the graph, so it has the same edges in one that has grown. -/
theorem Extends.find_eq_some (h : Extends g g') (hg : g.Wired) {v : ℕ}
    {cond : Edge PDGEdge → Bool}
    (hx : ((g.graph.outEdges v).find? cond).map (·.target) = some x) :
    ((g'.graph.outEdges v).find? cond).map (·.target) = some x := by
  obtain ⟨e, he, -⟩ := Option.map_eq_some_iff.mp hx
  have hedge := hg.mirrored.mem_outEdges_iff.mp (List.mem_of_find?_eq_some he)
  rw [h.outEdges v (hg.live _ _ _ hedge.2).1]
  exact hx

theorem Extends.getParamOpt_eq_some (h : Extends g g') (hg : g.Wired) {v i : ℕ}
    (hx : g.getParamOpt v i = some x) : g'.getParamOpt v i = some x :=
  h.find_eq_some hg hx

theorem Extends.getReturnOpt_eq_some (h : Extends g g') (hg : g.Wired) {v : ℕ}
    (hx : g.getReturnOpt v = some x) : g'.getReturnOpt v = some x :=
  h.find_eq_some hg hx

theorem Corresponds.live (h : g.Corresponds x₀ y₀ x y n) (hg : g.Wired) :
    x = x₀ ∧ y = y₀ ∧ n = 0 ∨ (g.Live x₀ ∧ g.Live y₀) ∧ g.Live x ∧ g.Live y := by
  induction h with
  | refl => exact Or.inl ⟨rfl, rfl, rfl⟩
  | step _ hx hy ih =>
    obtain ⟨q, -, hq⟩ := exists_hasEdge_of_follow hg.mirrored hy
    have hlivex := hg.live _ _ _ hx
    have hlivey := hg.live _ _ _ hq
    rcases ih with ⟨rfl, rfl, -⟩ | ⟨hstart, -⟩
    · exact Or.inr ⟨⟨hlivex.1, hlivey.1⟩, hlivex.2, hlivey.2⟩
    · exact Or.inr ⟨hstart, hlivex.2, hlivey.2⟩

theorem Extends.follow (h : Extends g g') (hy : g.Live y) (p : PDGEdge) :
    g'.follow p y = g.follow p y := by
  unfold PDG.follow
  rw [h.getDerefOpt hy, h.getPartOpt hy]

theorem Extends.corresponds_iff (h : Extends g g') (hg : g.Wired) (hx : g.Live x₀)
    (hy : g.Live y₀) : g'.Corresponds x₀ y₀ x y n ↔ g.Corresponds x₀ y₀ x y n := by
  constructor
  · intro hpath
    suffices hall : g.Corresponds x₀ y₀ x y n ∧ g.Live x ∧ g.Live y from hall.1
    induction hpath with
    | refl => exact ⟨.refl, hx, hy⟩
    | step _ hx' hy' ih =>
      rw [h.hasEdge_iff ih.2.1] at hx'
      rw [h.follow ih.2.2] at hy'
      obtain ⟨q, -, hq⟩ := exists_hasEdge_of_follow hg.mirrored hy'
      exact ⟨ih.1.step hx' hy', (hg.live _ _ _ hx').2, (hg.live _ _ _ hq).2⟩
  · intro hpath
    induction hpath with
    | refl => exact .refl
    | step hpath hx' hy' ih =>
      obtain ⟨q, -, hq⟩ := exists_hasEdge_of_follow hg.mirrored hy'
      refine ih.step ((h.hasEdge_iff (hg.live _ _ _ hx').1).mpr hx') ?_
      rw [h.follow (hg.live _ _ _ hq).1]
      exact hy'

theorem mem_matchCalls (hm : g.graph.Mirrored) {c d : MatchCall} :
    d ∈ g.matchCalls c ↔ ∃ p, g.HasEdge c.funcParam p d.funcParam ∧
      g.follow p c.callArg = some d.callArg ∧ d.derefCounter = c.derefCounter + p.derefs := by
  unfold matchCalls follow PDGEdge.derefs
  rw [List.mem_filterMap]
  constructor
  · rintro ⟨e, he, hd⟩
    have hedge := (hm.mem_outEdges_iff.mp he).2
    split at hd
    · next ht =>
        obtain ⟨v2, hv2, rfl⟩ := Option.map_eq_some_iff.mp hd
        exact ⟨e.property, hedge, by rw [ht]; exact hv2, by rw [ht]; rfl⟩
    · next ht =>
        obtain ⟨v2, hv2, rfl⟩ := Option.map_eq_some_iff.mp hd
        exact ⟨e.property, hedge, by rw [ht]; exact hv2, by rw [ht]; exact (Int.add_zero _).symm⟩
    · cases hd
  · obtain ⟨x', y', n'⟩ := d
    rintro ⟨p, hedge, hfollow, (rfl : n' = _)⟩
    refine ⟨⟨c.funcParam, x', p⟩, hedge, ?_⟩
    split at hfollow
    · next ht =>
        rw [ht]
        exact Option.map_eq_some_iff.mpr ⟨y', hfollow, rfl⟩
    · next ht =>
        rw [ht]
        exact Option.map_eq_some_iff.mpr
          ⟨y', hfollow, congrArg (MatchCall.mk x' y') (Int.add_zero _).symm⟩
    · cases hfollow

theorem reflTransGen_matchCalls_iff (hm : g.graph.Mirrored) {k : ℤ} {c : MatchCall} :
    Relation.ReflTransGen (CallStep g.matchCalls fun _ ↦ True) ⟨x₀, y₀, k⟩ c ↔
      ∃ n, g.Corresponds x₀ y₀ c.funcParam c.callArg n ∧ c.derefCounter = k + n := by
  constructor
  · intro h
    induction h with
    | refl => exact ⟨0, .refl, (Int.add_zero k).symm⟩
    | tail _ hstep ih =>
      obtain ⟨n, hn, hcount⟩ := ih
      obtain ⟨p, hx, hy, hcount'⟩ := (mem_matchCalls hm).mp hstep.2
      exact ⟨n + p.derefs, hn.step hx hy, by rw [hcount', hcount]; push_cast; omega⟩
  · obtain ⟨x, y, m⟩ := c
    rintro ⟨n, hn, hcount⟩
    simp only at hn hcount
    subst hcount
    induction hn with
    | refl =>
      rw [Int.natCast_zero, Int.add_zero]
    | @step x y n x' y' p _ hx hy ih =>
      refine ih.tail ⟨trivial, (mem_matchCalls hm).mpr ⟨p, hx, hy, ?_⟩⟩
      push_cast
      omega

end PDG

/-! ## `matchSubnodes` -/

namespace TaintState

/-- What every step keeps: the graph only grows, and what was found stays found. -/
structure Progress (s s' : TaintState Val Fn) : Prop where
  wired : s.pdg.Wired → s'.pdg.Wired
  extension : PDG.Extends s.pdg s'.pdg
  found : s.somethingReachesIpc = true → s'.somethingReachesIpc = true

/-- The mark of `callArg` was taken over to `funcParam`. -/
def Copied (s s' : TaintState Val Fn) (c : MatchCall) : Prop :=
  0 ≤ c.derefCounter → s.pdg.Marked c.callArg →
    (s'.pdg.node c.funcParam).reachesIpcSink = true ∧ s'.somethingReachesIpc = true

variable {s s' s'' s₀ : TaintState Val Fn} {c : MatchCall} {v : ℕ}

theorem Progress.refl (s : TaintState Val Fn) : Progress s s := ⟨fun h ↦ h, .refl _, fun h ↦ h⟩

theorem Progress.trans (h : Progress s s') (h' : Progress s' s'') : Progress s s'' :=
  ⟨fun hs ↦ h'.wired (h.wired hs), h.extension.trans h'.extension, fun hs ↦ h'.found (h.found hs)⟩

theorem visit_cases (s : TaintState Val Fn) (c : MatchCall) :
    (0 ≤ c.derefCounter ∧ s.pdg.Marked c.callArg) ∧
        (s.visit c).pdg = s.pdg.setReaches c.funcParam ∧ (s.visit c).somethingReachesIpc = true ∨
      ¬ (0 ≤ c.derefCounter ∧ s.pdg.Marked c.callArg) ∧
        (s.visit c).pdg = s.pdg ∧
          (s.visit c).somethingReachesIpc = s.somethingReachesIpc := by
  unfold visit
  dsimp only
  split
  · next h => exact Or.inl ⟨h, rfl, rfl⟩
  · next h => exact Or.inr ⟨h, rfl, rfl⟩

theorem mapping_visit (s : TaintState Val Fn) (c : MatchCall) :
    (s.visit c).mapping = Function.update s.mapping c.funcParam (some c.callArg) := by
  unfold visit
  dsimp only
  split
  · rfl
  · rfl

theorem graph_visit (s : TaintState Val Fn) (c : MatchCall) :
    (∀ v, (s.visit c).pdg.graph.outEdges v = s.pdg.graph.outEdges v) ∧
      (s.visit c).pdg.graph.capacity = s.pdg.graph.capacity ∧
      (s.visit c).pdg.maxParts = s.pdg.maxParts := by
  rcases s.visit_cases c with ⟨-, hpdg, -⟩ | ⟨-, hpdg, -⟩
  · rw [hpdg]
    exact ⟨fun _ ↦ PDG.outEdges_setNode .., rfl, rfl⟩
  · rw [hpdg]
    exact ⟨fun _ ↦ rfl, rfl, rfl⟩

theorem matchCalls_visit (s : TaintState Val Fn) (c : MatchCall) :
    (s.visit c).pdg.matchCalls = s.pdg.matchCalls := by
  obtain ⟨hout, -, hparts⟩ := s.graph_visit c
  funext d
  unfold PDG.matchCalls PDG.getDerefOpt PDG.getPartOpt
  rw [hout, hout, hparts]

theorem unseenEdges_visit (s : TaintState Val Fn) (c : MatchCall) (seen : ℕ → Bool) :
    (s.visit c).pdg.unseenEdges seen = s.pdg.unseenEdges seen := by
  obtain ⟨hout, hcapacity, -⟩ := s.graph_visit c
  unfold PDG.unseenEdges
  rw [hcapacity]
  exact Finset.sum_congr rfl fun v _ ↦ by rw [hout]

theorem reaches_visit (h : (s.pdg.node v).reachesIpcSink = true) :
    ((s.visit c).pdg.node v).reachesIpcSink = true := by
  rcases s.visit_cases c with ⟨-, hpdg, -⟩ | ⟨-, hpdg, -⟩
  · rw [hpdg, PDG.setReaches, PDG.node_setNode]
    split
    · rfl
    · exact h
  · rw [hpdg]
    exact h

theorem marked_visit (h : s.pdg.Marked v) : (s.visit c).pdg.Marked v := by
  rcases h with h | h
  · refine Or.inl ?_
    rcases s.visit_cases c with ⟨-, hpdg, -⟩ | ⟨-, hpdg, -⟩
    · rw [hpdg, PDG.setReaches, PDG.node_setNode]
      split
      · next heq => exact heq ▸ h
      · exact h
    · rw [hpdg]
      exact h
  · exact Or.inr (reaches_visit h)

theorem found_visit (h : s.somethingReachesIpc = true) :
    (s.visit c).somethingReachesIpc = true := by
  rcases s.visit_cases c with ⟨-, -, hfound⟩ | ⟨-, -, hfound⟩
  · exact hfound
  · exact hfound.trans h

theorem progress_visit (s : TaintState Val Fn) (c : MatchCall) : Progress s (s.visit c) := by
  refine ⟨fun hs ↦ ?_, ?_, found_visit⟩
  · rcases s.visit_cases c with ⟨-, hpdg, -⟩ | ⟨-, hpdg, -⟩
    · rw [hpdg]
      exact hs.setNode ..
    · rw [hpdg]
      exact hs
  · rcases s.visit_cases c with ⟨-, hpdg, -⟩ | ⟨-, hpdg, -⟩
    · rw [hpdg]
      exact PDG.extends_setReaches ..
    · rw [hpdg]
      exact .refl _

theorem Copied.visit {d : MatchCall} (h : Copied s₀ s d) (c : MatchCall) :
    Copied s₀ (s.visit c) d :=
  fun hcount hmark ↦ (h hcount hmark).imp reaches_visit found_visit

theorem copied_visit (hmark : ∀ v, s₀.pdg.Marked v → s.pdg.Marked v) (c : MatchCall) :
    Copied s₀ (s.visit c) c := by
  intro hcount hmarked
  rcases s.visit_cases c with ⟨-, hpdg, hfound⟩ | ⟨hnot, -⟩
  · refine ⟨?_, hfound⟩
    rw [hpdg, PDG.setReaches, PDG.node_setNode, if_pos rfl]
  · exact absurd ⟨hcount, hmark _ hmarked⟩ hnot

/-- The search for what corresponds has visited `visited`, and still has to make `calls`. -/
abbrev Matching (g : PDG Val Fn) (start : MatchCall) (calls visited : List MatchCall) : Prop :=
  Searched MatchCall.funcParam g.matchCalls (fun _ ↦ True) (fun _ ↦ True) start calls visited

/-- What holds during the loop: the search for what corresponds is in progress, the marks of what
has been visited are taken over, and `mapping` has what has been visited. -/
structure Visiting (s₀ s : TaintState Val Fn) (start : MatchCall) (calls visited : List MatchCall) :
    Prop where
  wired : s.pdg.Wired
  matchCalls : s.pdg.matchCalls = s₀.pdg.matchCalls
  marked : ∀ v, s₀.pdg.Marked v → s.pdg.Marked v
  search : Matching s₀.pdg start calls visited
  copied : ∀ c ∈ visited, Copied s₀ s c
  mapping : ∀ v, (s.mapping v).isSome = true ↔ v ∈ visited.map MatchCall.funcParam

namespace Visiting

variable {start c : MatchCall} {calls visited : List MatchCall}

theorem skip (h : Visiting s₀ s start (c :: calls) visited)
    (hseen : (s.mapping c.funcParam).isSome = true) : Visiting s₀ s start calls visited where
  wired := h.wired
  matchCalls := h.matchCalls
  marked := h.marked
  search := h.search.skip ⟨trivial, fun _ ↦ (h.mapping _).mp hseen⟩
  copied := h.copied
  mapping := h.mapping

theorem isSome_mapping_visit (s : TaintState Val Fn) (c : MatchCall) :
    (fun v ↦ ((s.visit c).mapping v).isSome) =
      Function.update (fun v ↦ (s.mapping v).isSome) c.funcParam true := by
  funext v
  rw [mapping_visit]
  by_cases hv : v = c.funcParam
  · rw [hv, Function.update_self, Function.update_self]
    rfl
  · rw [Function.update_of_ne hv, Function.update_of_ne hv]

theorem visit (h : Visiting s₀ s start (c :: calls) visited)
    (hnew : ¬ (s.mapping c.funcParam).isSome = true) :
    Visiting s₀ (s.visit c) start ((s.visit c).pdg.matchCalls c ++ calls) (c :: visited) where
  wired := (progress_visit s c).wired h.wired
  matchCalls := (s.matchCalls_visit c).trans h.matchCalls
  marked v hv := marked_visit (h.marked v hv)
  search := by
    rw [matchCalls_visit, h.matchCalls]
    exact h.search.expand trivial trivial fun hmem ↦ hnew ((h.mapping _).mpr hmem)
  copied := List.forall_mem_cons.mpr
    ⟨copied_visit h.marked c, fun d hd ↦ (h.copied d hd).visit c⟩
  mapping v := by
    rw [congrFun (isSome_mapping_visit s c) v, List.map_cons, List.mem_cons]
    by_cases hv : v = c.funcParam
    · simp [hv]
    · rw [Function.update_of_ne hv, h.mapping]
      exact (or_iff_right hv).symm

theorem visit_lt (hs : s.pdg.Wired) (hnew : ¬ (s.mapping c.funcParam).isSome = true) :
    ((s.visit c).pdg.matchCalls c ++ calls).length +
        (s.visit c).pdg.unseenEdges (fun v ↦ ((s.visit c).mapping v).isSome) <
      (c :: calls).length + s.pdg.unseenEdges (fun v ↦ (s.mapping v).isSome) := by
  have hsum := PDG.unseenEdges_update hs.inside (fun v ↦ (s.mapping v).isSome)
    (Bool.not_eq_true _ ▸ hnew)
  have hlen : (s.pdg.matchCalls c).length ≤ (s.pdg.graph.outEdges c.funcParam).length :=
    List.length_filterMap_le ..
  rw [matchCalls_visit, isSome_mapping_visit, unseenEdges_visit, List.length_append,
    List.length_cons]
  omega

end Visiting

/-- **The loop ends**, and has taken over the marks of what it has visited. -/
theorem matchLoop_spec {rounds : ℕ} {start : MatchCall} {calls visited : List MatchCall}
    (h : Visiting s₀ s start calls visited)
    (hrounds : calls.length + s.pdg.unseenEdges (fun v ↦ (s.mapping v).isSome) < rounds) :
    ∃ s' visited', s.matchLoop rounds calls = some s' ∧ Progress s s' ∧
      Visiting s₀ s' start [] visited' := by
  induction rounds generalizing s calls visited with
  | zero => exact absurd hrounds (Nat.not_lt_zero _)
  | succ rounds ih =>
    cases calls with
    | nil => exact ⟨s, visited, rfl, .refl s, h⟩
    | cons c calls =>
      rw [matchLoop]
      split
      · next hseen =>
          rw [List.length_cons] at hrounds
          exact ih (h.skip hseen) (by omega)
      · next hnew =>
          have hlt := (Visiting.visit_lt h.wired hnew).trans_le
            (Nat.lt_succ_iff.mp hrounds)
          obtain ⟨s', visited', hloop, hprogress, hend⟩ := ih (h.visit hnew) hlt
          exact ⟨s', visited', hloop, (progress_visit s c).trans hprogress, hend⟩

/-- `matchSubnodes`, with nothing in `mapping`. -/
theorem matchSubnodes_spec (hs : s.pdg.Wired) (hmap : ∀ v, s.mapping v = none) (c : MatchCall) :
    ∃ s' visited, s.matchSubnodes c = some s' ∧ Progress s s' ∧ Visiting s s' c [] visited := by
  have hstart : Visiting s s c [c] [] :=
    { wired := hs
      matchCalls := rfl
      marked := fun _ h ↦ h
      search := .init
      copied := fun _ hc ↦ absurd hc List.not_mem_nil
      mapping := fun v ↦ by
        rw [hmap v]
        exact ⟨fun h ↦ absurd h Bool.false_ne_true, fun h ↦ absurd h List.not_mem_nil⟩ }
  refine matchLoop_spec hstart ?_
  rw [List.length_singleton]
  omega

variable {g : PDG Val Fn} {x₀ y₀ required : ℕ}

theorem Progress.completed (h : Progress s s') (hg : g.Wired) (hext : PDG.Extends g s.pdg)
    (hrequired : 0 < required)
    (hc : g.Completed s.pdg (s.somethingReachesIpc = true) x₀ y₀ required) :
    g.Completed s'.pdg (s'.somethingReachesIpc = true) x₀ y₀ required := by
  intro x y n hpath hle hmark
  obtain ⟨hreach, hfound⟩ := hc x y n hpath hle hmark
  rcases hpath.live hg with ⟨-, -, hzero⟩ | ⟨-, hx, -⟩
  · omega
  · exact ⟨h.extension.reaches x (hext.live x hx) hreach, h.found hfound⟩

/-- **All marks are taken over** if what corresponds to the same vertex of the function looks
alike: then it does not matter which of it the search visits. -/
theorem completed_of_alike (hg : g.Wired) (hext : PDG.Extends g s.pdg) (hs : s.pdg.Wired)
    (hrequired : 0 < required) (halike : g.Alike x₀ y₀ required) {visited : List MatchCall}
    (hvisiting : Visiting s s' ⟨x₀, y₀, -required⟩ [] visited) :
    g.Completed s'.pdg (s'.somethingReachesIpc = true) x₀ y₀ required := by
  intro x y n hpath hle hmark
  have hstart : g.Live x₀ ∧ g.Live y₀ := by
    rcases hpath.live hg with ⟨-, -, hzero⟩ | ⟨hstart, -⟩
    · omega
    · exact hstart
  have hlive : ∀ {x y n}, g.Corresponds x₀ y₀ x y n → g.Live x ∧ g.Live y := by
    intro x y n h
    rcases h.live hg with ⟨rfl, rfl, -⟩ | ⟨-, hxy⟩
    · exact hstart
    · exact hxy
  have hreach : ∀ {c : MatchCall}, Relation.ReflTransGen (CallStep s.pdg.matchCalls fun _ ↦ True)
      ⟨x₀, y₀, -required⟩ c ↔ ∃ n : ℕ, g.Corresponds x₀ y₀ c.funcParam c.callArg n ∧
        c.derefCounter = -required + n := by
    intro c
    simp only [PDG.reflTransGen_matchCalls_iff hs.mirrored,
      hext.corresponds_iff hg hstart.1 hstart.2]
  have hkeys : ∀ c c' d : MatchCall,
      Relation.ReflTransGen (CallStep s.pdg.matchCalls fun _ ↦ True) ⟨x₀, y₀, -required⟩ c →
      Relation.ReflTransGen (CallStep s.pdg.matchCalls fun _ ↦ True) ⟨x₀, y₀, -required⟩ c' →
      c.funcParam = c'.funcParam → d ∈ s.pdg.matchCalls c →
        ∃ d' ∈ s.pdg.matchCalls c', d'.funcParam = d.funcParam := by
    intro c c' d hc hc' hkey hd
    obtain ⟨n, hn, -⟩ := hreach.mp hc
    obtain ⟨n', hn', -⟩ := hreach.mp hc'
    obtain ⟨p, hx, hy, -⟩ := (PDG.mem_matchCalls hs.mirrored).mp hd
    rw [hext.hasEdge_iff (hlive hn).1] at hx
    rw [hext.follow (hlive hn).2] at hy
    have hsome := (halike _ _ n _ n' hn (hkey ▸ hn')).2 p d.funcParam hx (by rw [hy]; rfl)
    obtain ⟨y', hy'⟩ := Option.isSome_iff_exists.mp hsome
    refine ⟨⟨d.funcParam, y', c'.derefCounter + p.derefs⟩,
      (PDG.mem_matchCalls hs.mirrored).mpr ⟨p, ?_, ?_, rfl⟩, rfl⟩
    · rw [hext.hasEdge_iff (hlive hn').1, ← hkey]
      exact hx
    · rw [hext.follow (hlive hn').2]
      exact hy'
  have hcall : Relation.ReflTransGen (CallStep s.pdg.matchCalls fun _ ↦ True)
      ⟨x₀, y₀, -required⟩ ⟨x, y, -required + n⟩ := hreach.mpr ⟨n, hpath, rfl⟩
  obtain ⟨c, hc, hkey⟩ :=
    List.mem_map.mp (hvisiting.search.called_key hkeys (fun _ ↦ trivial) hcall)
  obtain ⟨n', hn', hcount⟩ := hreach.mp (hvisiting.search.depthFirst.reached c hc).2
  simp only at hkey
  rw [hkey] at hn'
  obtain ⟨hle', hmark'⟩ := (halike x y n _ n' hpath hn').1 ⟨hle, hmark⟩
  rw [← hkey]
  exact hvisiting.copied c hc (by omega) (hext.marked (hlive hn').2 hmark')

/-- The marks behind `y₀` were taken over to what is behind `x₀`, if it looks alike. -/
def Matched (g : PDG Val Fn) (s : TaintState Val Fn) (x₀ y₀ required : ℕ) : Prop :=
  g.Alike x₀ y₀ required → g.Completed s.pdg (s.somethingReachesIpc = true) x₀ y₀ required

/-- One match, in a graph that has grown from `g`. -/
theorem matchSubnodes_completed (s : TaintState Val Fn) (x₀ y₀ : ℕ) (k : ℤ)
    (hg : g.Wired) (hext : PDG.Extends g s.pdg) (hs : s.pdg.Wired)
    (hmap : ∀ v, s.mapping v = none) (hrequired : 0 < required) (hk : k = -required) :
    ∃ s', s.matchSubnodes ⟨x₀, y₀, k⟩ = some s' ∧ Progress s s' ∧ Matched g s' x₀ y₀ required := by
  subst hk
  obtain ⟨s', visited, hmatch, hprogress, hvisiting⟩ :=
    matchSubnodes_spec hs hmap ⟨x₀, y₀, -required⟩
  exact ⟨s', hmatch, hprogress, fun halike ↦
    completed_of_alike hg hext hs hrequired halike hvisiting⟩

/-! ## The arguments and the result -/

theorem progress_clear (s : TaintState Val Fn) : Progress s s.clear :=
  ⟨fun h ↦ h, .refl _, fun h ↦ h⟩

theorem matchParamEdges_spec (old : OldFunction Fn) (vFunc : ℕ) (es : List (Edge PDGEdge))
    (hg : g.Wired) (hs : s.pdg.Wired) (hext : PDG.Extends g s.pdg) :
    ∃ s', s.matchParamEdges old vFunc es = some s' ∧ Progress s s' ∧
      ∀ e ∈ es, e.property.type = .param →
        ∀ x, g.getParamOpt vFunc (old.paramIndex e.property.index) = some x →
          Matched g s' x e.source 2 := by
  induction es generalizing s with
  | nil => exact ⟨s, rfl, .refl s, fun _ he ↦ absurd he List.not_mem_nil⟩
  | cons e es ih =>
    rw [matchParamEdges]
    split
    · next ht =>
        obtain ⟨s', hloop, hprogress, hrest⟩ := ih hs hext
        refine ⟨s', hloop, hprogress, List.forall_mem_cons.mpr ⟨?_, hrest⟩⟩
        exact fun ht' ↦ absurd ht' ht
    · dsimp only
      split
      · next vFuncParam hparam =>
          obtain ⟨s₁, hmatch, hprogress₁, hfirst⟩ :=
            matchSubnodes_completed s.clear vFuncParam e.source (-2) hg hext hs (fun _ ↦ rfl)
              Nat.two_pos rfl
          have hext₁ := hext.trans hprogress₁.extension
          obtain ⟨s', hloop, hprogress, hrest⟩ := ih (hprogress₁.wired hs) hext₁
          refine ⟨s', ?_, (s.progress_clear.trans hprogress₁).trans hprogress,
            List.forall_mem_cons.mpr ⟨fun _ x hx halike ↦ ?_, hrest⟩⟩
          · rw [hmatch]
            exact hloop
          · have heq := hparam.symm.trans (hext.getParamOpt_eq_some hg hx)
            cases heq
            exact hprogress.completed hg hext₁ Nat.two_pos (hfirst halike)
      · next hparam =>
          obtain ⟨s', hloop, hprogress, hrest⟩ := ih (s := s.clear) hs hext
          refine ⟨s', hloop, s.progress_clear.trans hprogress,
            List.forall_mem_cons.mpr ⟨fun _ x hx _ ↦ ?_, hrest⟩⟩
          cases hparam.symm.trans (hext.getParamOpt_eq_some hg hx)

variable [DecidableEq Fn] [DecidableEq Val]

theorem getVertex_progress (llvm : Llvm Val Fn) (value : Val) (function : Option Fn)
    (hs : s.pdg.Wired) : Progress s (s.getVertex llvm value function).2 :=
  let h := PDG.getVertex_spec llvm value function hs
  ⟨fun _ ↦ h.1, h.2, fun h ↦ h⟩

theorem matchSubnodes_getVertex (llvm : Llvm Val Fn) (value : Val) (function : Option Fn) (x₀ : ℕ)
    (k : ℤ) (hg : g.Wired) (hext : PDG.Extends g s.pdg) (hs : s.pdg.Wired)
    (hmap : ∀ v, s.mapping v = none) (hrequired : 0 < required) (hk : k = -required) :
    ∃ s', (s.getVertex llvm value function).2.matchSubnodes
        ⟨x₀, (s.getVertex llvm value function).1, k⟩ = some s' ∧ Progress s s' ∧
      ∀ y, g.valueToVertex value = some y → Matched g s' x₀ y required := by
  have hvertex := getVertex_progress llvm value function hs
  obtain ⟨s', hmatch, hprogress, hcompleted⟩ :=
    matchSubnodes_completed (s.getVertex llvm value function).2 x₀
      (s.getVertex llvm value function).1 k hg (hext.trans hvertex.extension)
      (hvertex.wired hs) hmap hrequired hk
  refine ⟨s', hmatch, hvertex.trans hprogress, fun y hy halike ↦ ?_⟩
  have hy' : (s.getVertex llvm value function).1 = y :=
    PDG.getVertex_fst (hext.valueToVertex value y hy)
  rw [hy'] at hcompleted
  exact hcompleted halike

/-- The marks behind an argument were taken over to the parameter. -/
def ArgMatched (g : PDG Val Fn) (old : OldFunction Fn) (vFunc : ℕ) (s : TaintState Val Fn) (i : ℕ)
    (arg : Val) : Prop :=
  ∀ x, g.getParamOpt vFunc (old.paramIndex i) = some x → ∀ y, g.valueToVertex arg = some y →
    Matched g s x y 2

theorem matchArgs_spec (llvm : Llvm Val Fn) (old : OldFunction Fn) (vFunc : ℕ)
    (function : Option Fn) (i : ℕ) (args : List Val) (hg : g.Wired) (hs : s.pdg.Wired)
    (hext : PDG.Extends g s.pdg) :
    ∃ s', matchArgs llvm old vFunc function i args s = some s' ∧ Progress s s' ∧
      ∀ j arg, args[j]? = some arg → ArgMatched g old vFunc s' (i + j) arg := by
  induction args generalizing i s with
  | nil => exact ⟨s, rfl, .refl s, fun j _ hj ↦ absurd hj (by simp)⟩
  | cons arg args ih =>
    rw [matchArgs]
    dsimp only
    -- the argument itself, and the ones after it
    have hcases : ∀ {s' : TaintState Val Fn}, ArgMatched g old vFunc s' i arg →
        (∀ j arg, args[j]? = some arg → ArgMatched g old vFunc s' (i + 1 + j) arg) →
        ∀ j a, (arg :: args)[j]? = some a → ArgMatched g old vFunc s' (i + j) a := by
      intro s' hfirst hrest j a hj
      cases j with
      | zero =>
        cases hj
        exact hfirst
      | succ j =>
        rw [← Nat.add_assoc, Nat.add_right_comm]
        exact hrest j a hj
    split
    · next vFuncParam hparam =>
        obtain ⟨s₁, hmatch, hprogress₁, hfirst⟩ := matchSubnodes_getVertex (s := s.clear) llvm
          arg function vFuncParam (-2) hg hext hs (fun _ ↦ rfl) Nat.two_pos rfl
        have hext₁ := hext.trans hprogress₁.extension
        obtain ⟨s', hloop, hprogress, hrest⟩ := ih (i + 1) (hprogress₁.wired hs) hext₁
        refine ⟨s', ?_, (s.progress_clear.trans hprogress₁).trans hprogress,
          hcases (fun x hx y hy halike ↦ ?_) hrest⟩
        · rw [hmatch]
          exact hloop
        · cases hparam.symm.trans (hext.getParamOpt_eq_some hg hx)
          exact hprogress.completed hg hext₁ Nat.two_pos (hfirst y hy halike)
    · next hparam =>
        obtain ⟨s', hloop, hprogress, hrest⟩ := ih (s := s.clear) (i + 1) hs hext
        refine ⟨s', hloop, s.progress_clear.trans hprogress, hcases (fun x hx ↦ ?_) hrest⟩
        cases hparam.symm.trans (hext.getParamOpt_eq_some hg hx)

end TaintState

namespace PDG

/-- The result or a parameter of the function, what belongs to it at the call, and the number of
pointers from which on marks count.  Values without a vertex have nothing marked behind them. -/
inductive CallStart (g : PDG Val Fn) (site : CallSite Val Fn) (old : OldFunction Fn)
    (newFunction : Val) : ℕ → ℕ → ℕ → Prop
  | result {vFunc x y : ℕ} (hfunc : g.valueToVertex newFunction = some vFunc)
      (hx : g.getReturnOpt vFunc = some x) (hy : g.valueToVertex site.call = some y) :
      CallStart g site old newFunction x y 1
  | param {vFunc x y i : ℕ} {arg : Val} (hfunc : g.valueToVertex newFunction = some vFunc)
      (harg : site.args[i]? = some arg) (hx : g.getParamOpt vFunc (old.paramIndex i) = some x)
      (hy : g.valueToVertex arg = some y) : CallStart g site old newFunction x y 2

/-- The same for a vertex that stands for a call. -/
inductive VertexStart (g : PDG Val Fn) (callVertex : ℕ) (old : OldFunction Fn)
    (newFunction : Val) : ℕ → ℕ → ℕ → Prop
  | result {vFunc x : ℕ} (hfunc : g.valueToVertex newFunction = some vFunc)
      (hx : g.getReturnOpt vFunc = some x) : VertexStart g callVertex old newFunction x callVertex 1
  | param {vFunc x : ℕ} {e : Edge PDGEdge} (hfunc : g.valueToVertex newFunction = some vFunc)
      (he : e ∈ g.graph.inEdges callVertex) (ht : e.property.type = .param)
      (hx : g.getParamOpt vFunc (old.paramIndex e.property.index) = some x) :
      VertexStart g callVertex old newFunction x e.source 2

variable {g : PDG Val Fn} [DecidableEq Fn] [DecidableEq Val]

omit [DecidableEq Fn] [DecidableEq Val] in
/-- What the match of the results does, if it does it for the result of the function. -/
theorem match_result {s : TaintState Val Fn} {v : ℕ} {next : ℕ → Option (TaintState Val Fn)}
    {P : TaintState Val Fn → ℕ → Prop} (hg : g.Wired) (hext : g.Extends s.pdg)
    (hnext : ∀ x, ∃ s₁, next x = some s₁ ∧ s.Progress s₁ ∧ P s₁ x) :
    ∃ s₁, (match s.pdg.getReturnOpt v with
        | some x => next x
        | none => some s) = some s₁ ∧ s.Progress s₁ ∧ ∀ x, g.getReturnOpt v = some x → P s₁ x := by
  split
  · next x hret =>
      obtain ⟨s₁, hmatch, hprogress, hP⟩ := hnext x
      refine ⟨s₁, hmatch, hprogress, fun x hx ↦ ?_⟩
      cases hret.symm.trans (hext.getReturnOpt_eq_some hg hx)
      exact hP
  · next hret =>
      refine ⟨s, rfl, .refl s, fun x hx ↦ ?_⟩
      cases hret.symm.trans (hext.getReturnOpt_eq_some hg hx)

theorem matchAndPropagateTaint_spec (llvm : Llvm Val Fn) (hg : g.Wired) (site : CallSite Val Fn)
    (newCalls : List Val) (old : OldFunction Fn) (newFunction : Val)
    (hcalled : site.calledFunction = some old.function) :
    ∃ g' newCalls',
      g.matchAndPropagateTaint llvm site newCalls old newFunction = some (g', newCalls') ∧
        ∀ x y required, g.CallStart site old newFunction x y required → g.Alike x y required →
          g.Completed g' (newCalls' = newCalls ++ [site.call]) x y required := by
  obtain ⟨hwired, hext⟩ := getVertex_spec llvm newFunction none hg
  let s : TaintState Val Fn := ⟨(g.getVertex llvm newFunction none).2, fun _ ↦ none, false⟩
  let vFunc := (g.getVertex llvm newFunction none).1
  have hfunc : ∀ {v}, g.valueToVertex newFunction = some v → vFunc = v := getVertex_fst
  obtain ⟨s₁, hmatched, hprogress₁, hresult⟩ := match_result (s := s) (v := vFunc) hg hext
    fun x ↦ TaintState.matchSubnodes_getVertex (s := s) llvm site.call none x (-1) hg hext hwired
      (fun _ ↦ rfl) Nat.one_pos rfl
  have hext₁ := hext.trans hprogress₁.extension
  obtain ⟨s₂, hargs, hprogress₂, hparams⟩ :=
    TaintState.matchArgs_spec llvm old vFunc site.function 0 site.args hg
      (hprogress₁.wired hwired) hext₁
  refine ⟨s₂.pdg, if s₂.somethingReachesIpc then newCalls ++ [site.call] else newCalls, ?_, ?_⟩
  · unfold matchAndPropagateTaint
    rw [if_neg (not_not.mpr hcalled)]
    change (Option.bind _ _).map _ = _
    rw [hmatched, Option.bind_some, hargs]
    rfl
  · intro x y required hstart halike x' y' n hpath hle hmark
    have hcompleted : g.Completed s₂.pdg (s₂.somethingReachesIpc = true) x y required := by
      cases hstart with
      | result hv hx hy =>
        exact hprogress₂.completed hg hext₁ Nat.one_pos
          (hresult x (hfunc hv ▸ hx) y hy halike)
      | param hv harg hx hy =>
        refine hparams _ _ harg x ?_ y hy halike
        rw [Nat.zero_add, hfunc hv]
        exact hx
    obtain ⟨hreach, hfound⟩ := hcompleted x' y' n hpath hle hmark
    exact ⟨hreach, if_pos hfound⟩

theorem matchAndPropagateTaintGraphwise_spec (llvm : Llvm Val Fn) (hg : g.Wired) (callVertex : ℕ)
    (old : OldFunction Fn) (newFunction : Val) :
    ∃ g' selected,
      g.matchAndPropagateTaintGraphwise llvm callVertex old newFunction = some (g', selected) ∧
        ∀ x y required, g.VertexStart callVertex old newFunction x y required →
          g.Alike x y required → g.Completed g' (selected = true) x y required := by
  obtain ⟨hwired, hext⟩ := getVertex_spec llvm newFunction none hg
  let s : TaintState Val Fn := ⟨(g.getVertex llvm newFunction none).2, fun _ ↦ none, false⟩
  let vFunc := (g.getVertex llvm newFunction none).1
  have hfunc : ∀ {v}, g.valueToVertex newFunction = some v → vFunc = v := getVertex_fst
  obtain ⟨s₁, hmatched, hprogress₁, hresult⟩ := match_result (s := s) (v := vFunc) hg hext
    fun x ↦ TaintState.matchSubnodes_completed s x callVertex (-1) hg hext hwired (fun _ ↦ rfl)
      Nat.one_pos rfl
  have hext₁ := hext.trans hprogress₁.extension
  obtain ⟨s₂, hparams, hprogress₂, hedges⟩ := TaintState.matchParamEdges_spec old vFunc
    (s₁.pdg.graph.inEdges callVertex) hg (hprogress₁.wired hwired) hext₁
  refine ⟨s₂.pdg, s₂.somethingReachesIpc, ?_, ?_⟩
  · unfold matchAndPropagateTaintGraphwise
    change (Option.bind _ _).map _ = _
    rw [hmatched, Option.bind_some, hparams]
    rfl
  · intro x y required hstart halike
    cases hstart with
    | result hv hx =>
      exact hprogress₂.completed hg hext₁ Nat.one_pos (hresult x (hfunc hv ▸ hx) halike)
    | @param vFunc' x e hv he ht hx =>
      have hlive := (hg.live _ _ _ (hg.mirrored.mem_inEdges_iff_hasEdge.mp he).2).2
      rw [← hext₁.inEdges callVertex hlive] at he
      exact hedges e he ht x (hfunc hv ▸ hx) halike

/-- Nothing is asked about values that have a vertex. -/
def noTypes : Llvm Bool Unit := ⟨fun _ ↦ none, fun _ ↦ none, fun _ ↦ false, fun _ ↦ .other,
  fun _ ↦ .other⟩

/-- A function without parameters. -/
def noParameters : OldFunction Unit := ⟨(), false, 0⟩

/-- A call of the function. -/
def callOfIt : CallSite Bool Unit := ⟨false, some (), some (), []⟩

/-- The vertices of the function and of the call. -/
def functionAndCall (call : ℕ) : Bool → Option ℕ
  | true => some 0
  | false => some call

/-- A graph that is given by its edges, with one vertex that is shared. -/
def sharedGraph (n : ℕ) (es : List (Edge PDGEdge)) (shared call : ℕ) : PDG Bool Unit :=
  { (ofEdges n es).setNode shared { ipcsink := true } with valueToVertex := functionAndCall call }

theorem wired_sharedGraph {n shared call : ℕ} {es : List (Edge PDGEdge)}
    (hes : ∀ e ∈ es, e.source < n ∧ e.target < n) : (sharedGraph n es shared call).Wired :=
  let h := (wired_ofEdges hes : (ofEdges n es : PDG Bool Unit).Wired).setNode shared
    { ipcsink := true }
  ⟨h.slots, h.mirrored, h.live⟩

/-- The function 0 returns a pointer 1 to 2; the result 3 of the call points to 4, which is
shared. -/
def returnsPointer : PDG Bool Unit :=
  sharedGraph 5 [⟨0, 1, ⟨.return, 0⟩⟩, ⟨1, 2, ⟨.deref, 0⟩⟩, ⟨3, 4, ⟨.deref, 0⟩⟩] 4 3

theorem wired_returnsPointer : returnsPointer.Wired := wired_sharedGraph (by decide)

theorem corresponds_returnsPointer {x y n : ℕ} (h : returnsPointer.Corresponds 1 3 x y n) :
    x = 1 ∧ y = 3 ∧ n = 0 ∨ x = 2 ∧ y = 4 ∧ n = 1 := by
  have hedge : ∀ {u p w}, returnsPointer.HasEdge u p w →
      u = 0 ∧ w = 1 ∧ p = ⟨.return, 0⟩ ∨ u = 1 ∧ w = 2 ∧ p = ⟨.deref, 0⟩ ∨
        u = 3 ∧ w = 4 ∧ p = ⟨.deref, 0⟩ := by
    intro u p w he
    have hmem := hasEdge_ofEdges.mp ((hasEdge_setNode ..).mp he)
    simpa only [List.mem_cons, Edge.mk.injEq, List.not_mem_nil, or_false] using hmem
  induction h with
  | refl => exact Or.inl ⟨rfl, rfl, rfl⟩
  | step _ hx hy ih =>
    rcases ih with ⟨rfl, rfl, rfl⟩ | ⟨rfl, rfl, rfl⟩
    · rcases hedge hx with ⟨hu, -⟩ | ⟨-, rfl, rfl⟩ | ⟨hu, -⟩
      · omega
      · exact Or.inr ⟨rfl, (Option.some.inj hy).symm, rfl⟩
      · omega
    · rcases hedge hx with ⟨hu, -⟩ | ⟨hu, -⟩ | ⟨hu, -⟩
      all_goals omega

theorem alike_returnsPointer : returnsPointer.Alike 1 3 1 := by
  intro x y n y' n' h h'
  have heq : y = y' ∧ n = n' := by
    have hcases := corresponds_returnsPointer h
    have hcases' := corresponds_returnsPointer h'
    omega
  obtain ⟨rfl, rfl⟩ := heq
  exact ⟨fun hmark ↦ hmark, fun _ _ _ hsome ↦ hsome⟩

/-- The function 0 returns a struct 1 with two pointers 2 and 3 to the same vertex 4; the
pointers 6 and 7 in the result 5 of the call have their own vertices, and the second one, 9, is
shared. -/
def returnsPair : PDG Bool Unit :=
  sharedGraph 10 [⟨0, 1, ⟨.return, 0⟩⟩, ⟨1, 2, ⟨.part, 0⟩⟩, ⟨1, 3, ⟨.part, 1⟩⟩, ⟨2, 4, ⟨.deref, 0⟩⟩,
    ⟨3, 4, ⟨.deref, 0⟩⟩, ⟨5, 6, ⟨.part, 0⟩⟩, ⟨5, 7, ⟨.part, 1⟩⟩, ⟨6, 8, ⟨.deref, 0⟩⟩,
    ⟨7, 9, ⟨.deref, 0⟩⟩] 9 5

end PDG

end Cali.Passes
