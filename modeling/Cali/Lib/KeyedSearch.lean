import Mathlib.Data.List.Nodup
import Mathlib.Logic.Relation

/-!
# Searches that remember less than they carry

A depth-first search hands a configuration from call to call, for instance a vertex
together with a counter, but remembers only the keys of the configurations that it has
expanded, for instance the vertices.  What it has done at some point is the list of the
calls that are still to be made and the list of the configurations it has expanded.

The first configuration that is met hides the others with its key.  The orders in which
configurations can be expanded are the depth-first orders: each one is called by the latest
one that is not exhausted.  A search follows such an order if all calls are sorted by it.
-/

namespace Cali.Lib

open Relation

universe u v

section Search

variable {σ : Type u} {κ : Type v} (key : σ → κ) (step : σ → σ → Prop) (next : σ → List σ)
  (enter tested made : σ → Prop) (start : σ)

/-- A configuration that is admitted leads to the calls made for it. -/
def CallStep (c d : σ) : Prop := enter c ∧ d ∈ next c

/-- The call for `d` was made: it was tested, and if it is admitted, a configuration with
its key has been expanded. -/
def Called (visited : List σ) (d : σ) : Prop := tested d ∧ (enter d → key d ∈ visited.map key)

open Classical in
/-- The first configuration that leads to one that is admitted and whose key is new. -/
noncomputable def latest (visited : List σ) : Option σ :=
  visited.find? fun c ↦ ∃ d, step c d ∧ enter d ∧ key d ∉ visited.map key

/-- An order in which a depth-first search can expand configurations with distinct keys, the
last one first: the latest one that leads to something new leads to the next one. -/
inductive DepthFirst : List σ → Prop
  | nil : DepthFirst []
  | start (henter : enter start) : DepthFirst [start]
  | step {visited : List σ} {c d : σ} (h : DepthFirst visited)
      (hlatest : latest key step enter visited = some c) (hstep : step c d) (henter : enter d)
      (hnew : key d ∉ visited.map key) : DepthFirst (d :: visited)

/-- The calls that are still to be made are those of the expanded configurations, of the last
one first, apart from the first calls of each, which were made. -/
inductive Frames : List σ → List σ → Prop
  | init : Frames [start] []
  | bottom (h : made start) : Frames [] []
  | frame {calls visited first rest : List σ} {c : σ} (h : Frames calls visited)
      (hnext : next c = first ++ rest) (hfirst : ∀ d ∈ first, made d) :
      Frames (rest ++ calls) (c :: visited)

/-- A search from `start` has expanded `visited` and still has to make `calls`. -/
inductive Searched : List σ → List σ → Prop
  | init : Searched [start] []
  | skip {calls visited : List σ} {c : σ} (h : Searched (c :: calls) visited)
      (hc : Called key enter tested visited c) : Searched calls visited
  | expand {calls visited : List σ} {c : σ} (h : Searched (c :: calls) visited) (htest : tested c)
      (henter : enter c) (hnew : key c ∉ visited.map key) :
      Searched (next c ++ calls) (c :: visited)

end Search

variable {σ : Type u} {κ : Type v} {key : σ → κ} {step : σ → σ → Prop} {next : σ → List σ}
  {enter tested made : σ → Prop} {start c d : σ} {calls visited order : List σ}

namespace DepthFirst

theorem reached (h : DepthFirst key step enter start visited) :
    ∀ c ∈ visited, enter c ∧ ReflTransGen step start c := by
  induction h with
  | nil => exact fun _ hc ↦ absurd hc List.not_mem_nil
  | start henter =>
    intro c hc
    rw [List.mem_singleton.mp hc]
    exact ⟨henter, .refl⟩
  | step _ hlatest hstep henter _ ih =>
    intro x hx
    rcases List.mem_cons.mp hx with rfl | hx
    · exact ⟨henter, (ih _ (List.mem_of_find?_eq_some hlatest)).2.tail hstep⟩
    · exact ih x hx

theorem start_mem (h : DepthFirst key step enter start visited) (hc : c ∈ visited) :
    start ∈ visited := by
  induction h generalizing c with
  | nil => exact absurd hc List.not_mem_nil
  | start => exact List.mem_cons_self
  | step _ hlatest _ _ _ ih =>
    exact List.mem_cons_of_mem _ (ih (List.mem_of_find?_eq_some hlatest))

theorem nodup (h : DepthFirst key step enter start visited) : (visited.map key).Nodup := by
  induction h with
  | nil => exact List.nodup_nil
  | start => exact List.nodup_singleton _
  | step _ _ _ _ hnew ih => exact List.nodup_cons.mpr ⟨hnew, ih⟩

theorem of_append (h : DepthFirst key step enter start (calls ++ visited)) :
    DepthFirst key step enter start visited := by
  induction calls with
  | nil => exact h
  | cons c calls ih =>
    refine ih ?_
    cases hrest : calls ++ visited with
    | nil => exact .nil
    | cons x xs =>
      rw [List.cons_append, hrest] at h
      cases h with
      | step h => exact h

end DepthFirst

namespace Frames

theorem mono {made' : σ → Prop} (h : Frames next made start calls visited)
    (hmade : ∀ d, made d → made' d) : Frames next made' start calls visited := by
  induction h with
  | init => exact .init
  | bottom h => exact .bottom (hmade _ h)
  | frame _ hnext hfirst ih => exact .frame ih hnext fun d hd ↦ hmade d (hfirst d hd)

theorem all_made (h : Frames next made start [] visited) :
    made start ∧ ∀ c ∈ visited, ∀ d ∈ next c, made d := by
  generalize hcalls : [] = calls at h
  induction h with
  | init => cases hcalls
  | bottom h => exact ⟨h, fun _ hc ↦ absurd hc List.not_mem_nil⟩
  | frame _ hnext hfirst ih =>
    obtain ⟨rfl, rfl⟩ := List.append_eq_nil_iff.mp hcalls.symm
    rw [List.append_nil] at hnext
    exact ⟨(ih rfl).1, List.forall_mem_cons.mpr ⟨hnext ▸ hfirst, (ih rfl).2⟩⟩

theorem skip (h : Frames next made start (c :: calls) visited) (hc : made c) :
    Frames next made start calls visited := by
  generalize hcalls : c :: calls = all at h
  induction h generalizing calls with
  | init =>
    cases hcalls
    exact .bottom hc
  | bottom => cases hcalls
  | @frame _ _ first rest _ h hnext hfirst ih =>
    cases rest with
    | nil => exact .frame (ih hcalls) hnext hfirst
    | cons d rest =>
      cases hcalls
      refine .frame h (hnext.trans (List.append_cons first c rest)) fun d hd ↦ ?_
      rcases List.mem_append.mp hd with hd | hd
      · exact hfirst d hd
      · rw [List.mem_singleton.mp hd]
        exact hc

/-- The next call is the first one, or one of the latest configuration that has calls to make. -/
theorem origin (h : Frames next made start (c :: calls) visited) :
    c = start ∨ ∃ later b earlier first rest, visited = later ++ b :: earlier ∧
      (∀ x ∈ later, ∀ d ∈ next x, made d) ∧ next b = first ++ c :: rest ∧ ∀ d ∈ first, made d := by
  generalize hcalls : c :: calls = all at h
  induction h with
  | init =>
    cases hcalls
    exact Or.inl rfl
  | bottom => cases hcalls
  | @frame _ visited first rest b h hnext hfirst ih =>
    cases rest with
    | nil =>
      rw [List.append_nil] at hnext
      refine (ih hcalls).imp_right ?_
      rintro ⟨later, b', earlier, first', rest', rfl, hlater, hfirst'⟩
      exact ⟨b :: later, b', earlier, first', rest', rfl,
        List.forall_mem_cons.mpr ⟨hnext ▸ hfirst, hlater⟩, hfirst'⟩
    | cons d rest =>
      cases hcalls
      exact Or.inr ⟨[], b, visited, first, rest, rfl, List.forall_mem_nil _, hnext, hfirst⟩

end Frames

/-- Calls can be sorted by sorting what they are made for. -/
theorem exists_perm_pairwise_filterMap {α : Type u} {β : Type v} (f : α → Option β) (rank : β → ℕ)
    (l : List α) :
    ∃ l' : List α, l'.Perm l ∧ (l'.filterMap f).Pairwise fun b b' ↦ rank b ≤ rank b' := by
  let le : α → α → Bool := fun a a' ↦ (f a).elim 0 rank ≤ (f a').elim 0 rank
  have hsorted : (l.mergeSort le).Pairwise fun a a' ↦ le a a' :=
    List.pairwise_mergeSort (by grind) (by grind) l
  refine ⟨l.mergeSort le, l.mergeSort_perm le, ?_⟩
  refine List.pairwise_filterMap.mpr (hsorted.imp fun h b hb b' hb' ↦ ?_)
  simpa only [le, hb, hb', Option.elim_some, decide_eq_true_eq] using h

theorem eq_of_idxOf_le [BEq σ] [LawfulBEq σ] {ahead : List σ} (hc : c ∉ visited) (hd : d ∉ visited)
    (h : (ahead ++ d :: visited).reverse.idxOf c ≤ (ahead ++ d :: visited).reverse.idxOf d) :
    c = d := by
  rw [List.reverse_append, List.reverse_cons, List.append_assoc,
    List.idxOf_append_of_notMem (mt List.mem_reverse.mp hc),
    List.idxOf_append_of_notMem (mt List.mem_reverse.mp hd), List.singleton_append,
    List.idxOf_cons_self] at h
  by_contra hne
  rw [List.idxOf_cons_ne _ (Ne.symm hne)] at h
  omega

/-- A configuration with a new key is called by the latest one that leads to something new. -/
theorem Frames.caller
    (h : Frames next (Called key enter tested visited) start (c :: calls) visited)
    (hdepth : DepthFirst key (CallStep next enter) enter start visited) (henter : enter c)
    (hnew : key c ∉ visited.map key) :
    visited = [] ∧ c = start ∨ ∃ b first rest,
      latest key (CallStep next enter) enter visited = some b ∧ CallStep next enter b c ∧
        next b = first ++ c :: rest ∧ ∀ d ∈ first, Called key enter tested visited d := by
  rcases h.origin with rfl | ⟨later, b, earlier, first, rest, hsplit, hlater, hnext, hfirst⟩
  · refine Or.inl ⟨List.eq_nil_iff_forall_not_mem.mpr fun x hx ↦ ?_, rfl⟩
    exact hnew (List.mem_map_of_mem (hdepth.start_mem hx))
  · have hb : b ∈ visited := hsplit ▸ List.mem_append_cons_self
    have hstep : CallStep next enter b c :=
      ⟨(hdepth.reached b hb).1, hnext ▸ List.mem_append_cons_self⟩
    classical
    refine Or.inr ⟨b, first, rest, List.find?_eq_some_iff_append.mpr ⟨decide_eq_true
      ⟨c, hstep, henter, hnew⟩, later, earlier, hsplit, fun x hx ↦ ?_⟩, hstep, hnext, hfirst⟩
    rw [Bool.not_eq_true', decide_eq_false_iff_not]
    rintro ⟨d, hd, henter', hnew'⟩
    exact hnew' ((hlater x hx d hd.2).2 henter')

namespace Searched

theorem frames (h : Searched key next enter tested start calls visited) :
    Frames next (Called key enter tested visited) start calls visited := by
  induction h with
  | init => exact .init
  | skip _ hc ih => exact ih.skip hc
  | expand _ htest _ _ ih =>
    refine .frame (.skip (ih.mono fun d hd ↦ ?_) ⟨htest, fun _ ↦ List.mem_cons_self⟩)
      (List.nil_append _).symm (List.forall_mem_nil _)
    exact ⟨hd.1, fun he ↦ List.mem_cons_of_mem _ (hd.2 he)⟩

theorem depthFirst (h : Searched key next enter tested start calls visited) :
    DepthFirst key (CallStep next enter) enter start visited := by
  induction h with
  | init => exact .nil
  | skip _ _ ih => exact ih
  | expand h _ henter hnew ih =>
    rcases h.frames.caller ih henter hnew with ⟨rfl, rfl⟩ | ⟨b, _, _, hlatest, hstep, -⟩
    · exact .start henter
    · exact .step ih hlatest hstep henter hnew

theorem reached (h : Searched key next enter tested start (c :: calls) visited) :
    c = start ∨ ∃ b ∈ visited, CallStep next enter b c := by
  refine h.frames.origin.imp_right ?_
  rintro ⟨later, b, earlier, first, rest, rfl, -, hnext, -⟩
  have hb : b ∈ later ++ b :: earlier := List.mem_append_cons_self
  exact ⟨b, hb, (h.depthFirst.reached b hb).1, hnext ▸ List.mem_append_cons_self⟩

/-- **Completeness for keys.**  A search that is over and that admits everything has expanded a
configuration with the key of everything it can reach, provided that the keys of the calls made
for what it can reach depend on the key only. -/
theorem called_key (h : Searched key next enter tested start [] visited)
    (hkeys : ∀ c c' d, ReflTransGen (CallStep next enter) start c →
      ReflTransGen (CallStep next enter) start c' → key c = key c' → d ∈ next c →
        ∃ d' ∈ next c', key d' = key d)
    (henter : ∀ c, enter c) (hreach : ReflTransGen (CallStep next enter) start c) :
    key c ∈ visited.map key := by
  induction hreach with
  | refl => exact h.frames.all_made.1.2 (henter _)
  | @tail c d hreach hstep ih =>
    -- the configuration with this key that was expanded makes a call with the same key
    obtain ⟨x, hx, hkey⟩ := List.mem_map.mp ih
    obtain ⟨d', hd', hkey'⟩ := hkeys c x d hreach (h.depthFirst.reached x hx).2 hkey.symm hstep.2
    rw [← hkey']
    exact (h.frames.all_made.2 x hx d' hd').2 (henter _)

/-- **A search follows a depth-first order** by which all calls are sorted, if the order leaves
out no key that is called. -/
theorem suffix_order [BEq σ] [LawfulBEq σ]
    (h : Searched key next enter tested start calls visited)
    (horder : DepthFirst key (CallStep next enter) enter start order)
    (hcalled : ∀ d, d = start ∨ (∃ x ∈ order, CallStep next enter x d) →
      Called key enter tested order d)
    (hsorted : ∀ x ∈ order,
      (next x).Pairwise fun d d' ↦ order.reverse.idxOf d ≤ order.reverse.idxOf d') :
    visited <:+ order := by
  induction h with
  | init => exact List.nil_suffix
  | skip _ _ ih => exact ih
  | @expand calls visited c h _ henter hnew ih =>
    obtain ⟨ahead, rfl⟩ := ih
    rcases List.eq_nil_or_concat' ahead with rfl | ⟨ahead, y, rfl⟩
    · -- the order cannot be over
      exact absurd ((hcalled c h.reached).2 henter) hnew
    rw [List.append_assoc, List.singleton_append] at *
    suffices hy : c = y by
      rw [hy]
      exact List.suffix_append _ _
    -- both are called by the latest configuration that leads to something new
    rcases h.frames.caller h.depthFirst henter hnew with
      ⟨rfl, rfl⟩ | ⟨b, first, rest, hlatest, -, hb, hfirst⟩
    · cases horder.of_append with
      | start => rfl
      | step _ hlatest => cases hlatest
    · cases horder.of_append with
      | start => cases hlatest
      | step _ hlatest' hstep' henter' hnew' =>
        obtain rfl := Option.some.inj (hlatest.symm.trans hlatest')
        obtain ⟨-, hy⟩ := hstep'
        rw [hb] at hy
        rcases List.mem_append.mp hy with hy | hy
        · exact absurd ((hfirst y hy).2 henter') hnew'
        rcases List.mem_cons.mp hy with rfl | hy
        · rfl
        have hpair := hsorted b
          (List.mem_append_right _ (List.mem_cons_of_mem _ (List.mem_of_find?_eq_some hlatest)))
        rw [hb] at hpair
        exact eq_of_idxOf_le (mt List.mem_map_of_mem hnew) (mt List.mem_map_of_mem hnew')
          (List.rel_of_pairwise_cons (List.pairwise_append.mp hpair).2.1 hy)

end Searched

end Cali.Lib
