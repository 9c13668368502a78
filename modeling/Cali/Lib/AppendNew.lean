import Mathlib.Data.List.Basic

/-!
# Appending entries under new keys

A list whose entries carry a key, and the operation that appends the entry of a key unless an
entry with that key is there already.  Over a list of keys the first entry of each key wins:
what is appended is one entry per key that is new, in the order of first occurrence.
-/

namespace Cali.Lib

universe u v w

variable {α : Type u} {κ : Type v} [DecidableEq κ] {key : α → κ} {entry : κ → α}

/-- Append the entry of `k` unless `k` is there. -/
def appendNew (key : α → κ) (entry : κ → α) (l : List α) (k : κ) : List α :=
  if k ∈ l.map key then l else l ++ [entry k]

theorem appendNew_of_mem {l : List α} {k : κ} (h : k ∈ l.map key) : appendNew key entry l k = l :=
  if_pos h

theorem appendNew_of_notMem {l : List α} {k : κ} (h : k ∉ l.map key) :
    appendNew key entry l k = l ++ [entry k] :=
  if_neg h

/-- The keys of `ks` that are not there yet, each once, in the order of first occurrence. -/
def newKeys (key : α → κ) (l : List α) (ks : List κ) : List κ :=
  (ks.filter (· ∉ l.map key)).eraseDups

/-- **The first entry of each key wins.** -/
theorem foldl_appendNew (hkey : ∀ k, key (entry k) = k) (ks : List κ) (l : List α) :
    ks.foldl (appendNew key entry) l = l ++ (newKeys key l ks).map entry := by
  unfold newKeys
  induction ks generalizing l with
  | nil => simp
  | cons k ks ih =>
    rw [List.foldl_cons]
    by_cases hk : k ∈ l.map key
    · rw [appendNew_of_mem hk, ih, List.filter_cons_of_neg (by simpa using hk)]
    · rw [appendNew_of_notMem hk, ih, List.filter_cons_of_pos (by simpa using hk),
        List.eraseDups_cons, List.map_cons, List.append_assoc, List.singleton_append,
        List.filter_filter]
      -- the keys that are new after `k` are those new before it that differ from `k`
      have hnew : (fun q ↦ decide (q ∉ (l ++ [entry k]).map key)) =
          fun q ↦ (!q == k) && decide (q ∉ l.map key) := by
        funext q
        simp only [List.map_append, List.map_cons, List.map_nil, hkey, List.mem_append,
          List.mem_singleton]
        by_cases hq : q = k <;> simp [hq]
      rw [hnew]

/-- A run over `ks` only appends, and only under keys of `ks`. -/
theorem exists_foldl_appendNew (hkey : ∀ k, key (entry k) = k) (ks : List κ) (l : List α) :
    ∃ added, ks.foldl (appendNew key entry) l = l ++ added ∧ ∀ a ∈ added, key a ∈ ks := by
  refine ⟨_, foldl_appendNew hkey ks l, fun a ha ↦ ?_⟩
  obtain ⟨k, hk, rfl⟩ := List.mem_map.mp ha
  rw [hkey]
  exact List.mem_of_mem_filter (List.mem_eraseDups.mp hk)

theorem mem_keys_iff_filter_ne_nil {l : List α} {k : κ} :
    k ∈ l.map key ↔ l.filter (key · = k) ≠ [] := by
  simp [List.filter_eq_nil_iff]

/-- The entries of one key after a run over `ks`. -/
theorem filter_foldl_appendNew (hkey : ∀ k, key (entry k) = k) (k : κ) (ks : List κ)
    (l : List α) :
    (ks.foldl (appendNew key entry) l).filter (key · = k) =
      if k ∈ ks ∧ k ∉ l.map key then [entry k] else l.filter (key · = k) := by
  induction ks generalizing l with
  | nil => simp
  | cons q ks ih =>
    rw [List.foldl_cons, ih]
    by_cases hq : q ∈ l.map key
    · rw [appendNew_of_mem hq]
      by_cases hkq : k = q
      · subst hkq; simp [hq]
      · simp [hkq]
    · rw [appendNew_of_notMem hq]
      by_cases hkq : k = q
      · subst hkq
        have hnone : l.filter (key · = k) = [] := by
          simpa [List.filter_eq_nil_iff] using hq
        simp [hkey, hq, hnone]
      · have hqk : ¬ q = k := fun h ↦ hkq h.symm
        simp [hkey, hkq, hqk]

/-! ## Runs over other values

A step that appends the entry of a key computed from its value, or nothing. -/

section foldlM

variable {β : Type w} {step : List α → β → Option (List α)} {f : β → Option κ} {xs : List β}

theorem foldlM_eq_foldl_appendNew
    (hstep : ∀ x ∈ xs, ∀ l, step l x = some ((f x).elim l (appendNew key entry l))) (l : List α) :
    xs.foldlM step l = some ((xs.filterMap f).foldl (appendNew key entry) l) := by
  induction xs generalizing l with
  | nil => rfl
  | cons x xs ih =>
    have hx : step l x = some ((f x).elim l (appendNew key entry l)) :=
      hstep x (List.mem_cons_self ..) l
    have hxs := ih fun y hy ↦ hstep y (List.mem_cons_of_mem _ hy)
    rw [List.foldlM_cons, hx, Option.bind_eq_bind, Option.bind_some, hxs]
    cases hf : f x <;> simp [hf]

theorem foldlM_eq_self (hstep : ∀ x ∈ xs, ∀ l, step l x = some l) (l : List α) :
    xs.foldlM step l = some l := by
  induction xs with
  | nil => rfl
  | cons x xs ih =>
    rw [List.foldlM_cons, hstep x (List.mem_cons_self ..) l]
    exact ih fun y hy ↦ hstep y (List.mem_cons_of_mem _ hy)

theorem foldlM_eq_none {x : β} (hx : x ∈ xs) (hstep : ∀ l, step l x = none) (l : List α) :
    xs.foldlM step l = none := by
  induction xs generalizing l with
  | nil => cases hx
  | cons y xs ih =>
    rw [List.foldlM_cons, Option.bind_eq_bind]
    rcases List.mem_cons.mp hx with rfl | hx
    · rw [hstep, Option.bind_none]
    · cases hy : step l y with
      | none => rfl
      | some l' => exact ih hx l'

end foldlM

end Cali.Lib
