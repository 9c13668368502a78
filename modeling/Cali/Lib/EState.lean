import Mathlib.Data.Nat.Notation

/-!
# Weakest preconditions for programs that fail with a state

A C++ member function that may throw is an `EStateM` program: whatever it wrote
before it threw stays written.  `Spec x s Q E` says of one run of `x`, started in
`s`, that it returns a value and a state in `Q` or fails with an error and a state
in `E`.  The rules follow the structure of the program.
-/

namespace Cali.Lib

universe u

variable {ε σ α β : Type u}

/-- Started in `s`, the program `x` returns into `Q` or fails into `E`. -/
def Spec (x : EStateM ε σ α) (s : σ) (Q : α → σ → Prop) (E : ε → σ → Prop) : Prop :=
  match x s with
  | .ok a s' => Q a s'
  | .error e s' => E e s'

namespace Spec

variable {x : EStateM ε σ α} {f : α → EStateM ε σ β} {s s' : σ}

theorem of_ok {Q : α → σ → Prop} {E : ε → σ → Prop} {a : α} (h : x s = .ok a s')
    (hQ : Q a s') : Spec x s Q E := by
  unfold Spec
  rw [h]
  exact hQ

theorem of_error {Q : α → σ → Prop} {E : ε → σ → Prop} {e : ε} (h : x s = .error e s')
    (hE : E e s') : Spec x s Q E := by
  unfold Spec
  rw [h]
  exact hE

theorem ok {Q : α → σ → Prop} {E : ε → σ → Prop} {a : α} (hspec : Spec x s Q E)
    (h : x s = .ok a s') : Q a s' := by
  unfold Spec at hspec
  rwa [h] at hspec

theorem error {Q : α → σ → Prop} {E : ε → σ → Prop} {e : ε} (hspec : Spec x s Q E)
    (h : x s = .error e s') : E e s' := by
  unfold Spec at hspec
  rwa [h] at hspec

theorem bind {P : α → σ → Prop} {Q : β → σ → Prop} {E : ε → σ → Prop}
    (hx : Spec x s P E) (hf : ∀ a s', P a s' → Spec (f a) s' Q E) : Spec (x >>= f) s Q E := by
  unfold Spec at hx ⊢
  simp only [Bind.bind, EStateM.bind]
  cases h : x s with
  | ok a s' =>
    rw [h] at hx
    exact hf a s' hx
  | error e s' =>
    rw [h] at hx
    exact hx

theorem mono {P Q : α → σ → Prop} {D E : ε → σ → Prop} (h : Spec x s P D)
    (hQ : ∀ a s', P a s' → Q a s') (hE : ∀ e s', D e s' → E e s') : Spec x s Q E := by
  unfold Spec at h ⊢
  cases hx : x s with
  | ok a s' =>
    rw [hx] at h
    exact hQ a s' h
  | error e s' =>
    rw [hx] at h
    exact hE e s' h

theorem and {P Q : α → σ → Prop} {D E : ε → σ → Prop} (h : Spec x s P D) (h' : Spec x s Q E) :
    Spec x s (fun a s' ↦ P a s' ∧ Q a s') fun e s' ↦ D e s' ∧ E e s' := by
  unfold Spec at h h' ⊢
  cases hx : x s with
  | ok a s' =>
    rw [hx] at h h'
    exact ⟨h, h'⟩
  | error e s' =>
    rw [hx] at h h'
    exact ⟨h, h'⟩

theorem ite {c : Prop} [Decidable c] {y : EStateM ε σ α} {Q : α → σ → Prop} {E : ε → σ → Prop}
    (hx : c → Spec x s Q E) (hy : ¬ c → Spec y s Q E) : Spec (if c then x else y) s Q E := by
  split
  · exact hx ‹_›
  · exact hy ‹_›

theorem get_bind {f : σ → EStateM ε σ β} {Q : β → σ → Prop} {E : ε → σ → Prop}
    (h : Spec (f s) s Q E) : Spec (get >>= f) s Q E := h

theorem set_bind {f : PUnit → EStateM ε σ β} {Q : β → σ → Prop} {E : ε → σ → Prop}
    (h : Spec (f ⟨⟩) s' Q E) : Spec (set s' >>= f) s Q E := h

end Spec

/-! ## Parts of the state that a program ignores -/

/-- The outcome of a run with a change of its last state. -/
def mapState (f : σ → σ) : EStateM.Result ε σ α → EStateM.Result ε σ α
  | .ok a s => .ok a (f s)
  | .error e s => .error e (f s)

/-- The program does not look at what `f` changes, and it leaves it alone. -/
def Ignores (f : σ → σ) (x : EStateM ε σ α) : Prop := ∀ s, x (f s) = mapState f (x s)

namespace Ignores

variable {f : σ → σ} {x y : EStateM ε σ α} {g : α → EStateM ε σ β}

theorem pure (a : α) : Ignores f (Pure.pure a : EStateM ε σ α) := fun _ ↦ rfl

theorem bind (hx : Ignores f x) (hg : ∀ a, Ignores f (g a)) : Ignores f (x >>= g) := by
  intro s
  simp only [Bind.bind, EStateM.bind]
  rw [hx s]
  cases x s with
  | ok a s' => exact hg a s'
  | error e s' => rfl

theorem get_bind {h : σ → EStateM ε σ α} (hh : ∀ s, h (f s) (f s) = mapState f (h s s)) :
    Ignores f (get >>= h) :=
  hh

theorem ite {c : Prop} [Decidable c] (hx : Ignores f x) (hy : Ignores f y) :
    Ignores f (if c then x else y) := by
  split
  · exact hx
  · exact hy

end Ignores

end Cali.Lib
