import Mathlib.Computability.Language

/-!
# Products of languages, decided row by row

A pattern is a list of symbols, each of which stands for a language, and the pattern stands
for the product of these languages.  Whether a word belongs to it can be read off a table: a
row belongs to a word and has one cell for each initial part of the pattern.  When every
symbol stands for letters or for all words, a cell of the next row depends on three
neighbours only.
-/

namespace Cali.Lib

universe u v

variable {α : Type u} {τ : Type v} (lang : τ → Language α)

/-- The words of a pattern. -/
def product (pattern : List τ) : Language α := (pattern.map lang).prod

variable {lang} {q : List τ} {p : τ} {u : List α} {c : α}

theorem mem_product_nil : u ∈ product lang [] ↔ u = [] := Language.mem_one u

theorem mem_product_cons {ps : List τ} :
    u ∈ product lang (p :: ps) ↔ ∃ v ∈ lang p, ∃ w ∈ product lang ps, v ++ w = u := by
  unfold product
  rw [List.map_cons, List.prod_cons, Language.mem_mul]

theorem mem_product_concat :
    u ∈ product lang (q ++ [p]) ↔ ∃ v ∈ product lang q, ∃ w ∈ lang p, v ++ w = u := by
  unfold product
  rw [List.map_append, List.prod_append, List.map_singleton, List.prod_singleton,
    Language.mem_mul]

theorem append_mem_product_append {ps : List τ} {v : List α} (hu : u ∈ product lang q)
    (hv : v ∈ product lang ps) : u ++ v ∈ product lang (q ++ ps) := by
  unfold product at *
  rw [List.map_append, List.prod_append]
  exact Language.append_mem_mul hu hv

/-! ## A symbol for all words -/

section Top

variable (hp : lang p = ⊤)
include hp

theorem mem_lang_of_eq_top (w : List α) : w ∈ lang p := by
  rw [hp]
  exact Set.mem_univ w

theorem nil_mem_product_concat_top :
    [] ∈ product lang (q ++ [p]) ↔ [] ∈ product lang q := by
  rw [mem_product_concat]
  constructor
  · rintro ⟨v, hv, w, -, hvw⟩
    obtain ⟨rfl, -⟩ := List.append_eq_nil_iff.mp hvw
    exact hv
  · intro h
    exact ⟨[], h, [], mem_lang_of_eq_top hp [], rfl⟩

/-- The last letter belongs to the part before the symbol, or the symbol has taken it. -/
theorem concat_mem_product_concat_top :
    u ++ [c] ∈ product lang (q ++ [p]) ↔
      u ++ [c] ∈ product lang q ∨ u ∈ product lang (q ++ [p]) := by
  constructor
  · intro h
    obtain ⟨v, hv, w, -, hvw⟩ := mem_product_concat.mp h
    rcases List.eq_nil_or_concat w with rfl | ⟨w, d, rfl⟩
    · rw [List.append_nil] at hvw
      exact Or.inl (hvw ▸ hv)
    · rw [List.concat_eq_append, ← List.append_assoc] at hvw
      obtain ⟨rfl, -⟩ := List.append_inj' hvw rfl
      exact Or.inr (mem_product_concat.mpr ⟨v, hv, w, mem_lang_of_eq_top hp w, rfl⟩)
  · rintro (h | h)
    · exact mem_product_concat.mpr
        ⟨u ++ [c], h, [], mem_lang_of_eq_top hp [], List.append_nil _⟩
    · obtain ⟨v, hv, w, -, rfl⟩ := mem_product_concat.mp h
      exact mem_product_concat.mpr
        ⟨v, hv, w ++ [c], mem_lang_of_eq_top hp _, (List.append_assoc v w [c]).symm⟩

end Top

/-! ## A symbol for letters -/

section Letters

variable (hp : ∀ w ∈ lang p, w.length = 1)
include hp

theorem nil_notMem_product_concat : [] ∉ product lang (q ++ [p]) := by
  intro h
  obtain ⟨v, -, w, hw, hvw⟩ := mem_product_concat.mp h
  obtain ⟨-, rfl⟩ := List.append_eq_nil_iff.mp hvw
  exact absurd (hp [] hw) Nat.zero_ne_one

theorem concat_mem_product_concat_letter :
    u ++ [c] ∈ product lang (q ++ [p]) ↔ [c] ∈ lang p ∧ u ∈ product lang q := by
  rw [mem_product_concat]
  constructor
  · rintro ⟨v, hv, w, hw, hvw⟩
    obtain ⟨rfl, rfl⟩ := List.append_inj' hvw (hp w hw)
    exact ⟨hw, hv⟩
  · rintro ⟨hc, hu⟩
    exact ⟨u, hu, [c], hc, rfl⟩

end Letters

/-! ## Rows -/

/-- The row says for each initial part of the pattern `q ++ ps` that is no shorter than `q`
whether the word belongs to it. -/
def Decides (lang : τ → Language α) (u : List α) : List τ → List τ → List Bool → Prop
  | q, [], row => ∃ b, row = [b] ∧ (b = true ↔ u ∈ product lang q)
  | q, p :: ps, row =>
    ∃ b row', row = b :: row' ∧ (b = true ↔ u ∈ product lang q) ∧
      Decides lang u (q ++ [p]) ps row'

theorem Decides.head {ps : List τ} {row : List Bool} (h : Decides lang u q ps row) :
    ∃ b row', row = b :: row' ∧ (b = true ↔ u ∈ product lang q) := by
  cases ps with
  | nil =>
    obtain ⟨b, rfl, hb⟩ := h
    exact ⟨b, [], rfl, hb⟩
  | cons p ps =>
    obtain ⟨b, row', rfl, hb, -⟩ := h
    exact ⟨b, row', rfl, hb⟩

theorem Decides.getLast? {ps : List τ} {row : List Bool} (h : Decides lang u q ps row) :
    row.getLast? = some true ↔ u ∈ product lang (q ++ ps) := by
  induction ps generalizing q row with
  | nil =>
    obtain ⟨b, rfl, hb⟩ := h
    rw [List.append_nil, ← hb, List.getLast?_singleton, Option.some_inj]
  | cons p ps ih =>
    obtain ⟨b, row', rfl, -, hrow'⟩ := h
    obtain ⟨b', row'', rfl, -⟩ := hrow'.head
    rw [List.getLast?_cons_cons, ih hrow', List.append_assoc, List.singleton_append]

end Cali.Lib
