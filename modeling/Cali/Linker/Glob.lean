import Mathlib.Order.CompletePartialOrder
import Cali.Lib.Language
import Cali.Linker.Config

/-!
# Selectors

A selector of a context is a glob pattern.  `strmatch` fills a table with one row for each
initial part of the file name and one column for each initial part of the pattern; the rows
are those of `Cali.Lib.Language`, for the language that a pattern stands for.
-/

namespace Cali.Linker

open Cali.Lib

/-- The strings that a character of a pattern stands for: any string, any character, or the
character itself. -/
def charLanguage (p : Char) : Language Char :=
  if p = '*' then ⊤ else if p = '?' then ⨆ c, {[c]} else {[p]}

/-- The glob language of a pattern. -/
def globLanguage (pattern : Str) : Language Char := product charLanguage pattern

/-- A selector that starts with `^` is for the whole file name, any other one for a suffix
of it. -/
def Selects (selector filename : Str) : Prop :=
  (∃ rest, selector = '^' :: rest ∧ filename ∈ globLanguage rest) ∨
    (¬ ['^'] <+: selector) ∧ ∃ suffix, suffix <:+ filename ∧ suffix ∈ globLanguage selector

section Table

variable {p c : Char} {u q ps : Str} {row : List Bool} {b : Bool}

theorem charLanguage_star : charLanguage '*' = ⊤ := if_pos rfl

theorem mem_charLanguage (hstar : p ≠ '*') {w : Str} :
    w ∈ charLanguage p ↔ ∃ c, w = [c] ∧ (p = '?' ∨ c = p) := by
  unfold charLanguage
  rw [if_neg hstar]
  by_cases hany : p = '?'
  · rw [if_pos hany, Language.mem_iSup]
    exact exists_congr fun c ↦ (and_iff_left (Or.inl hany)).symm
  · rw [if_neg hany]
    constructor
    · rintro rfl
      exact ⟨p, rfl, Or.inr rfl⟩
    · rintro ⟨c, rfl, h⟩
      exact congrArg ([·]) (h.resolve_left hany)

theorem length_of_mem_charLanguage (hstar : p ≠ '*') : ∀ w ∈ charLanguage p, w.length = 1 := by
  intro w hw
  obtain ⟨c, rfl, -⟩ := (mem_charLanguage hstar).mp hw
  rfl

theorem singleton_mem_charLanguage (hstar : p ≠ '*') :
    [c] ∈ charLanguage p ↔ p = '?' ∨ c = p := by
  rw [mem_charLanguage hstar]
  constructor
  · rintro ⟨d, hd, h⟩
    obtain rfl := List.singleton_inj.mp hd
    exact h
  · intro h
    exact ⟨c, rfl, h⟩

theorem decides_firstRow (hb : b = true ↔ [] ∈ globLanguage q) :
    Decides charLanguage [] q ps (ps.scanl (fun b c ↦ c == '*' && b) b) := by
  induction ps generalizing q b with
  | nil => exact ⟨b, rfl, hb⟩
  | cons p ps ih =>
    refine ⟨b, _, List.scanl_cons, hb, ih ?_⟩
    unfold globLanguage at hb ⊢
    by_cases hstar : p = '*'
    · subst hstar
      rw [nil_mem_product_concat_top charLanguage_star, ← hb, beq_self_eq_true, Bool.true_and]
    · rw [beq_false_of_ne hstar, Bool.false_and]
      exact iff_of_false Bool.false_ne_true
        (nil_notMem_product_concat (length_of_mem_charLanguage hstar))

theorem cell_iff {left up diag : Bool}
    (hleft : left = true ↔ u ++ [c] ∈ globLanguage q)
    (hup : up = true ↔ u ∈ globLanguage (q ++ [p])) (hdiag : diag = true ↔ u ∈ globLanguage q) :
    (if p = '*' then left || up else if p = '?' ∨ c = p then diag else false) = true ↔
      u ++ [c] ∈ globLanguage (q ++ [p]) := by
  unfold globLanguage at *
  by_cases hstar : p = '*'
  · subst hstar
    rw [if_pos rfl, Bool.or_eq_true, hleft, hup,
      concat_mem_product_concat_top charLanguage_star]
  · rw [if_neg hstar, concat_mem_product_concat_letter (length_of_mem_charLanguage hstar),
      singleton_mem_charLanguage hstar]
    by_cases hchar : p = '?' ∨ c = p
    · rw [if_pos hchar, hdiag, and_iff_right hchar]
    · rw [if_neg hchar]
      exact iff_of_false Bool.false_ne_true fun h ↦ hchar h.1

/-- The cells of the next row, from the one that belongs to `q` on. -/
theorem decides_nextCells {left : Bool} (hrow : Decides charLanguage u q ps row)
    (hleft : left = true ↔ u ++ [c] ∈ globLanguage q) :
    Decides charLanguage (u ++ [c]) q ps (left :: nextCells c ps row left) := by
  induction ps generalizing q row left with
  | nil => exact ⟨left, rfl, hleft⟩
  | cons p ps ih =>
    obtain ⟨diag, row', rfl, hdiag, hrow'⟩ := hrow
    obtain ⟨up, row'', rfl, hup⟩ := hrow'.head
    exact ⟨left, _, rfl, hleft, ih hrow' (cell_iff hleft hup hdiag)⟩

theorem decides_nextRow {pattern : Str} (hrow : Decides charLanguage u [] pattern row) :
    Decides charLanguage (u ++ [c]) [] pattern (nextRow pattern row c) := by
  refine decides_nextCells hrow (iff_of_false Bool.false_ne_true fun h ↦ ?_)
  exact List.append_ne_nil_of_right_ne_nil u (List.cons_ne_nil c []) (mem_product_nil.mp h)

/-- **The table**: after the characters of the string, the row is the one of the string. -/
theorem decides_foldl {pattern : Str} (str : Str) (hrow : Decides charLanguage u [] pattern row) :
    Decides charLanguage (u ++ str) [] pattern (str.foldl (nextRow pattern) row) := by
  induction str generalizing u row with
  | nil =>
    rw [List.append_nil]
    exact hrow
  | cons c str ih =>
    have h := ih (decides_nextRow (c := c) hrow)
    rwa [List.append_assoc, List.singleton_append] at h

theorem strmatch_iff (str pattern : Str) :
    strmatch str pattern = true ↔ str ∈ globLanguage pattern := by
  have hempty : true = true ↔ ([] : Str) ∈ globLanguage [] :=
    iff_of_true rfl (mem_product_nil.mpr rfl)
  unfold strmatch
  split
  next hpattern =>
    rw [hpattern, List.isEmpty_iff]
    exact mem_product_nil.symm
  next =>
    rw [beq_iff_eq]
    exact (decides_foldl str (decides_firstRow hempty)).getLast?

end Table

/-! ## Suffixes -/

section Selectors

variable {selector filename : Str}

theorem mem_globLanguage_star_cons :
    filename ∈ globLanguage ('*' :: selector) ↔
      ∃ suffix, suffix <:+ filename ∧ suffix ∈ globLanguage selector := by
  unfold globLanguage
  rw [mem_product_cons]
  constructor
  · rintro ⟨v, -, w, hw, rfl⟩
    exact ⟨w, List.suffix_append v w, hw⟩
  · rintro ⟨w, ⟨v, rfl⟩, hw⟩
    exact ⟨v, mem_lang_of_eq_top charLanguage_star v, w, hw, rfl⟩

/-- Whatever the characters of a string mean in a pattern, it matches the string itself. -/
theorem mem_globLanguage_self (s : Str) : s ∈ globLanguage s := by
  unfold globLanguage
  induction s with
  | nil => exact mem_product_nil.mpr rfl
  | cons c s ih =>
    refine mem_product_cons.mpr ⟨[c], ?_, s, ih, rfl⟩
    by_cases hstar : c = '*'
    · exact mem_lang_of_eq_top (hstar ▸ charLanguage_star) [c]
    · exact (singleton_mem_charLanguage hstar).mpr (Or.inr rfl)

/-- What the loop of `matches` does with one selector. -/
theorem selector_iff :
    (match selector with
      | '^' :: rest => strmatch filename rest
      | _ => strmatch filename ('*' :: selector)) = true ↔ Selects selector filename := by
  unfold Selects
  split
  next rest =>
    rw [strmatch_iff]
    constructor
    · intro h
      exact Or.inl ⟨rest, rfl, h⟩
    · rintro (⟨rest', hrest, h⟩ | ⟨hcaret, -⟩)
      · obtain rfl := List.tail_eq_of_cons_eq hrest
        exact h
      · exact absurd ⟨rest, rfl⟩ hcaret
  next hcaret =>
    rw [strmatch_iff, mem_globLanguage_star_cons]
    constructor
    · intro h
      refine Or.inr ⟨?_, h⟩
      rintro ⟨rest, rfl⟩
      exact hcaret rest rfl
    · rintro (⟨rest, hrest, -⟩ | ⟨-, h⟩)
      · exact absurd hrest (hcaret rest)
      · exact h

/-- **Selector matching is glob matching**: `strmatch` decides the glob language of a pattern, and a
context matches a file name exactly if one of its selectors selects it. -/
theorem matches_iff_selects :
    (∀ str pattern, strmatch str pattern = true ↔ str ∈ globLanguage pattern) ∧
      ∀ (config : ContextConfig) (filename : Str),
        config.matches filename = true ↔
          ∃ selector ∈ config.selectors, Selects selector filename := by
  refine ⟨strmatch_iff, fun config filename ↦ ?_⟩
  unfold ContextConfig.matches
  rw [List.any_eq_true]
  exact exists_congr fun selector ↦ and_congr_right fun _ ↦ selector_iff

end Selectors

end Cali.Linker
