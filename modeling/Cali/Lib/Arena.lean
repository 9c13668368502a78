import Mathlib.Data.List.Pairwise
import Cali.Lib.Memory

/-!
# Blocks cut from pages

An arena hands out blocks of one size.  It cuts them one after the other from a page, and
takes a new page when the rest of the last one is too small.  Blocks are never given back.
-/

namespace Cali.Lib

/-- The pages of an arena, the blocks it has handed out, and the free rest of the last page,
with what makes them an arena: blocks lie inside of pages, no two blocks overlap, and the rest
lies inside of a page and overlaps with no block. -/
structure Arena (pageSize blockSize : ℕ) where
  pages : List ℕ
  blocks : List ℕ
  next : ℕ
  left : ℕ
  block_within : ∀ b ∈ blocks, ∃ p ∈ pages, p ≤ b ∧ b + blockSize ≤ p + pageSize
  block_apart : blocks.Pairwise fun b c ↦ Apart b blockSize c blockSize
  rest_within : 0 < left → ∃ p ∈ pages, p ≤ next ∧ next + left ≤ p + pageSize
  rest_apart : 0 < left → ∀ b ∈ blocks, Apart next left b blockSize

namespace Arena

variable {pageSize blockSize : ℕ}

/-- An arena without pages. -/
def empty : Arena pageSize blockSize where
  pages := []
  blocks := []
  next := 0
  left := 0
  block_within := nofun
  block_apart := List.Pairwise.nil
  rest_within := nofun
  rest_apart := nofun

/-- A page that is apart from those of the arena becomes its rest. -/
def addPage (a : Arena pageSize blockSize) (page : ℕ)
    (h : ∀ p ∈ a.pages, Apart page pageSize p pageSize) : Arena pageSize blockSize where
  pages := page :: a.pages
  blocks := a.blocks
  next := page
  left := pageSize
  block_within := fun b hb ↦ by
    obtain ⟨p, hp, hle⟩ := a.block_within b hb
    exact ⟨p, List.mem_cons_of_mem page hp, hle⟩
  block_apart := a.block_apart
  rest_within := fun _ ↦ ⟨page, List.mem_cons_self, Nat.le_refl _, Nat.le_refl _⟩
  rest_apart := fun _ b hb ↦ by
    obtain ⟨p, hp, hle⟩ := a.block_within b hb
    exact (h p hp).mono (Nat.le_refl _) (Nat.le_refl _) hle.1 hle.2

/-- A block is cut from the rest. -/
def cut (a : Arena pageSize blockSize) (hpos : 0 < blockSize) (h : blockSize ≤ a.left) :
    Arena pageSize blockSize where
  pages := a.pages
  blocks := a.next :: a.blocks
  next := a.next + blockSize
  left := a.left - blockSize
  block_within := by
    obtain ⟨p, hp, hle, hend⟩ := a.rest_within (Nat.lt_of_lt_of_le hpos h)
    exact List.forall_mem_cons.mpr ⟨⟨p, hp, hle, by omega⟩, a.block_within⟩
  block_apart := by
    refine List.pairwise_cons.mpr ⟨fun b hb ↦ ?_, a.block_apart⟩
    exact (a.rest_apart (Nat.lt_of_lt_of_le hpos h) b hb).mono (Nat.le_refl _) (by omega)
      (Nat.le_refl _) (Nat.le_refl _)
  rest_within := fun _ ↦ by
    obtain ⟨p, hp, hle, hend⟩ := a.rest_within (Nat.lt_of_lt_of_le hpos h)
    exact ⟨p, hp, by omega, by omega⟩
  rest_apart := fun _ ↦ by
    refine List.forall_mem_cons.mpr ⟨Or.inr (Nat.le_refl _), fun b hb ↦ ?_⟩
    exact (a.rest_apart (Nat.lt_of_lt_of_le hpos h) b hb).mono (by omega) (by omega)
      (Nat.le_refl _) (Nat.le_refl _)

end Arena

end Cali.Lib
