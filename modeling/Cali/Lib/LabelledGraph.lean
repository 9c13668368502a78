import Mathlib.Data.Set.Insert

/-!
# Labelled directed graphs

A set of vertices and a relation between them for each label.  An edge is its source, its label
and its target; there is at most one edge for each of these triples.  That edges join vertices
of the graph is part of being one.
-/

namespace Cali.Lib

universe u v

/-- A directed graph with labels on its edges. -/
structure LabelledGraph (V : Type u) (L : Type v) where
  vertices : Set V
  edges : V → L → V → Prop
  source_mem : ∀ {x p y}, edges x p y → x ∈ vertices
  target_mem : ∀ {x p y}, edges x p y → y ∈ vertices

namespace LabelledGraph

variable {V : Type u} {L : Type v}

def empty : LabelledGraph V L where
  vertices := ∅
  edges := fun _ _ _ ↦ False
  source_mem := False.elim
  target_mem := False.elim

/-- One more vertex, without edges if it is new. -/
def insertVertex (d : LabelledGraph V L) (z : V) : LabelledGraph V L where
  vertices := insert z d.vertices
  edges := d.edges
  source_mem := fun h ↦ Set.mem_insert_of_mem z (d.source_mem h)
  target_mem := fun h ↦ Set.mem_insert_of_mem z (d.target_mem h)

def insertEdge (d : LabelledGraph V L) (x : V) (p : L) (y : V) (hx : x ∈ d.vertices)
    (hy : y ∈ d.vertices) : LabelledGraph V L where
  vertices := d.vertices
  edges := fun x' p' y' ↦ d.edges x' p' y' ∨ x' = x ∧ p' = p ∧ y' = y
  source_mem := by
    rintro x' p' y' (h | ⟨rfl, -, -⟩)
    · exact d.source_mem h
    · exact hx
  target_mem := by
    rintro x' p' y' (h | ⟨-, -, rfl⟩)
    · exact d.target_mem h
    · exact hy

def eraseEdge (d : LabelledGraph V L) (x : V) (p : L) (y : V) : LabelledGraph V L where
  vertices := d.vertices
  edges := fun x' p' y' ↦ d.edges x' p' y' ∧ ¬ (x' = x ∧ p' = p ∧ y' = y)
  source_mem := fun h ↦ d.source_mem h.1
  target_mem := fun h ↦ d.target_mem h.1

/-- The vertex and its edges are gone. -/
def eraseVertex (d : LabelledGraph V L) (z : V) : LabelledGraph V L where
  vertices := d.vertices \ {z}
  edges := fun x p y ↦ d.edges x p y ∧ x ≠ z ∧ y ≠ z
  source_mem := fun h ↦ ⟨d.source_mem h.1, h.2.1⟩
  target_mem := fun h ↦ ⟨d.target_mem h.1, h.2.2⟩

end LabelledGraph

end Cali.Lib
