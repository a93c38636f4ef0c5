import Std.Data.TreeMap

/-!
# Numberings

A numbering gives distinct values the numbers 0, 1, 2, … in the order in which they are added. Its index
finds the number of a value (`indexOf?_eq_some_iff`).
-/
namespace FiniteAutomata

structure Numbering (α : Type) [Ord α] where
  index : Std.TreeMap α Nat
  values : Array α
  consistent : ∀ (a : α) (i : Nat), index[a]? = some i ↔ values[i]? = some a

namespace Numbering

variable {α : Type} [Ord α]

def indexOf? (n : Numbering α) (a : α) : Option Nat := n.index[a]?

theorem indexOf?_eq_some_iff {n : Numbering α} {a : α} {i : Nat} :
    n.indexOf? a = some i ↔ n.values[i]? = some a := n.consistent a i

variable [Std.TransOrd α] [Std.LawfulEqOrd α]

def empty : Numbering α := ⟨∅, #[], by simp⟩

/-- Gives a value the next number, unless it has one. -/
def add (n : Numbering α) (a : α) : Numbering α :=
  match h : n.indexOf? a with
  | some _ => n
  | none => {
    index := n.index.insert a n.values.size
    values := n.values.push a
    consistent := by
      intro b i
      simp only [Std.TreeMap.getElem?_insert, Array.getElem?_push, Std.compare_eq_iff_eq]
      have hfresh : ∀ j, n.values[j]? ≠ some a := fun j hj => by
        rw [← indexOf?_eq_some_iff, h] at hj
        cases hj
      have hsize : n.values[n.values.size]? = none := Array.getElem?_size
      by_cases hab : a = b
      · subst hab
        by_cases hi : i = n.values.size <;> simp [hi, hfresh, eq_comm]
      · have hb := n.consistent b i
        by_cases hi : i = n.values.size
        · subst hi
          simpa [hab, hsize] using hb
        · simp [hab, hi, hb] }

end Numbering

end FiniteAutomata
