import FiniteAutomata.SortedSet

/-!
# Alphabets

An alphabet is a finite set of input symbols. Its ascending order numbers the symbols, and the rows of a
transition table are indexed by these numbers. The character that stands for an epsilon move in
a description is never a symbol.
-/
namespace FiniteAutomata

/-- The character that stands for an epsilon move in a description. -/
def epsilonMark : Char := '~'

structure Alphabet where
  symbols : SortedSet Char
  epsilonMark_not_mem : epsilonMark ∉ symbols
  deriving DecidableEq

namespace Alphabet

/-- The alphabet of the characters of `cs`, without the epsilon mark. -/
def ofChars (cs : List Char) : Alphabet where
  symbols := SortedSet.ofList (cs.filter (· ≠ epsilonMark))
  epsilonMark_not_mem := by simp

def empty : Alphabet := ofChars []

def toList (a : Alphabet) : List Char := a.symbols.toList

def size (a : Alphabet) : Nat := a.toList.length

def isEmpty (a : Alphabet) : Bool := a.toList.isEmpty

instance : Membership Char Alphabet := ⟨fun a c => c ∈ a.toList⟩

instance (c : Char) (a : Alphabet) : Decidable (c ∈ a) :=
  inferInstanceAs (Decidable (c ∈ a.toList))

def indexOf? (a : Alphabet) (c : Char) : Option Nat := a.toList.idxOf? c

def symbol? (a : Alphabet) (i : Nat) : Option Char := a.toList[i]?

def union (a b : Alphabet) : Alphabet := ofChars (a.toList ++ b.toList)

/-- The symbols in ascending order, with a space between them. -/
def render (a : Alphabet) : String :=
  String.ofList ([' '].intercalate (a.toList.map fun c => [c]))

@[simp] theorem mem_ofChars {cs : List Char} {c : Char} :
    c ∈ ofChars cs ↔ c ∈ cs ∧ c ≠ epsilonMark := by
  change c ∈ SortedSet.ofList _ ↔ _
  simp

@[simp] theorem mem_union {a b : Alphabet} {c : Char} : c ∈ a.union b ↔ c ∈ a ∨ c ∈ b := by
  have ha : c ∈ a → c ≠ epsilonMark := fun h e => a.epsilonMark_not_mem (e ▸ h)
  have hb : c ∈ b → c ≠ epsilonMark := fun h e => b.epsilonMark_not_mem (e ▸ h)
  have : c ∈ a.union b ↔ (c ∈ a ∨ c ∈ b) ∧ c ≠ epsilonMark :=
    mem_ofChars.trans (and_congr_left' List.mem_append)
  grind

/-- Alphabets with the same symbols are the same alphabet. -/
theorem ext_mem {a b : Alphabet} (h : ∀ c, c ∈ a ↔ c ∈ b) : a = b := by
  obtain ⟨s, hs⟩ := a
  obtain ⟨t, ht⟩ := b
  obtain rfl : s = t := SortedSet.ext h
  rfl

theorem union_comm (a b : Alphabet) : a.union b = b.union a :=
  ext_mem fun c => by simp [or_comm]

@[simp] theorem union_self (a : Alphabet) : a.union a = a :=
  ext_mem fun c => by simp

end Alphabet

end FiniteAutomata
