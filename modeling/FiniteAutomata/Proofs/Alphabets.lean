import FiniteAutomata.Proofs.WellFormed
import Mathlib.Data.Char
import Mathlib.Data.List.Destutter
import Mathlib.Data.List.Sort
import Mathlib.Order.Compare

/-!
# Collected alphabets

Alphabets come from collecting characters and from uniting alphabets, nested in any way. Whichever way one comes
about, it lists the characters that went into it, without the epsilon mark, once each and in ascending order, as
sorting them and dropping repetitions would; a search by halving finds the number of a symbol; and two alphabets are
equal if they have the same symbols (`Alphabet.Collection.represents`).
-/
namespace FiniteAutomata

namespace Alphabet

variable {a : Alphabet} {c d : Char} {i j low high : Nat}

theorem pairwise_lt (a : Alphabet) : a.toList.Pairwise (· < ·) :=
  a.symbols.ascending.imp compare_lt_iff_lt.mp

theorem lt_size_of_symbol? (h : a.symbol? i = some c) : i < a.size :=
  (List.getElem?_eq_some_iff.mp h).1

theorem symbol?_lt_symbol? (hi : a.symbol? i = some c) (hj : a.symbol? j = some d) (hij : i < j) : c < d := by
  obtain ⟨hi', rfl⟩ := List.getElem?_eq_some_iff.mp hi
  obtain ⟨hj', rfl⟩ := List.getElem?_eq_some_iff.mp hj
  exact List.pairwise_iff_getElem.mp a.pairwise_lt i j hi' hj' hij

/-- Symbols compare as their numbers do. -/
theorem compare_symbol? (hi : a.symbol? i = some c) (hj : a.symbol? j = some d) :
    compare c d = compare i j := by
  rcases lt_trichotomy i j with hij | rfl | hij
  · rw [compare_lt_iff_lt.mpr hij]
    exact compare_lt_iff_lt.mpr (symbol?_lt_symbol? hi hj hij)
  · obtain rfl := Option.some_inj.mp (hi.symm.trans hj)
    simp
  · rw [compare_gt_iff_gt.mpr hij]
    exact compare_gt_iff_gt.mpr (symbol?_lt_symbol? hj hi hij)

/-! ### Search -/

/-- The number of a symbol, looked for from `low` on and before `high`, in the half where it has to be. -/
def searchBetween? (a : Alphabet) (c : Char) (low high : Nat) : Option Nat :=
  if low < high then
    let middle := low + (high - low) / 2
    match a.symbol? middle with
    | none => none
    | some d =>
      match compare d c with
      | .lt => a.searchBetween? c (middle + 1) high
      | .eq => some middle
      | .gt => a.searchBetween? c low middle
  else none
termination_by high - low

/-- The number of a symbol, looked for by halving. -/
def search? (a : Alphabet) (c : Char) : Option Nat := a.searchBetween? c 0 a.size

theorem searchBetween?_eq_some_iff (hhigh : high ≤ a.size) :
    a.searchBetween? c low high = some i ↔ low ≤ i ∧ i < high ∧ a.symbol? i = some c := by
  fun_induction searchBetween? a c low high with
  | case1 low high hlow middle hnone =>
    have : a.size ≤ middle := List.getElem?_eq_none_iff.mp hnone
    omega
  | case2 low high hlow middle d hd hcompare ih =>
    have hright : a.symbol? i = some c → middle < i := fun hc =>
      compare_lt_iff_lt.mp ((compare_symbol? hd hc).symm.trans hcompare)
    rw [ih hhigh]
    grind
  | case3 low high hlow middle d hd hcompare =>
    obtain rfl := compare_eq_iff_eq.mp hcompare
    have hmiddle : a.symbol? i = some d → middle = i := fun hd' =>
      compare_eq_iff_eq.mp ((compare_symbol? hd hd').symm.trans hcompare)
    grind
  | case4 low high hlow middle d hd hcompare ih =>
    have hleft : a.symbol? i = some c → i < middle := fun hc =>
      compare_gt_iff_gt.mp ((compare_symbol? hd hc).symm.trans hcompare)
    rw [ih (by omega)]
    grind
  | case5 => simp; omega

theorem search?_eq (a : Alphabet) (c : Char) : a.search? c = a.indexOf? c := by
  refine Option.ext fun i => ?_
  rw [search?, searchBetween?_eq_some_iff le_rfl, indexOf?_eq_some_iff]
  exact ⟨fun h => h.2.2, fun h => ⟨Nat.zero_le i, lt_size_of_symbol? h, h⟩⟩

/-! ### Sorting -/

/-- The characters in ascending order, with the epsilon marks and repetitions dropped. -/
def sortedSymbols (cs : List Char) : List Char :=
  ((cs.filter (· ≠ epsilonMark)).mergeSort (· ≤ ·)).destutter (· ≠ ·)

theorem pairwise_le_sortedSymbols (cs : List Char) : (sortedSymbols cs).Pairwise (· ≤ ·) :=
  ((cs.filter (· ≠ epsilonMark)).pairwise_mergeSort' (· ≤ ·)).sublist (List.destutter_sublist _ _)

/-- What is sorted has its repetitions next to one another. -/
theorem sortedSymbols_eq_dedup (cs : List Char) :
    sortedSymbols cs = ((cs.filter (· ≠ epsilonMark)).mergeSort (· ≤ ·)).dedup :=
  (List.pairwise_mergeSort' (· ≤ ·) _).destutter_eq_dedup

theorem nodup_sortedSymbols (cs : List Char) : (sortedSymbols cs).Nodup := by
  rw [sortedSymbols_eq_dedup]
  exact List.nodup_dedup _

theorem sortedSymbols_ascending (cs : List Char) :
    (sortedSymbols cs).Pairwise fun c d => compare c d = .lt :=
  ((pairwise_le_sortedSymbols cs).and (nodup_sortedSymbols cs)).imp fun ⟨hle, hne⟩ =>
    compare_lt_iff_lt.mpr (lt_of_le_of_ne hle hne)

theorem mem_sortedSymbols {cs : List Char} : c ∈ sortedSymbols cs ↔ c ∈ cs ∧ c ≠ epsilonMark := by
  simp [sortedSymbols_eq_dedup]

theorem toList_ofChars (cs : List Char) : (ofChars cs).toList = sortedSymbols cs :=
  SortedSet.eq_of_ascending (ofChars cs).symbols.ascending (sortedSymbols_ascending cs) fun _ =>
    mem_ofChars.trans mem_sortedSymbols.symm

theorem union_assoc (a b c : Alphabet) : (a.union b).union c = a.union (b.union c) :=
  ext_mem fun x => by simp [or_assoc]

/-! ### Collections -/

/-- An alphabet holds the characters `cs`: in ascending order, without the epsilon mark, and numbered by their places,
which a search by halving finds. -/
structure Holds (a : Alphabet) (cs : List Char) : Prop where
  ascending : a.toList.Pairwise (· < ·)
  epsilonMark_not_mem : epsilonMark ∉ a
  mem_iff : ∀ c, c ∈ a ↔ c ∈ cs ∧ c ≠ epsilonMark
  isSome_indexOf?_iff : ∀ c, (a.indexOf? c).isSome ↔ c ∈ a
  indexOf?_iff : ∀ c i, a.indexOf? c = some i ↔ i < a.size ∧ a.symbol? i = some c
  search?_eq : ∀ c, a.search? c = a.indexOf? c

/-- How an alphabet comes about. -/
inductive Collection where
  | chars (cs : List Char)
  | union (first second : Collection)

namespace Collection

def alphabet : Collection → Alphabet
  | chars cs => ofChars cs
  | union g h => g.alphabet.union h.alphabet

/-- The characters that go into the alphabet. -/
def characters : Collection → List Char
  | chars cs => cs
  | union g h => g.characters ++ h.characters

/-- The symbols, with the characters sorted where they are collected and again at each union. -/
def sorted : Collection → List Char
  | chars cs => sortedSymbols cs
  | union g h => sortedSymbols (g.sorted ++ h.sorted)

theorem toList_alphabet (g : Collection) : g.alphabet.toList = g.sorted := by
  induction g with
  | chars cs => exact toList_ofChars cs
  | union g h ihg ihh => rw [alphabet, Alphabet.union, toList_ofChars, sorted, ihg, ihh]

theorem mem_alphabet (g : Collection) : c ∈ g.alphabet ↔ c ∈ g.characters ∧ c ≠ epsilonMark := by
  induction g with
  | chars cs => exact mem_ofChars
  | union g h ihg ihh => rw [alphabet, mem_union, ihg, ihh, characters, List.mem_append, or_and_right]

theorem holds_alphabet (g : Collection) : g.alphabet.Holds g.characters where
  ascending := g.alphabet.pairwise_lt
  epsilonMark_not_mem := g.alphabet.epsilonMark_not_mem
  mem_iff c := g.mem_alphabet
  isSome_indexOf?_iff c := List.isSome_idxOf?
  indexOf?_iff c i := by
    rw [indexOf?_eq_some_iff]
    exact (and_iff_right_of_imp lt_size_of_symbol?).symm
  search?_eq := g.alphabet.search?_eq

/-- Collected alphabets hold their characters, sorted and without repetition; they are told apart by their symbols
alone, so that a union depends neither on order nor on nesting nor on repetition. -/
theorem represents (g h k : Collection) :
    g.alphabet.Holds g.characters ∧ g.alphabet.toList = g.sorted ∧
    (∀ c, c ∈ (g.union h).alphabet ↔ c ∈ g.alphabet ∨ c ∈ h.alphabet) ∧
    (g.alphabet = h.alphabet ↔ ∀ c, c ∈ g.alphabet ↔ c ∈ h.alphabet) ∧
    (g.union h).alphabet = (h.union g).alphabet ∧
    ((g.union h).union k).alphabet = (g.union (h.union k)).alphabet ∧
    (g.union g).alphabet = g.alphabet := by
  refine ⟨g.holds_alphabet, g.toList_alphabet, fun c => mem_union, ⟨fun heq c => by rw [heq], ext_mem⟩, ?_, ?_, ?_⟩
  · exact union_comm g.alphabet h.alphabet
  · exact union_assoc g.alphabet h.alphabet k.alphabet
  · exact union_self g.alphabet

example : (union (.chars ['c', 'a', '~']) (.chars ['b', 'a'])).alphabet.toList = ['a', 'b', 'c'] := by decide

end Collection

end Alphabet

end FiniteAutomata
