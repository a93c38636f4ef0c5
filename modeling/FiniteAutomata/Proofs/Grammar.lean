import FiniteAutomata.Description.Parser
import FiniteAutomata.Proofs.Tokens
import Mathlib.Data.List.Forall2
import Mathlib.Data.List.GetD

/-!
# The grammar of descriptions

`Describes mode text d` says which texts are descriptions and what each of them describes, line by line and without a
reading order. The reader is compared with it in another module.
-/
namespace FiniteAutomata

namespace Text

/-- What stands between the line feeds of a text, without the carriage returns at its end. -/
def pieces (text : List Char) : List (List Char) :=
  (text.splitOn '\n').map (dropEndWhile (· == '\r'))

/-- A line by its number, from 1; a text that is too short for it has an empty one. -/
def lineAt (text : List Char) (number : Nat) : List Char := (pieces text).getD (number - 1) []

/-- The lines after the first five that are not blank. -/
def laterLines (text : List Char) : List (List Char) :=
  ((pieces text).drop 5).filter fun line => !line.all isBlank

/-- Whether two texts have the same lines from the first to a given one, where both may be too short for some. -/
def AgreeTo (last : Nat) (text text' : List Char) : Prop :=
  ∀ number ≤ last, 1 ≤ number → lineAt text number = lineAt text' number

instance (last : Nat) (text text' : List Char) : Decidable (AgreeTo last text text') :=
  inferInstanceAs (Decidable (∀ number ≤ last, 1 ≤ number → lineAt text number = lineAt text' number))

theorem AgreeTo.symm {last : Nat} {text text' : List Char} (h : AgreeTo last text text') :
    AgreeTo last text' text :=
  fun number hle hpos => (h number hle hpos).symm

/-- The text may end in a line feed, and then an empty piece follows its lines. -/
theorem pieces_eq (text : List Char) :
    pieces text = lines text ∨ pieces text = lines text ++ [[]] := by
  simp only [pieces, lines]
  split
  · next hlast =>
    right
    have hne := List.splitOn_ne_nil '\n' text
    have hlast : (text.splitOn '\n').getLast hne = [] := by
      rwa [List.getLast?_eq_some_getLast hne, Option.some_inj] at hlast
    have hsplit := List.dropLast_append_getLast hne
    rw [hlast] at hsplit
    conv_lhs => rw [← hsplit]
    simp [dropEndWhile]
  · left
    rfl

theorem getD_lines (text : List Char) (i : Nat) : (lines text).getD i [] = lineAt text (i + 1) := by
  rw [lineAt, Nat.add_sub_cancel]
  rcases pieces_eq text with h | h
  · rw [h]
  · rw [h]
    by_cases hi : i < (lines text).length
    · rw [List.getD_append _ _ _ _ hi]
    · rw [Nat.not_lt] at hi
      rw [List.getD_append_right _ _ _ _ hi, List.getD_eq_default _ _ hi]
      cases i - (lines text).length <;> rfl

theorem lineAt_of_length_lt {text : List Char} {number : Nat} (h : (lines text).length < number) :
    lineAt text number = [] := by
  obtain ⟨number, rfl⟩ := Nat.exists_eq_add_of_le' (show 1 ≤ number by omega)
  rw [← getD_lines, List.getD_eq_default _ _ (by omega)]

theorem filter_drop_lines (text : List Char) :
    ((lines text).drop 5).filter (fun line => !line.all isBlank) = laterLines text := by
  rw [laterLines]
  rcases pieces_eq text with h | h
  · rw [h]
  · rw [h, List.drop_append, List.filter_append]
    cases 5 - (lines text).length <;> simp

end Text

open Text Numeral

def Kind.tag : Kind → String
  | .dfa => "DFA"
  | .nfa => "NFA"
  | .enfa => "ENFA"
  | .unspecified => "UNSPECIFIED"

/-- Whether a line names a kind, in upper or lower case; a blank line leaves the kind open. -/
def Kind.NamedBy (line : List Char) (kind : Kind) : Prop :=
  (IsBlank line ∧ kind = .unspecified) ∨
    ∃ tag, Words line [tag] ∧ String.ofList (tag.map Char.toUpper) = kind.tag

/-- Whether a line has a single word, a numeral of value `n`. -/
def Text.IsNumberLine (line : List Char) (n : Nat) : Prop :=
  ∃ token, Words line [token] ∧ IsNumeral token n

namespace Description

/-- Whether a symbol gives a transition its label: a symbol of the alphabet itself, and the epsilon
mark no label, where epsilon moves are allowed. -/
def Labels (mode : Mode) (alphabet : Alphabet) (c : Char) (label : Option Char) : Prop :=
  (c ∈ alphabet ∧ label = some c) ∨ (mode = .lenient ∧ c = epsilonMark ∧ label = none)

/-- Whether a line writes out a transition between states of an automaton. -/
def IsTransitionLine (mode : Mode) (numStates : Nat) (alphabet : Alphabet)
    (line : List Char) (t : Transition) : Prop :=
  ∃ first c third, Words line [first, [c], third] ∧
    IsNumeral first t.source ∧ t.source < numStates ∧ Labels mode alphabet c t.label ∧
    IsNumeral third t.target ∧ t.target < numStates

theorem isTransitionLine_strict_iff {numStates : Nat} {alphabet : Alphabet} {line : List Char} {t : Transition} :
    IsTransitionLine .strict numStates alphabet line t ↔
      IsTransitionLine .lenient numStates alphabet line t ∧ t.label ≠ none := by
  constructor
  · rintro ⟨first, c, third, hwords, hfirst, hsource, hlabel, hthird, htarget⟩
    obtain ⟨hc, hlabel⟩ | ⟨hmode, -⟩ := hlabel
    · exact ⟨⟨first, c, third, hwords, hfirst, hsource, .inl ⟨hc, hlabel⟩, hthird, htarget⟩, by simp [hlabel]⟩
    · cases hmode
  · rintro ⟨⟨first, c, third, hwords, hfirst, hsource, hlabel, hthird, htarget⟩, hsome⟩
    obtain ⟨hc, hlabel⟩ | ⟨-, -, hnone⟩ := hlabel
    · exact ⟨first, c, third, hwords, hfirst, hsource, .inl ⟨hc, hlabel⟩, hthird, htarget⟩
    · exact absurd hnone hsome

theorem IsTransitionLine.not_isBlank {mode : Mode} {numStates : Nat} {alphabet : Alphabet} {line : List Char}
    {t : Transition} (h : IsTransitionLine mode numStates alphabet line t) : ¬ IsBlank line := by
  obtain ⟨first, c, third, hwords, -⟩ := h
  rw [← tokens_eq_nil_iff, tokens_of_words hwords]
  exact List.cons_ne_nil _ _

/-- Whether a line lists the symbols of an alphabet. -/
def IsAlphabetLine (mode : Mode) (line : List Char) (alphabet : Alphabet) : Prop :=
  ∃ cs : List Char, Words line (cs.map fun c => [c]) ∧ (mode = .strict → epsilonMark ∉ cs) ∧
    ∀ c, c ∈ alphabet ↔ c ∈ cs ∧ c ≠ epsilonMark

/-- Whether a line lists the members of a set of states. -/
def IsStatesLine (numStates : Nat) (line : List Char) (set : SortedSet Nat) : Prop :=
  ∃ tokens states, Words line tokens ∧ List.Forall₂ IsNumeral tokens states ∧
    (∀ s ∈ states, s < numStates) ∧ ∀ s, s ∈ set ↔ s ∈ states

/-- Whether each state has exactly one transition for each symbol. -/
def IsComplete (numStates : Nat) (alphabet : Alphabet) (transitions : List Transition) : Prop :=
  ∀ s < numStates, ∀ c ∈ alphabet,
    transitions.countP (fun t => t.source = s ∧ t.label = some c) = 1

structure DescribesHeader (text : List Char) (h : Header) : Prop where
  kind : h.kind.NamedBy (lineAt text 1)
  numStates : IsNumberLine (lineAt text 2) h.numStates
  numStates_le : h.numStates ≤ 2 ^ 24
  alphabet : IsAlphabetLine h.mode (lineAt text 3) h.alphabet
  start : IsNumberLine (lineAt text 4) h.start
  start_lt : h.start < h.numStates
  accepting : IsStatesLine h.numStates (lineAt text 5) h.accepting

/-- What a text must say to describe an automaton in the mode of the description. -/
structure Describes (text : List Char) (d : Description) : Prop where
  header : DescribesHeader text d.toHeader
  transitions : List.Forall₂ (IsTransitionLine d.mode d.numStates d.alphabet)
    (laterLines text) d.transitions
  complete : d.mode = .strict → IsComplete d.numStates d.alphabet d.transitions

end Description

end FiniteAutomata
