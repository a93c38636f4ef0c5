import FiniteAutomata.Alphabet
import FiniteAutomata.Text.Quoted

/-!
# Descriptions of automata

A description is what a transition-table text says once it has been read: its kind tag, the mode in which
it was checked, and the automaton's parts as they were written. `ParseError` has one cause for
each way in which a text fails to be a description.
-/
namespace FiniteAutomata

inductive Kind
  | dfa
  | nfa
  | enfa
  | unspecified
  deriving DecidableEq, Repr

inductive Mode
  /-- Each state has exactly one transition for each symbol, and there are no epsilon moves. -/
  | strict
  /-- A state has any number of transitions for a symbol, and epsilon moves are allowed. -/
  | lenient
  deriving DecidableEq, Repr

def Kind.mode : Kind → Mode
  | .dfa => .strict
  | .nfa | .enfa | .unspecified => .lenient

/-- One transition line; an epsilon move has no label. -/
structure Transition where
  source : Nat
  label : Option Char
  target : Nat
  deriving DecidableEq, Repr

structure Header where
  kind : Kind
  mode : Mode
  numStates : Nat
  alphabet : Alphabet
  start : Nat
  accepting : SortedSet Nat
  deriving DecidableEq

/-- A whole text; the transitions stand in the order of their lines, repetitions included. -/
structure Description extends Header where
  transitions : List Transition
  deriving DecidableEq

def maxStates : Nat := 16777216

/-- Why a text is not a description; lines are counted from 1. -/
inductive ParseError
  | malformedCount (line : Nat) (content : String)
  | undefinedState (line state numStates : Nat)
  | incompleteTable (numStates symbols expected found : Nat)
  | conflictingTransition (line source : Nat) (symbol : Char) (first second : Nat)
  | invalidSymbol (line : Nat) (token : String)
  | unknownKind (tag : String)
  | malformedStateList (line : Nat) (token : String)
  | malformedTransition (line : Nat) (content : String)
  | foreignSymbol (line : Nat) (symbol : Char)
  | tooManyStates (line numStates : Nat)
  deriving DecidableEq, Repr

namespace ParseError
open Text

def message : ParseError → String
  | malformedCount line content =>
    s!"line {line}: expected exactly one integer, found " ++ quoted content
  | undefinedState line state numStates =>
    s!"line {line}: state {state} is out of range for an automaton with {numStates} states"
  | incompleteTable numStates symbols expected found =>
    s!"a DFA with {numStates} states over {symbols} symbols needs {expected} transitions, found {found}"
  | conflictingTransition line source symbol first second =>
    s!"line {line}: transition ({source}, " ++ quotedChar symbol
      ++ s!") already leads to {first}, cannot also lead to {second}"
  | invalidSymbol line token =>
    s!"line {line}: symbol token " ++ quoted token ++ " is not exactly one character"
  | unknownKind tag =>
    "unknown automaton kind tag " ++ quoted tag ++ ", expected DFA, NFA, ENFA or UNSPECIFIED"
  | malformedStateList line token =>
    s!"line {line}: " ++ quoted token ++ " is not a state number"
  | malformedTransition line content =>
    s!"line {line}: expected \"<from> <symbol> <to>\", found " ++ quoted content
  | foreignSymbol line symbol =>
    s!"line {line}: symbol " ++ quotedChar symbol ++ " is not part of the alphabet"
  | tooManyStates line numStates =>
    s!"line {line}: {numStates} states exceed the supported maximum of {maxStates}"

end ParseError

end FiniteAutomata
