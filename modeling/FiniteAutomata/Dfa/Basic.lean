import FiniteAutomata.Graph.Digraph
import FiniteAutomata.Nfa.Basic

/-!
# Deterministic automata

An automaton is a table with a row for each state; the row has one entry for each symbol, in the order of the
alphabet. An operation that meets a state without a row, or a row without the entry, answers
`none`.
-/
namespace FiniteAutomata

structure Dfa where
  alphabet : Alphabet
  start : Nat
  rows : Array (Array Nat)
  accepting : Array Bool
  deriving DecidableEq

namespace Dfa

def numStates (d : Dfa) : Nat := d.rows.size

def states (d : Dfa) : List Nat := List.range d.numStates

/-- What is no state does not accept. -/
def isAccepting (d : Dfa) (s : Nat) : Bool := d.accepting[s]?.getD false

def acceptingStates (d : Dfa) : List Nat :=
  (List.range d.accepting.size).filter d.isAccepting

/-- Where a symbol leads from a state; a foreign symbol leads nowhere. -/
def transition? (d : Dfa) (s : Nat) (c : Char) : Option Nat := do
  (← d.rows[s]?)[← d.alphabet.indexOf? c]?

def movesFrom (d : Dfa) (s : Nat) : List (Char × Nat) :=
  d.alphabet.toList.zip (d.rows[s]?.getD #[]).toList

/-- Every transition, by source and then by symbol. -/
def transitions (d : Dfa) : List Transition :=
  d.states.flatMap fun s => (d.movesFrom s).map fun m => ⟨s, some m.1, m.2⟩

/-- Reads a word from a state on. A symbol outside the alphabet rejects it at once. -/
def recognizeFrom? (d : Dfa) (s : Nat) : Word → Option Bool
  | [] => d.accepting[s]?
  | c :: rest =>
    if c ∈ d.alphabet then do
      d.recognizeFrom? (← d.transition? s c) rest
    else
      some false

def recognize? (d : Dfa) (w : Word) : Option Bool := d.recognizeFrom? d.start w

def graph (d : Dfa) : Digraph := ⟨d.rows.map fun row => SortedSet.ofList row.toList⟩

/-- One line `from symbol to` for each transition. -/
def renderTransitions (d : Dfa) : String :=
  String.join <| d.transitions.map fun t =>
    s!"{t.source} " ++ String.ofList t.label.toList ++ s!" {t.target}\n"

def toNfa (d : Dfa) : Nfa :=
  let blank := Nfa.withStates d.numStates d.alphabet d.start
  d.transitions.foldl Nfa.addTransition { blank with accepting := d.accepting }

end Dfa

end FiniteAutomata
