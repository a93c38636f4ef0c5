import FiniteAutomata.Description.Basic
import FiniteAutomata.Graph.Search

/-!
# Nondeterministic automata with epsilon moves

An automaton keeps, for each of its states, the set of its moves, and one acceptance flag. Words are read on sets of
states: `closureOf?` adds what epsilon moves lead to and `step?` reads one symbol. Both answer
`none` when they come upon a state that does not exist.
-/
namespace FiniteAutomata

abbrev Word := List Char

/-- A move from some state: its label, which an epsilon move lacks, and where it leads. -/
structure Move where
  label : Option Char
  target : Nat
  deriving DecidableEq, Repr

/-- Moves are ordered by label, epsilon first, and then by target. -/
instance : Ord Move := ⟨compareLex (compareOn Move.label) (compareOn Move.target)⟩

instance : Std.TransOrd Move :=
  inferInstanceAs (Std.TransCmp (compareLex (compareOn Move.label) (compareOn Move.target)))

instance : Std.LawfulEqOrd Move where
  eq_of_compare {a b} h := by
    have h : (compareOn Move.label a b).then (compareOn Move.target a b) = .eq := h
    obtain ⟨hl, ht⟩ := Ordering.then_eq_eq.mp h
    cases a; cases b
    simp_all [compareOn]

structure Nfa where
  alphabet : Alphabet
  start : Nat
  moves : Array (SortedSet Move)
  accepting : Array Bool
  deriving DecidableEq

namespace Nfa
open Search

def numStates (n : Nfa) : Nat := n.moves.size

def states (n : Nfa) : List Nat := List.range n.numStates

/-- What is no state does not accept. -/
def isAccepting (n : Nfa) (s : Nat) : Bool := n.accepting[s]?.getD false

def acceptingStates (n : Nfa) : List Nat :=
  (List.range n.accepting.size).filter n.isAccepting

/-- `k` states without moves, none of them accepting. -/
def withStates (k : Nat) (alphabet : Alphabet) (start : Nat) : Nfa where
  alphabet
  start
  moves := Array.replicate k ∅
  accepting := Array.replicate k false

def addMove (source : Nat) (label : Option Char) (target : Nat) (n : Nfa) : Nfa :=
  { n with moves := n.moves.modify source (·.insert ⟨label, target⟩) }

def addTransition (n : Nfa) (t : Transition) : Nfa := n.addMove t.source t.label t.target

def markAccepting (n : Nfa) (s : Nat) : Nfa :=
  { n with accepting := n.accepting.modify s fun _ => true }

/-- The automaton that a description of either mode stands for. -/
def ofDescription (d : Description) : Nfa :=
  let blank := withStates d.numStates d.alphabet d.start
  d.transitions.foldl addTransition (d.accepting.toList.foldl markAccepting blank)

/-- The moves of a state in order; what is no state has none. -/
def movesFrom (n : Nfa) (s : Nat) : List Move := (n.moves[s]?.getD ∅).toList

/-- Where the moves of a state with a given label lead, in ascending order. -/
def targets (n : Nfa) (s : Nat) (label : Option Char) : List Nat :=
  (n.movesFrom s).filterMap fun m => if m.label = label then some m.target else none

def targets? (n : Nfa) (s : Nat) (label : Option Char) : Option (List Nat) :=
  if s < n.numStates then some (n.targets s label) else none

/-- Every transition once: by source, then by label with epsilon first, then by target. -/
def transitions (n : Nfa) : List Transition :=
  n.states.flatMap fun s => (n.movesFrom s).map fun m => ⟨s, m.label, m.target⟩

/-- The states that epsilon moves lead to from `sources`, themselves included. -/
def closureOf? (n : Nfa) (sources : List Nat) : Option (SortedSet Nat) :=
  reach? n.numStates (n.targets · none) sources

/-- The states that a symbol leads to from a set of states, closed under epsilon moves. -/
def step? (n : Nfa) (set : SortedSet Nat) (c : Char) : Option (SortedSet Nat) :=
  n.closureOf? (set.toList.flatMap fun s => n.targets s (some c))

/-- Reads a word from a set of states on. A symbol outside the alphabet rejects it, and so does a
symbol that leads nowhere. -/
def simulateFrom? (n : Nfa) (set : SortedSet Nat) : Word → Option Bool
  | [] => some (set.toList.any n.isAccepting)
  | c :: rest =>
    if c ∈ n.alphabet then do
      let next ← n.step? set c
      if next.isEmpty then return false
      n.simulateFrom? next rest
    else
      some false

def simulate? (n : Nfa) (w : Word) : Option Bool := do
  n.simulateFrom? (← n.closureOf? [n.start]) w

end Nfa

end FiniteAutomata
