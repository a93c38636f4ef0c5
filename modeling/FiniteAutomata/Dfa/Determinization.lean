import FiniteAutomata.Dfa.Basic
import FiniteAutomata.Description.Parser
import FiniteAutomata.Numbering

/-!
# Determinization

The subset construction: the states of the deterministic automaton are sets of states, numbered as they are discovered
after the empty set (0) and the closure of the start state (1). A set is explored by taking its
step on each symbol in order; the set discovered last is explored next.
-/
namespace FiniteAutomata

namespace Nfa

/-- Numbers those of `images` that are not known yet, in order, and puts each on top of the stack `pending`. -/
def discover (known : Numbering (SortedSet Nat)) (pending : List (SortedSet Nat)) :
    List (SortedSet Nat) → Numbering (SortedSet Nat) × List (SortedSet Nat)
  | [] => (known, pending)
  | image :: rest =>
    if (known.indexOf? image).isSome then discover known pending rest
    else discover (known.add image) (image :: pending) rest

def images? (n : Nfa) (set : SortedSet Nat) : Option (List (SortedSet Nat)) :=
  n.alphabet.toList.mapM (n.step? set)

/-- Explores the sets of a stack and what they lead to. The fuel bounds the number of sets explored. -/
def explore? (n : Nfa) : Nat → Numbering (SortedSet Nat) → List (SortedSet Nat) →
    Option (Numbering (SortedSet Nat))
  | 0, known, _ => some known
  | _, known, [] => some known
  | fuel + 1, known, set :: rest => do
    let (known, pending) := discover known rest (← n.images? set)
    n.explore? fuel known pending

/-- The sets of states that reading words leads to, and the empty set; no automaton has more of them than its
states have subsets. -/
def powerSets? (n : Nfa) : Option (Numbering (SortedSet Nat)) := do
  let start ← n.closureOf? [n.start]
  n.explore? (Nat.pow 2 n.numStates) ((Numbering.empty.add ∅).add start) [start]

/-- The deterministic automaton on the sets of states that reading words leads to. -/
def determinize? (n : Nfa) : Option Dfa := do
  let sets ← n.powerSets?
  let rows ← sets.values.mapM fun set => do
    return ((← n.images? set).map fun image => (sets.indexOf? image).getD 0).toArray
  return {
    alphabet := n.alphabet
    start := 1
    rows
    accepting := sets.values.map fun set => set.toList.any n.isAccepting }

/-- Reads a text as a nondeterministic automaton, whatever its kind tag says. -/
def parse (text : String) : Except ParseError Nfa :=
  (Description.parseAs .lenient text).map ofDescription

end Nfa

namespace Dfa

def ofTable (header : Header) (transitions : List Transition) : Dfa where
  alphabet := header.alphabet
  start := header.start
  rows := ((List.range header.numStates).map fun s =>
    (header.alphabet.toList.map fun c =>
      match transitions.find? fun t => t.source = s ∧ t.label = some c with
      | some t => t.target
      | none => 0).toArray).toArray
  accepting := ((List.range header.numStates).map fun s => decide (s ∈ header.accepting)).toArray

/-- The automaton that a description stands for: a strict one is a complete table, and a lenient one is
determinized. -/
def ofDescription? (d : Description) : Option Dfa :=
  match d.mode with
  | .strict => some (ofTable d.toHeader d.transitions)
  | .lenient => (Nfa.ofDescription d).determinize?

end Dfa

end FiniteAutomata
