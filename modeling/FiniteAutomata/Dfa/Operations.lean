import FiniteAutomata.Dfa.Determinization
import FiniteAutomata.Nfa.Operations

/-!
# Regular operations on deterministic automata

The operands are read as nondeterministic automata, combined there, and the result is determinized.
-/
namespace FiniteAutomata.Dfa

def union? (a b : Dfa) : Option Dfa := (a.toNfa.union b.toNfa).determinize?

def concat? (a b : Dfa) : Option Dfa := (a.toNfa.concat b.toNfa).determinize?

def star? (a : Dfa) : Option Dfa := a.toNfa.star.determinize?

def plus? (a : Dfa) : Option Dfa := a.toNfa.plus.determinize?

end FiniteAutomata.Dfa
