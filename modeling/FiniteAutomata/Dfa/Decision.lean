import FiniteAutomata.Dfa.Basic
import FiniteAutomata.Graph.Components

/-!
# Emptiness and infiniteness

Both questions on an automaton's language are questions on its graph: the language is empty if no accepting state can
be reached, and infinite if some cycle lies on a path from the start to an accepting state.
-/
namespace FiniteAutomata.Dfa

def isLanguageEmpty? (d : Dfa) : Option Bool := do
  let reached ← d.graph.reachable? d.start
  return reached.toList.all fun s => !d.isAccepting s

def isLanguageInfinite? (d : Dfa) : Option Bool := do
  let fromStart ← d.graph.reachable? d.start
  let toAccepting ← (← d.graph.transpose?).reachableFrom? d.acceptingStates
  let components ← Components.ofGraph? d.graph
  let useful := fromStart.inter toAccepting
  return (← useful.toList.mapM (components.isCyclic? d.graph)).any id

end FiniteAutomata.Dfa
