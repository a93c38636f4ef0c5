import FiniteAutomata.Graph.Digraph

/-!
# Strongly connected components

Two depth-first passes, after Kosaraju: the first orders the vertices by when it leaves them, and the second
searches against the edges from the vertex that was left last. What a search of the second
pass enters is one component, and the components come in topological order.
-/
namespace FiniteAutomata

/-- The components of a graph in the order of their discovery, and the component of each vertex. -/
structure Components where
  members : Array (SortedSet Nat)
  indices : Array Nat
  deriving DecidableEq

namespace Components
open Search

def size (c : Components) : Nat := c.members.size

def isEmpty (c : Components) : Bool := c.members.isEmpty

def componentOf? (c : Components) (v : Nat) : Option Nat := c.indices[v]?

/-- A component is trivial if it is a single vertex without a loop, so that no cycle runs through it. -/
def isTrivial? (c : Components) (g : Digraph) (i : Nat) : Option Bool := do
  let members ← c.members[i]?
  match members.toList with
  | [v] => return !(← g.hasSelfLoop? v)
  | _ => return false

def isCyclic? (c : Components) (g : Digraph) (v : Nat) : Option Bool := do
  return !(← c.isTrivial? g (← c.componentOf? v))

/-- Paints what each root leads to past painted vertices, with a colour of its own for each unpainted root,
counting up from `colour`. Answers also the colour after the last one. -/
def paintAll? (next : Nat → List Nat) (colour : Nat) (marks : Array (Option Nat)) :
    List Nat → Option (Array (Option Nat) × Nat)
  | [] => some (marks, colour)
  | root :: rest =>
    match marks[root]? with
    | none => none
    | some none => do paintAll? next (colour + 1) (← paint? next colour marks [root]) rest
    | some (some _) => paintAll? next colour marks rest

/-- The components whose numbers are the colours below `count`. -/
def ofColours (marks : Array (Option Nat)) (count : Nat) : Components where
  members := (List.range marks.size).foldr
    (fun v sets => sets.modify (marks[v]?.join.getD count) (·.insert v)) (Array.replicate count ∅)
  indices := marks.map (·.getD count)

def ofGraph? (g : Digraph) : Option Components := do
  let order ← g.leavingOrder?
  let reversed ← g.transpose?
  let (marks, count) ← paintAll? reversed.next 0 (Array.replicate g.size none) order
  return ofColours marks count

end Components

end FiniteAutomata
