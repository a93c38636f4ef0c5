import FiniteAutomata.Graph.Search

/-!
# Directed graphs

A graph on the vertices `0, …, size - 1`, with the set of successors of each. Adding an edge checks where it
starts and not that it ends at a vertex, so an edge may lead out of the graph; `Closed` graphs have no such edge.
Operations that follow edges answer `none` when they come upon a vertex that does not exist.
-/
namespace FiniteAutomata

structure Digraph where
  successors : Array (SortedSet Nat)
  deriving DecidableEq

namespace Digraph
open Search

def edgeless (n : Nat) : Digraph := ⟨Array.replicate n ∅⟩

def size (g : Digraph) : Nat := g.successors.size

def isEmpty (g : Digraph) : Bool := g.successors.isEmpty

/-- Adds an edge; what starts at no vertex is no edge. -/
def addEdge (g : Digraph) (source target : Nat) : Digraph :=
  ⟨g.successors.modify source (·.insert target)⟩

def addEdge? (g : Digraph) (source target : Nat) : Option Digraph :=
  if source < g.size then some (g.addEdge source target) else none

/-- An edge leads below this number, so that the vertices up to its end have a 64-bit count. -/
def targetLimit : Nat := UInt64.size - 1

/-- Adds edges one after another, up to the first that cannot be added. Answers also whether all were added. -/
def addEdges (g : Digraph) : List (Nat × Nat) → Digraph × Bool
  | [] => (g, true)
  | (source, target) :: rest =>
    if source < g.size ∧ target < targetLimit then (g.addEdge source target).addEdges rest
    else (g, false)

def successors? (g : Digraph) (v : Nat) : Option (SortedSet Nat) := g.successors[v]?

/-- The successors of a vertex in ascending order; what is no vertex has none. -/
def next (g : Digraph) (v : Nat) : List Nat := (g.successors[v]?.getD ∅).toList

def hasEdge? (g : Digraph) (source target : Nat) : Option Bool :=
  (g.successors? source).map fun s => decide (target ∈ s)

def hasSelfLoop? (g : Digraph) (v : Nat) : Option Bool := g.hasEdge? v v

/-- The successors of a vertex are the ends of the edges that start there. -/
theorem mem_next_iff {g : Digraph} {v w : Nat} : w ∈ g.next v ↔ g.hasEdge? v w = some true := by
  rw [next, hasEdge?, successors?]
  cases g.successors[v]? with
  | none => simp [← SortedSet.mem_def]
  | some s => simp [SortedSet.mem_def]

def vertices (g : Digraph) : List Nat := List.range g.size

/-- Every edge leads to a vertex of the graph. -/
def Closed (g : Digraph) : Prop := ∀ v ∈ g.vertices, ∀ w ∈ g.next v, w < g.size

instance (g : Digraph) : Decidable g.Closed := by unfold Closed; infer_instance

/-- The graph with every edge turned around. An edge that leads to no vertex cannot be. -/
def transpose? (g : Digraph) : Option Digraph :=
  g.vertices.foldrM
    (fun v reversed => (g.next v).foldlM (fun r w => r.addEdge? w v) reversed) (edgeless g.size)

def isSymmetric? (g : Digraph) : Option Bool := g.transpose?.map fun t => decide (g = t)

/-- The vertices that `sources` lead to, themselves included. -/
def reachableFrom? (g : Digraph) (sources : List Nat) : Option (SortedSet Nat) :=
  reach? g.size g.next sources

def reachable? (g : Digraph) (source : Nat) : Option (SortedSet Nat) :=
  g.reachableFrom? [source]

/-- All vertices in the order in which a depth-first search leaves them, the last one first. The search starts
from the vertices in ascending order and takes the successors of each in ascending order. -/
def leavingOrder? (g : Digraph) : Option (List Nat) :=
  Search.leavingOrder? g.next (Array.replicate g.size false) (g.vertices.map .enter) []

def setTime? (times : Array Nat) (v time : Nat) : Option (Array Nat) :=
  if v < times.size then some (times.setIfInBounds v time) else none

/-- For each vertex, its place in the order in which the search leaves them, from 0 for the first one. -/
def finishTimes? (g : Digraph) : Option (Array Nat) := do
  let order ← g.leavingOrder?
  order.reverse.zipIdx.foldlM (fun times entry => setTime? times entry.1 entry.2)
    (Array.replicate g.size 0)

end Digraph

end FiniteAutomata
