import FiniteAutomata.Proofs.Condensation

/-!
# Searching along the edges and against them

On a closed graph a search finds exactly the vertices that its sources lead to, whatever their order and repetition.
Transposing turns every edge around, and doing it twice changes nothing. A path in one of the two graphs
is a path back in the other, so a search from `u` finds `v` if and only if a search of the transposed graph from
`v` finds `u` (`Digraph.Closed.followsEdges`).
-/
namespace FiniteAutomata.Digraph

open Search

variable {g reversed : Digraph} {sources : List Nat} {u v : Nat}

theorem Closed.exists_reachableFrom? (hg : g.Closed) (hsources : ∀ v ∈ sources, v < g.size) :
    ∃ reached, g.reachableFrom? sources = some reached ∧
      ∀ w, w ∈ reached ↔ ∃ v ∈ sources, Reaches g.next v w := by
  obtain ⟨reached, hreached⟩ := exists_reach? hsources fun _ _ _ hw => hg.lt_of_mem_next hw
  exact ⟨reached, hreached, fun w => mem_reach? hreached⟩

theorem Closed.exists_reachable? (hg : g.Closed) (hu : u < g.size) :
    ∃ reached, g.reachable? u = some reached ∧ ∀ w, w ∈ reached ↔ Reaches g.next u w := by
  have hsources : ∀ v ∈ [u], v < g.size := by simpa using hu
  obtain ⟨reached, hreached, hmem⟩ := hg.exists_reachableFrom? hsources
  exact ⟨reached, hreached, by simpa using hmem⟩

/-- A closed graph whose edges are those of another one, turned around. -/
structure IsTransposeOf (reversed g : Digraph) : Prop where
  closed : reversed.Closed
  size_eq : reversed.size = g.size
  mem_next_iff : ∀ u v, u ∈ reversed.next v ↔ v ∈ g.next u

theorem Closed.exists_transpose? (hg : g.Closed) :
    ∃ reversed, g.transpose? = some reversed ∧ reversed.IsTransposeOf g := by
  obtain ⟨reversed, hreversed, hsize, hflip⟩ := hg.transpose?_eq
  refine ⟨reversed, hreversed, fun v _ w hw => ?_, hsize, fun u v => hflip v u⟩
  rw [hsize]
  exact source_lt_of_mem_next ((hflip v w).mp hw)

namespace IsTransposeOf

theorem hasEdge?_eq (h : reversed.IsTransposeOf g) (hu : u < g.size) (hv : v < g.size) :
    reversed.hasEdge? v u = g.hasEdge? u v := by
  rw [Digraph.hasEdge?_eq hu, Digraph.hasEdge?_eq (h.size_eq.symm ▸ hv)]
  simp only [h.mem_next_iff]

/-- Edges that have been turned around twice are as they were. -/
theorem transpose?_eq (h : reversed.IsTransposeOf g) : reversed.transpose? = some g := by
  obtain ⟨back, hback, htranspose⟩ := h.closed.exists_transpose?
  have heq : back = g := by
    refine ext_next (htranspose.size_eq.trans h.size_eq) fun v w => ?_
    rw [htranspose.mem_next_iff, h.mem_next_iff]
  rw [hback, heq]

theorem reaches_iff (h : reversed.IsTransposeOf g) : Reaches reversed.next v u ↔ Reaches g.next u v :=
  reaches_reversed_iff fun a b => h.mem_next_iff b a

theorem reachable?_iff (h : reversed.IsTransposeOf g) (hg : g.Closed) (hu : u < g.size) (hv : v < g.size) :
    ∃ fromU fromV, g.reachable? u = some fromU ∧ reversed.reachable? v = some fromV ∧
      (v ∈ fromU ↔ u ∈ fromV) := by
  obtain ⟨fromU, hfromU, hmemU⟩ := hg.exists_reachable? hu
  obtain ⟨fromV, hfromV, hmemV⟩ := h.closed.exists_reachable? (h.size_eq.symm ▸ hv)
  refine ⟨fromU, fromV, hfromU, hfromV, ?_⟩
  rw [hmemU, hmemV, h.reaches_iff]

end IsTransposeOf

/-- Searches find what the edges lead to, and the transposed graph has the same edges for the way back. -/
structure FollowsEdges (g : Digraph) : Prop where
  reachableFrom : ∀ sources, (∀ v ∈ sources, v < g.size) → ∃ reached, g.reachableFrom? sources = some reached ∧
    ∀ w, w ∈ reached ↔ ∃ v ∈ sources, Reaches g.next v w
  congr : ∀ sources sources', (∀ v, v ∈ sources ↔ v ∈ sources') →
    g.reachableFrom? sources = g.reachableFrom? sources'
  transpose : ∃ reversed, g.transpose? = some reversed ∧ reversed.IsTransposeOf g ∧
    (∀ u < g.size, ∀ v < g.size, reversed.hasEdge? v u = g.hasEdge? u v) ∧
    reversed.transpose? = some g ∧
    ∀ u < g.size, ∀ v < g.size, ∃ fromU fromV, g.reachable? u = some fromU ∧
      reversed.reachable? v = some fromV ∧ (v ∈ fromU ↔ u ∈ fromV)

/-- On closed graphs searches are exact, transposing is its own inverse, and it reverses what searches find. -/
theorem Closed.followsEdges (hg : g.Closed) : g.FollowsEdges where
  reachableFrom _ hsources := hg.exists_reachableFrom? hsources
  congr _ _ hsources := reach?_congr_mem hsources
  transpose := by
    obtain ⟨reversed, hreversed, htranspose⟩ := hg.exists_transpose?
    exact ⟨reversed, hreversed, htranspose, fun u hu v hv => htranspose.hasEdge?_eq hu hv,
      htranspose.transpose?_eq, fun u hu v hv => htranspose.reachable?_iff hg hu hv⟩

theorem followsEdges_cycleLoopEnd : cycleLoopEnd.Closed ∧ cycleLoopEnd.FollowsEdges ∧
    ∃ reached, cycleLoopEnd.reachableFrom? [2, 1, 2] = some reached ∧
      ∀ w, w ∈ reached ↔ ∃ v ∈ [2, 1, 2], Reaches cycleLoopEnd.next v w := by
  have hclosed : cycleLoopEnd.Closed := by decide
  have hsources : ∀ v ∈ [2, 1, 2], v < cycleLoopEnd.size := by decide
  exact ⟨hclosed, hclosed.followsEdges, hclosed.followsEdges.reachableFrom _ hsources⟩

end FiniteAutomata.Digraph
