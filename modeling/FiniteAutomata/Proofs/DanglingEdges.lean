import FiniteAutomata.Proofs.FinishTimes
import FiniteAutomata.Proofs.Transposition

/-!
# Edges that lead out of a graph

Edges are added without a look at where they end. Transposing a graph, ordering its vertices and finding its
components examine every edge, so each of them fails if and only if some edge dangles; a search examines what it
reaches, and fails if and only if it reaches what is no vertex (`Digraph.failsOnDangling`). Wherever they succeed every
vertex was looked up in a table that has it, and the numbers in the results are in range as well.
-/
namespace FiniteAutomata

open Search

namespace Search

variable {next : Nat → List Nat} {seen : Array Bool} {tasks : List Task} {left order : List Nat} {v : Nat}

/-- A search that succeeds has looked up every vertex that it was to enter, and the successors of those that it
entered. -/
theorem lt_of_leavingOrder? (h : leavingOrder? next seen tasks left = some order) (hv : .enter v ∈ tasks) :
    v < seen.size ∧ (seen[v]? = some false → ∀ w ∈ next v, w < seen.size) := by
  fun_induction leavingOrder? next seen tasks left generalizing v with
  | case1 => cases hv
  | case2 seen left u rest ih => exact ih h (by simpa using hv)
  | case3 => cases h
  | case4 seen left u rest hu ih =>
    rw [Array.size_setIfInBounds] at ih
    have hnext : ∀ w ∈ next u, w < seen.size := fun w hw => (ih h (by simp [hw])).1
    by_cases huv : u = v
    · subst huv
      exact ⟨(Array.getElem?_eq_some_iff.mp hu).1, fun _ => hnext⟩
    · have hrest : .enter v ∈ rest := (List.mem_cons.mp hv).resolve_left fun heq => huv (by cases heq; rfl)
      obtain ⟨hlt, hstays⟩ := ih h (List.mem_append_right _ (List.mem_cons_of_mem _ hrest))
      refine ⟨hlt, fun hfalse => hstays ?_⟩
      rw [Array.getElem?_setIfInBounds_ne huv, hfalse]
  | case5 seen left u rest hu ih =>
    rcases List.mem_cons.mp hv with heq | hrest
    · cases heq
      refine ⟨(Array.getElem?_eq_some_iff.mp hu).1, fun hfalse => ?_⟩
      rw [hu] at hfalse
      cases hfalse
    · exact ih h hrest

end Search

section Marked

open Components

variable {next : Nat → List Nat} {size count : Nat} {marks : Array (Option Nat)}
  (h : Painted next size marks count) (hmarked : ∀ v : Nat, marks[v]? ≠ some none)
include h hmarked

theorem Components.Painted.index_lt {i : Nat} (hi : i ∈ (ofColours marks count).indices) :
    i < (ofColours marks count).members.size := by
  obtain ⟨v, hv⟩ := Array.mem_iff_getElem?.mp hi
  rw [size_members_ofColours]
  exact h.colour_lt v i ((componentOf?_ofColours hmarked).mp hv)

theorem Components.Painted.member_lt {set : SortedSet Nat} (hset : set ∈ (ofColours marks count).members) {v : Nat}
    (hv : v ∈ set) : v < size := by
  obtain ⟨i, hi⟩ := Array.mem_iff_getElem?.mp hset
  have hmark := (h.mem_members_iff hmarked).mp ⟨set, hi, hv⟩
  exact h.size_eq ▸ (Array.getElem?_eq_some_iff.mp hmark).1

end Marked

namespace Digraph

variable {g : Digraph}

/-- Some edge leads to what is no vertex. -/
def Dangles (g : Digraph) : Prop := ∃ v w, w ∈ g.next v ∧ g.size ≤ w

theorem dangles_iff : g.Dangles ↔ ∃ v w, g.hasEdge? v w = some true ∧ g.size ≤ w := by
  simp only [Dangles, mem_next_iff]

theorem not_closed_iff : ¬ g.Closed ↔ g.Dangles := by
  rw [closed_iff, dangles_iff]
  simp only [not_forall, Nat.not_lt, exists_prop]

theorem transpose?_eq_none_iff : g.transpose? = none ↔ g.Dangles := by
  rw [← not_closed_iff, transpose?_eq_ite]
  by_cases hg : g.Closed <;> simp [hg]

/-- All vertices are entered, so all edges are examined. -/
theorem closed_of_leavingOrder? {order : List Nat} (h : g.leavingOrder? = some order) : g.Closed := by
  intro v hv w hw
  have henter : Task.enter v ∈ g.vertices.map Task.enter := List.mem_map_of_mem hv
  have hunseen : (Array.replicate g.size false)[v]? = some false := by
    rw [Array.getElem?_replicate, if_pos (List.mem_range.mp hv)]
  simpa using (lt_of_leavingOrder? h henter).2 hunseen w hw

theorem eq_none_iff_dangles {α : Type} {answer? : Option α} (hclosed : g.Closed → ∃ a, answer? = some a)
    (hdangles : g.Dangles → answer? = none) : answer? = none ↔ g.Dangles := by
  refine ⟨fun hnone => not_closed_iff.mp fun hg => ?_, hdangles⟩
  obtain ⟨a, ha⟩ := hclosed hg
  rw [hnone] at ha
  cases ha

theorem leavingOrder?_eq_none_iff : g.leavingOrder? = none ↔ g.Dangles := by
  refine eq_none_iff_dangles (fun hg => ?_) fun hdangles => ?_
  · obtain ⟨order, horder, -⟩ := hg.leavingOrder?_eq
    exact ⟨order, horder⟩
  · rw [Option.eq_none_iff_forall_ne_some]
    exact fun order horder => not_closed_iff.mpr hdangles (closed_of_leavingOrder? horder)

theorem finishTimes?_eq_none_iff : g.finishTimes? = none ↔ g.Dangles := by
  refine eq_none_iff_dangles (fun hg => ?_) fun hdangles => ?_
  · obtain ⟨-, times, htimes, -⟩ := hg.finishTimes?_eq
    exact ⟨times, htimes⟩
  · rw [finishTimes?, leavingOrder?_eq_none_iff.mpr hdangles]
    rfl

theorem ofGraph?_eq_none_iff : Components.ofGraph? g = none ↔ g.Dangles := by
  refine eq_none_iff_dangles (fun hg => ?_) fun hdangles => ?_
  · obtain ⟨c, hc, -⟩ := Components.ofGraph?_eq hg
    exact ⟨c, hc⟩
  · rw [Components.ofGraph?, leavingOrder?_eq_none_iff.mpr hdangles]
    rfl

theorem reachableFrom?_eq_none_iff {sources : List Nat} : g.reachableFrom? sources = none ↔
    ∃ v ∈ sources, ∃ w, Reaches g.next v w ∧ g.size ≤ w := by
  rw [reachableFrom?, reach?_eq_none_iff]
  constructor
  · rintro ⟨w, hge, v, hv, hpath⟩
    exact ⟨v, hv, w, hpath, hge⟩
  · rintro ⟨v, hv, w, hpath, hge⟩
    exact ⟨w, hge, v, hv, hpath⟩

/-- What fails on dangling edges succeeds on closed graphs only. -/
theorem closed_of_eq_some {α : Type} {answer? : Option α} (hfails : answer? = none ↔ g.Dangles) {a : α}
    (h : answer? = some a) : g.Closed := by
  by_contra hg
  rw [hfails.mpr (not_closed_iff.mp hg)] at h
  cases h

theorem transpose?_range {reversed : Digraph} (h : g.transpose? = some reversed) :
    reversed.size = g.size ∧ reversed.Closed := by
  obtain ⟨other, hother, htranspose⟩ := (closed_of_eq_some transpose?_eq_none_iff h).exists_transpose?
  obtain rfl : reversed = other := Option.some_inj.mp (h.symm.trans hother)
  exact ⟨htranspose.size_eq, htranspose.closed⟩

theorem finishTimes?_range {times : Array Nat} (h : g.finishTimes? = some times) :
    times.size = g.size ∧ ∀ t ∈ times, t < g.size := by
  obtain ⟨order, times', htimes, hperm, -, hplaces⟩ :=
    (closed_of_eq_some finishTimes?_eq_none_iff h).finishTimes?_eq
  obtain rfl : times = times' := Option.some_inj.mp (h.symm.trans htimes)
  have hperm' := perm_of_places hplaces hperm
  refine ⟨by simpa using hperm'.length_eq, fun t ht => ?_⟩
  exact List.mem_range.mp (hperm'.mem_iff.mp (Array.mem_toList_iff.mpr ht))

theorem ofGraph?_range {c : Components} (h : Components.ofGraph? g = some c) : c.indices.size = g.size ∧
    (∀ i ∈ c.indices, i < c.members.size) ∧ ∀ set ∈ c.members, ∀ v ∈ set, v < g.size := by
  obtain ⟨marks, count, hc, hpainted, hmarked⟩ :=
    Components.ofGraph?_eq_ofColours (closed_of_eq_some ofGraph?_eq_none_iff h)
  obtain rfl : c = Components.ofColours marks count := Option.some_inj.mp (h.symm.trans hc)
  refine ⟨?_, fun i hi => hpainted.index_lt hmarked hi, fun set hset v hv => hpainted.member_lt hmarked hset hv⟩
  rw [← hpainted.size_eq]
  exact Array.size_map ..

/-- A traversal fails on the dangling edges and vertices that it meets and on nothing else, and what it answers
otherwise speaks of the vertices of the graph only. -/
structure FailsOnDangling (g : Digraph) : Prop where
  transpose_eq_none_iff : g.transpose? = none ↔ g.Dangles
  finishTimes_eq_none_iff : g.finishTimes? = none ↔ g.Dangles
  components_eq_none_iff : Components.ofGraph? g = none ↔ g.Dangles
  reachableFrom_eq_none_iff : ∀ sources, g.reachableFrom? sources = none ↔
    ∃ v ∈ sources, ∃ w, Reaches g.next v w ∧ g.size ≤ w
  transpose_range : ∀ reversed, g.transpose? = some reversed → reversed.size = g.size ∧ reversed.Closed
  finishTimes_range : ∀ times, g.finishTimes? = some times → times.size = g.size ∧ ∀ t ∈ times, t < g.size
  components_range : ∀ c, Components.ofGraph? g = some c → c.indices.size = g.size ∧
    (∀ i ∈ c.indices, i < c.members.size) ∧ ∀ set ∈ c.members, ∀ v ∈ set, v < g.size
  reachableFrom_range : ∀ sources reached, g.reachableFrom? sources = some reached → ∀ w ∈ reached, w < g.size

/-- Whatever its edges, a graph is traversed to the end unless the traversal meets a vertex that does not exist. -/
theorem failsOnDangling (g : Digraph) : g.FailsOnDangling where
  transpose_eq_none_iff := transpose?_eq_none_iff
  finishTimes_eq_none_iff := finishTimes?_eq_none_iff
  components_eq_none_iff := ofGraph?_eq_none_iff
  reachableFrom_eq_none_iff _ := reachableFrom?_eq_none_iff
  transpose_range _ h := transpose?_range h
  finishTimes_range _ h := finishTimes?_range h
  components_range _ h := ofGraph?_range h
  reachableFrom_range _ _ h := (reach?_eq_some_iff.mp h).2

/-- An edge between two vertices, and one that dangles at a vertex that no edge leads to. -/
example : ((edgeless 3).addEdges [(0, 1), (2, 3)]).1.transpose? = none := by decide

end Digraph

end FiniteAutomata
