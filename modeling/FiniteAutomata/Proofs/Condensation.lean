import FiniteAutomata.Proofs.Components

/-!
# The components of a graph in topological order

The components of a closed graph list every vertex exactly once, and each edge stays in its component or leads to one
that comes later (`Components.condenses_ofGraph?`). Both rest on the colours of the second pass: a
component has been painted as a whole, after everything that leads to it.
-/
namespace FiniteAutomata

open Search

namespace Components

/-- The lists of members are the strongly connected components of a graph, in topological order. -/
structure Condenses (c : Components) (g : Digraph) : Prop where
  partition : (c.members.toList.flatMap SortedSet.toList).Perm g.vertices
  ascending : ∀ set ∈ c.members, set.toList.Pairwise (· < ·)
  nonempty : ∀ set ∈ c.members, set.toList ≠ []
  componentOf?_eq_iff : ∀ v i, c.componentOf? v = some i ↔ ∃ set, c.members[i]? = some set ∧ v ∈ set
  same_iff : ∀ v < g.size, ∀ w < g.size, c.componentOf? v = c.componentOf? w ↔ Mutual g.next v w
  edge_lt : ∀ v w i j, w ∈ g.next v → c.componentOf? v = some i → c.componentOf? w = some j →
    i ≠ j → i < j
  isTrivial?_eq : ∀ v < g.size, ∃ i trivial, c.componentOf? v = some i ∧ c.isTrivial? g i = some trivial ∧
    (trivial = false ↔ Relation.TransGen (fun a b => b ∈ g.next a) v v)

theorem ascending_toList (set : SortedSet Nat) : set.toList.Pairwise (· < ·) :=
  set.ascending.imp Nat.compare_eq_lt.mp

theorem isCyclic?_eq_some_iff {c : Components} {g : Digraph} {v : Nat} {cyclic : Bool} :
    c.isCyclic? g v = some cyclic ↔ ∃ i trivial, c.componentOf? v = some i ∧
      c.isTrivial? g i = some trivial ∧ cyclic = !trivial := by
  simp only [isCyclic?, Option.bind_eq_bind, Option.bind_eq_some_iff, Option.pure_def, Option.some_inj]
  refine exists_congr fun i => ?_
  constructor
  · rintro ⟨hi, trivial, htrivial, rfl⟩
    exact ⟨trivial, hi, htrivial, rfl⟩
  · rintro ⟨trivial, hi, htrivial, rfl⟩
    exact ⟨hi, trivial, htrivial, rfl⟩

section Marked

variable {next : Nat → List Nat} {size count : Nat} {marks : Array (Option Nat)}
  (h : Painted next size marks count) (hmarked : ∀ v : Nat, marks[v]? ≠ some none)
include h hmarked

theorem Painted.partition :
    ((ofColours marks count).members.toList.flatMap SortedSet.toList).Perm (List.range size) := by
  have hcolour {i : Nat} (hi : i < (ofColours marks count).members.toList.length) {v : Nat}
      (hv : v ∈ (ofColours marks count).members.toList[i].toList) : marks[v]? = some (some i) := by
    refine (h.mem_members_iff hmarked).mp ⟨_, ?_, hv⟩
    rw [← Array.getElem?_toList, List.getElem?_eq_getElem hi]
  have hdisjoint : (ofColours marks count).members.toList.Pairwise
      fun set set' => List.Disjoint set.toList set'.toList := by
    rw [List.pairwise_iff_getElem]
    intro i j hi hj hij v hvi hvj
    have heq := (hcolour hi hvi).symm.trans (hcolour hj hvj)
    rw [Option.some_inj, Option.some_inj] at heq
    omega
  refine (List.perm_ext_iff_of_nodup ?_ List.nodup_range).mpr fun v => ?_
  · exact List.nodup_flatMap.mpr ⟨fun set _ => set.nodup, hdisjoint⟩
  rw [List.mem_flatMap, List.mem_range]
  constructor
  · rintro ⟨set, hset, hv⟩
    obtain ⟨i, hi, rfl⟩ := List.mem_iff_getElem.mp hset
    have hlt := (Array.getElem?_eq_some_iff.mp (hcolour hi hv)).1
    exact h.size_eq ▸ hlt
  · intro hv
    obtain ⟨i, hi⟩ := exists_colour hmarked (h.size_eq.symm ▸ hv)
    obtain ⟨set, hset, hmem⟩ := (h.mem_members_iff hmarked).mpr hi
    exact ⟨set, Array.mem_toList_iff.mpr (Array.mem_of_getElem? hset), hmem⟩

theorem Painted.nonempty : ∀ set ∈ (ofColours marks count).members, set.toList ≠ [] := by
  intro set hset hnil
  obtain ⟨i, hi, rfl⟩ := Array.mem_iff_getElem.mp hset
  have hget : (ofColours marks count).members[i]? = some (ofColours marks count).members[i] :=
    Array.getElem?_eq_getElem hi
  rw [size_members_ofColours] at hi
  obtain ⟨v, hv⟩ := h.used i hi
  obtain ⟨set, hset, hmem⟩ := (h.mem_members_iff hmarked).mpr hv
  rw [hget, Option.some_inj] at hset
  rw [← hset, SortedSet.mem_def, hnil] at hmem
  exact List.not_mem_nil hmem

theorem Painted.componentOf?_eq_iff (v i : Nat) : (ofColours marks count).componentOf? v = some i ↔
    ∃ set, (ofColours marks count).members[i]? = some set ∧ v ∈ set :=
  (componentOf?_ofColours hmarked).trans (h.mem_members_iff hmarked).symm

theorem Painted.componentOf?_eq_componentOf?_iff {v w : Nat} (hv : v < size) :
    (ofColours marks count).componentOf? v = (ofColours marks count).componentOf? w ↔ Mutual next v w := by
  obtain ⟨i, hi⟩ := exists_colour hmarked (h.size_eq.symm ▸ hv)
  have hcomponent : (ofColours marks count).componentOf? v = some i :=
    (componentOf?_ofColours hmarked).mpr hi
  rw [hcomponent, eq_comm, componentOf?_ofColours hmarked]
  exact h.same_iff v i hi w

theorem Painted.edge_lt {v w i j : Nat} (hv : v < size) (hedge : w ∈ next v)
    (hi : (ofColours marks count).componentOf? v = some i)
    (hj : (ofColours marks count).componentOf? w = some j) (hne : i ≠ j) : i < j := by
  rw [componentOf?_ofColours hmarked] at hi hj
  obtain ⟨k, hk, hmark⟩ := h.source_le w j hj v hv hedge
  rw [hi, Option.some_inj, Option.some_inj] at hmark
  omega

end Marked

/-- The two passes over a closed graph find its strongly connected components, each in ascending order, and
list them so that every edge between two components leads to the later one. -/
theorem condenses_ofGraph? {g : Digraph} (hg : g.Closed) : ∃ c, ofGraph? g = some c ∧ c.Condenses g := by
  obtain ⟨marks, count, hc, hpainted, hmarked⟩ := ofGraph?_eq_ofColours hg
  obtain ⟨c, hc', hcyclic⟩ := isCyclic?_eq hg
  obtain rfl : ofColours marks count = c := Option.some_inj.mp (hc.symm.trans hc')
  refine ⟨_, hc, ?_⟩
  constructor
  case partition => exact hpainted.partition hmarked
  case ascending => exact fun set _ => ascending_toList set
  case nonempty => exact hpainted.nonempty hmarked
  case componentOf?_eq_iff => exact hpainted.componentOf?_eq_iff hmarked
  case same_iff => exact fun v hv w _ => hpainted.componentOf?_eq_componentOf?_iff hmarked hv
  case edge_lt =>
    intro v w i j hedge
    exact hpainted.edge_lt hmarked (Digraph.source_lt_of_mem_next hedge) hedge
  case isTrivial?_eq =>
    intro v hv
    obtain ⟨cyclic, hv, hiff⟩ := hcyclic v hv
    obtain ⟨i, trivial, hi, htrivial, rfl⟩ := isCyclic?_eq_some_iff.mp hv
    exact ⟨i, trivial, hi, htrivial, by simpa using hiff⟩

end Components

/-- A cycle of two vertices, behind it a vertex with a loop, and behind that a vertex on no cycle. -/
def Digraph.cycleLoopEnd : Digraph := ((edgeless 4).addEdges [(3, 1), (1, 3), (1, 2), (2, 2), (2, 0)]).1

theorem Components.condenses_cycleLoopEnd : Digraph.cycleLoopEnd.Closed ∧
    ∃ c, ofGraph? Digraph.cycleLoopEnd = some c ∧ c.Condenses Digraph.cycleLoopEnd := by
  have hclosed : Digraph.cycleLoopEnd.Closed := by decide
  exact ⟨hclosed, condenses_ofGraph? hclosed⟩

end FiniteAutomata
