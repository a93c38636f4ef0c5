import FiniteAutomata.Proofs.Condensation
import Mathlib.Order.Bounds.Basic

/-!
# Finishing times

The finishing time of a vertex is its place in the order in which a depth-first search leaves the vertices, so the times
are the numbers from 0 on, each once. An edge leads to a vertex that finishes earlier, unless a path leads back from
there. Between components there is no way back: of two components, the one that an edge leads to the
other has the later last time (`Digraph.Closed.finishesDepthFirst`). Both laws are read off the leaving order
where exits return.
-/
namespace FiniteAutomata

open Search

/-- A path between two vertices of a component stays in the component. -/
theorem Mutual.path_of_subset {next : Nat → List Nat} {v x : Nat} {S : List Nat} (h : Mutual next v x)
    (hS : ∀ y, Mutual next v y → y ∈ S) :
    Relation.ReflTransGen (fun a b => b ∈ next a ∧ b ∈ S) v x := by
  obtain ⟨hvx, hxv⟩ := h
  induction hvx with
  | refl => exact .refl
  | @tail a b hva hedge ih =>
    exact (ih (.head hedge hxv)).tail ⟨hedge, hS b ⟨hva.tail hedge, hxv⟩⟩

namespace Search

variable {next : Nat → List Nat} {order earlier later : List Nat} {u v x i j : Nat}

/-- Of two components that an edge leads from and to, the vertex that is left last belongs to the former. Otherwise
the edge would begin a path to that vertex among the vertices left so far, and there would be a way back. -/
theorem ExitsReturn.not_mutual_of_edge (h : ExitsReturn next (x :: earlier)) (hnodup : (x :: earlier).Nodup)
    (hedge : v ∈ next u) (hne : ¬ Mutual next u v) (hu : u ∈ x :: earlier)
    (hv : ∀ y, Mutual next v y → y ∈ x :: earlier) : ¬ Mutual next v x := by
  intro hx
  have hpath : Relation.ReflTransGen (fun a b => b ∈ next a ∧ b ∈ x :: earlier) u x :=
    .head ⟨hedge, hv v ⟨.refl v, .refl v⟩⟩ (hx.path_of_subset hv)
  have hback := h.reaches_of_path hnodup hpath hu
  exact hne ⟨.edge hedge, hx.1.trans hback⟩

/-- The first entry of a list with a property has all entries with the property in it or behind it. -/
theorem exists_first {P : Nat → Prop} (hv : v ∈ order) (hP : P v) :
    ∃ later x earlier, order = later ++ x :: earlier ∧ P x ∧ ∀ y ∈ order, P y → y ∈ x :: earlier := by
  classical
  obtain ⟨x, hx⟩ : ∃ x, order.find? (fun y => decide (P y)) = some x := by
    rw [← Option.isSome_iff_exists, List.find?_isSome]
    exact ⟨v, hv, decide_eq_true hP⟩
  obtain ⟨hPx, later, earlier, rfl, hlater⟩ := List.find?_eq_some_iff_append.mp hx
  refine ⟨later, x, earlier, rfl, of_decide_eq_true hPx, fun y hy hPy => ?_⟩
  refine (List.mem_append.mp hy).resolve_left fun hy => ?_
  simpa [hPy] using hlater y hy

section Places

variable {times : Array Nat} (htimes : ∀ v i : Nat, times[v]? = some i ↔ order.reverse[i]? = some v)
include htimes

theorem time_of_append (horder : order = later ++ x :: earlier) : times[x]? = some earlier.length := by
  rw [htimes, horder]
  simp

theorem time_lt_of_mem (horder : order = later ++ x :: earlier) (hu : u ∈ earlier) (hj : times[u]? = some j) :
    j < earlier.length := by
  obtain ⟨k, hk⟩ := List.mem_iff_getElem?.mp (List.mem_reverse.mpr hu)
  have hlt : k < earlier.reverse.length := (List.getElem?_eq_some_iff.mp hk).1
  have htime : times[u]? = some k := by
    rw [htimes, horder, List.reverse_append, List.reverse_cons, List.append_assoc, List.getElem?_append_left hlt, hk]
  rw [hj, Option.some_inj] at htime
  rw [List.length_reverse] at hlt
  omega

theorem mem_of_time (hi : times[v]? = some i) : v ∈ order :=
  List.mem_reverse.mp (List.mem_of_getElem? ((htimes v i).mp hi))

/-- The times are the places of the order, each once. -/
theorem perm_of_places {n : Nat} (hperm : order.Perm (List.range n)) : times.toList.Perm (List.range n) := by
  refine (List.perm_ext_iff_of_nodup ?_ List.nodup_range).mpr fun i => ?_
  · rw [List.nodup_iff_getElem?_ne_getElem?]
    intro v w hvw hw heq
    have hi := (htimes w _).mp (Array.getElem?_eq_getElem hw)
    rw [Array.getElem?_toList, Array.getElem?_toList, Array.getElem?_eq_getElem hw, htimes, hi, Option.some_inj] at heq
    omega
  · rw [List.mem_range, List.mem_iff_getElem?]
    have hlength : order.reverse.length = n := by rw [List.length_reverse, hperm.length_eq, List.length_range]
    constructor
    · rintro ⟨v, hv⟩
      rw [Array.getElem?_toList, htimes] at hv
      exact hlength ▸ (List.getElem?_eq_some_iff.mp hv).1
    · intro hi
      refine ⟨order.reverse[i], ?_⟩
      rw [Array.getElem?_toList, htimes]
      exact List.getElem?_eq_getElem (hlength ▸ hi)

/-- The latest time among the vertices with a property is that of the one that is left last. -/
theorem isGreatest_time {P : Nat → Prop} (horder : order = later ++ x :: earlier) (hx : P x)
    (hfirst : ∀ y ∈ order, P y → y ∈ x :: earlier) :
    IsGreatest {t | ∃ y, P y ∧ times[y]? = some t} earlier.length := by
  refine ⟨⟨x, hx, time_of_append htimes horder⟩, ?_⟩
  rintro t ⟨y, hy, ht⟩
  rcases List.mem_cons.mp (hfirst y (mem_of_time htimes ht) hy) with rfl | hmem
  · rw [time_of_append htimes horder, Option.some_inj] at ht
    exact Nat.le_of_eq ht.symm
  · exact Nat.le_of_lt (time_lt_of_mem htimes horder hmem ht)

theorem ExitsReturn.time_lt_or_reaches (h : ExitsReturn next order) (hedge : v ∈ next u) (hi : times[u]? = some i)
    (hj : times[v]? = some j) : j < i ∨ Reaches next v u := by
  obtain ⟨later, earlier, horder⟩ := List.append_of_mem (mem_of_time htimes hi)
  have hsuffix : u :: earlier <:+ order := ⟨later, horder.symm⟩
  rw [time_of_append htimes horder, Option.some_inj] at hi
  rcases (h.suffix hsuffix).1 u (by simp) v hedge with hv | hreturn
  · rcases List.mem_cons.mp hv with rfl | hv
    · exact .inr (.refl v)
    · exact .inl (hi ▸ time_lt_of_mem htimes horder hv hj)
  · exact .inr hreturn

/-- The times of the component of a vertex. -/
def componentTimes (next : Nat → List Nat) (times : Array Nat) (v : Nat) : Set Nat :=
  {t | ∃ x, Mutual next v x ∧ times[x]? = some t}

theorem ExitsReturn.latest_lt_latest (h : ExitsReturn next order) (hnodup : order.Nodup) (hedge : v ∈ next u)
    (hne : ¬ Mutual next u v) (hu : u ∈ order) (hv : ∀ y, Mutual next v y → y ∈ order) :
    ∃ i j, IsGreatest (componentTimes next times u) i ∧ IsGreatest (componentTimes next times v) j ∧ j < i := by
  have hself (a : Nat) : Mutual next a a := ⟨.refl a, .refl a⟩
  -- The vertex of the two components that is left last, and the last one of the component behind the edge.
  obtain ⟨later, x, earlier, horder, hx, hfirst⟩ :=
    exists_first (P := fun y => Mutual next u y ∨ Mutual next v y) hu (.inl (hself u))
  obtain ⟨later', y, earlier', horder', hy, hfirst'⟩ := exists_first (P := Mutual next v) (hv v (hself v)) (hself v)
  have hsuffix : x :: earlier <:+ order := ⟨later, horder.symm⟩
  have hxv : ¬ Mutual next v x :=
    (h.suffix hsuffix).not_mutual_of_edge (hnodup.sublist hsuffix.sublist) hedge hne
      (hfirst u hu (.inl (hself u))) fun y hy => hfirst y (hv y hy) (.inr hy)
  refine ⟨earlier.length, earlier'.length, ?_, isGreatest_time htimes horder' hy hfirst', ?_⟩
  · exact isGreatest_time htimes horder (hx.resolve_right hxv) fun y hy hmutual => hfirst y hy (.inl hmutual)
  · have hyx : y ∈ earlier := by
      refine (List.mem_cons.mp (hfirst y (hv y hy) (.inr hy))).resolve_left ?_
      rintro rfl
      exact hxv hy
    exact time_lt_of_mem htimes horder hyx (time_of_append htimes horder')

end Places

end Search

namespace Digraph

variable {g : Digraph}

/-- Writing times for different vertices succeeds if all of them are in range, and each vertex has its time then. -/
theorem foldlM_setTime? (times : Array Nat) {entries : List (Nat × Nat)}
    (hrange : ∀ e ∈ entries, e.1 < times.size) (hnodup : (entries.map Prod.fst).Nodup) :
    ∃ result, entries.foldlM (fun times e => setTime? times e.1 e.2) times = some result ∧
      ∀ v i : Nat, result[v]? = some i ↔ (v, i) ∈ entries ∨ v ∉ entries.map Prod.fst ∧ times[v]? = some i := by
  induction entries generalizing times with
  | nil => exact ⟨times, rfl, by simp⟩
  | cons e entries ih =>
    obtain ⟨w, j⟩ := e
    obtain ⟨hw, hrest⟩ := List.forall_mem_cons.mp hrange
    obtain ⟨hfresh, hnodup⟩ := List.nodup_cons.mp hnodup
    obtain ⟨result, hresult, htimes⟩ := ih (times.setIfInBounds w j) (by simpa using hrest) hnodup
    refine ⟨result, ?_, fun v i => ?_⟩
    · rw [List.foldlM_cons, setTime?, if_pos hw]
      exact hresult
    · rw [htimes, Array.getElem?_setIfInBounds, List.mem_cons, Prod.mk.injEq, List.map_cons, List.mem_cons]
      by_cases hv : w = v
      · subst hv
        have hnone (k : Nat) : (w, k) ∉ entries := fun hk => hfresh (List.mem_map.mpr ⟨_, hk, rfl⟩)
        rw [if_pos rfl, if_pos hw, Option.some_inj]
        simp [hnone, hfresh, eq_comm]
      · simp [hv, Ne.symm hv]

/-- The finishing time of a vertex is its place in the leaving order, read from the end. -/
theorem Closed.finishTimes?_eq (hg : g.Closed) : ∃ order times, g.finishTimes? = some times ∧
    order.Perm g.vertices ∧ ExitsReturn g.next order ∧
    ∀ v i : Nat, times[v]? = some i ↔ order.reverse[i]? = some v := by
  obtain ⟨order, horder, hperm, hexits⟩ := hg.leavingOrder?_eq
  have hmem (v : Nat) : v ∈ order ↔ v < g.size := hperm.mem_iff.trans List.mem_range
  have hfst : order.reverse.zipIdx.map Prod.fst = order.reverse := List.zipIdx_map_fst 0 _
  have hrange : ∀ e ∈ order.reverse.zipIdx, e.1 < (Array.replicate g.size 0).size := by
    intro e he
    have hvertex : e.1 ∈ order.reverse := hfst ▸ List.mem_map_of_mem he
    rw [Array.size_replicate, ← hmem]
    exact List.mem_reverse.mp hvertex
  have hnodup : (order.reverse.zipIdx.map Prod.fst).Nodup := by
    rw [hfst, List.nodup_reverse]
    exact hperm.nodup_iff.mpr List.nodup_range
  obtain ⟨times, htimes, hget⟩ := foldlM_setTime? _ hrange hnodup
  refine ⟨order, times, ?_, hperm, hexits, fun v i => ?_⟩
  · rw [finishTimes?, horder]
    exact htimes
  · rw [hget, List.mem_zipIdx_iff_getElem?, hfst, List.mem_reverse, hmem]
    refine or_iff_left fun ⟨hv, hold⟩ => hv ?_
    simpa using (Array.getElem?_eq_some_iff.mp hold).1

/-- The times of a depth-first search: a vertex finishes after all that is entered from it. -/
structure FinishesDepthFirst (g : Digraph) (times : Array Nat) : Prop where
  perm : times.toList.Perm (List.range g.size)
  edge : ∀ u v i j, v ∈ g.next u → times[u]? = some i → times[v]? = some j → j < i ∨ Reaches g.next v u
  component : ∀ u v, v ∈ g.next u → ¬ Mutual g.next u v →
    ∃ i j, IsGreatest (componentTimes g.next times u) i ∧ IsGreatest (componentTimes g.next times v) j ∧ j < i

/-- On closed graphs the search finishes every vertex, and its times obey the laws of a depth-first order. -/
theorem Closed.finishesDepthFirst (hg : g.Closed) :
    ∃ times, g.finishTimes? = some times ∧ g.FinishesDepthFirst times := by
  obtain ⟨order, times, hfinish, hperm, hexits, htimes⟩ := hg.finishTimes?_eq
  have hmem (v : Nat) : v ∈ order ↔ v < g.size := hperm.mem_iff.trans List.mem_range
  refine ⟨times, hfinish, perm_of_places htimes hperm, ?_, fun u v hedge hne => ?_⟩
  · exact fun u v i j hedge hi hj => hexits.time_lt_or_reaches htimes hedge hi hj
  · have hu : u ∈ order := (hmem u).mpr (source_lt_of_mem_next hedge)
    refine hexits.latest_lt_latest htimes (hperm.nodup_iff.mpr List.nodup_range) hedge hne hu fun y hy => ?_
    rw [hmem]
    exact hy.1.mem_of_closed (S := {a | a < g.size}) (fun _ _ _ hw => hg.lt_of_mem_next hw) (hg.lt_of_mem_next hedge)

theorem finishesDepthFirst_cycleLoopEnd : cycleLoopEnd.Closed ∧
    ∃ times, cycleLoopEnd.finishTimes? = some times ∧ cycleLoopEnd.FinishesDepthFirst times := by
  have hclosed : cycleLoopEnd.Closed := by decide
  exact ⟨hclosed, hclosed.finishesDepthFirst⟩

end Digraph

end FiniteAutomata
