import FiniteAutomata.Proofs.Reachability
import Mathlib.Data.List.Nodup

/-!
# The order in which a search leaves vertices

A depth-first search leaves every vertex once (`Leaving.result`). When it leaves a vertex, what it has left so far has
edges only among itself and to the vertices it is still in, and from each of these the vertex can be reached. This is
`ExitsReturn`, the one property of the order that the search for components needs.
-/
namespace FiniteAutomata.Search

variable {next : Nat → List Nat} {size v : Nat} {seen seen' : Array Bool} {tasks rest : List Task}
  {left above above' : List Nat}

/-- The vertex that a task is about. -/
def Task.vertex : Task → Nat
  | .enter v => v
  | .leave v => v

/-- The vertex that a task leaves. -/
def Task.leaves? : Task → Option Nat
  | .enter _ => none
  | .leave v => some v

/-- The vertices that the search has entered: those that it has still to leave, and those that it has left. -/
def entered (tasks : List Task) (left : List Nat) : List Nat := tasks.filterMap Task.leaves? ++ left

/-- The successors of every vertex that is still to be left have been seen, or are entered before that. -/
def Owed (next : Nat → List Nat) (seen : Array Bool) : List Nat → List Task → Prop
  | _, [] => True
  | above, .enter v :: rest => Owed next seen (v :: above) rest
  | above, .leave v :: rest =>
    (∀ w ∈ next v, seen[w]? = some true ∨ w ∈ above) ∧ Owed next seen above rest

/-- Each edge that leaves a vertex and those listed behind it leads to where that vertex can be reached from. -/
def ExitsReturn (next : Nat → List Nat) : List Nat → Prop
  | [] => True
  | x :: earlier => (∀ u ∈ x :: earlier, ∀ w ∈ next u, w ∈ x :: earlier ∨ Reaches next w x) ∧
      ExitsReturn next earlier

theorem Owed.mono (hseen : ∀ w : Nat, seen[w]? = some true → seen'[w]? = some true)
    (habove : ∀ w ∈ above, seen'[w]? = some true ∨ w ∈ above') (h : Owed next seen above tasks) :
    Owed next seen' above' tasks := by
  induction tasks generalizing above above' with
  | nil => trivial
  | cons task tasks ih =>
    cases task with
    | enter v =>
      refine ih (fun w hw => ?_) h
      rcases List.mem_cons.mp hw with rfl | hw
      · exact .inr (by simp)
      · exact (habove w hw).imp_right fun h => List.mem_cons_of_mem v h
    | leave v =>
      refine ⟨fun w hw => ?_, ih habove h.2⟩
      rcases h.1 w hw with hs | ha
      · exact .inl (hseen w hs)
      · exact habove w ha

theorem owed_enter_append {vs : List Nat} (h : Owed next seen (vs.reverse ++ above) tasks) :
    Owed next seen above (vs.map .enter ++ tasks) := by
  induction vs generalizing above with
  | nil => exact h
  | cons v vs ih =>
    refine ih ?_
    simpa using h

/-- What holds between the steps of the search. -/
structure Leaving (next : Nat → List Nat) (size : Nat) (seen : Array Bool) (tasks : List Task)
    (left : List Nat) : Prop where
  size_eq : seen.size = size
  enter_lt : ∀ v, .enter v ∈ tasks → v < size
  todo : ∀ v < size, seen[v]? = some true ∨ .enter v ∈ tasks
  seen_iff : ∀ v, seen[v]? = some true ↔ v ∈ entered tasks left
  nodup : (entered tasks left).Nodup
  left_next : ∀ u ∈ left, ∀ w ∈ next u, seen[w]? = some true
  owed : Owed next seen [] tasks
  stack : tasks.Pairwise fun a b => ∀ u, b = .leave u → Reaches next u a.vertex
  exits : ExitsReturn next left

namespace Leaving

theorem leave (h : Leaving next size seen (.leave v :: rest) left) :
    Leaving next size seen rest (v :: left) := by
  have hperm : (entered rest (v :: left)).Perm (entered (.leave v :: rest) left) :=
    List.perm_middle
  have hstack := List.pairwise_cons.mp h.stack
  have hnext : ∀ u ∈ v :: left, ∀ w ∈ next u, seen[w]? = some true := by
    intro u hu w hw
    rcases List.mem_cons.mp hu with rfl | hu
    · exact (h.owed.1 w hw).resolve_right List.not_mem_nil
    · exact h.left_next u hu w hw
  refine ⟨h.size_eq, fun u hu => h.enter_lt u (by simp [hu]), fun u hu => ?_, fun u => ?_,
    hperm.nodup_iff.mpr h.nodup, hnext, h.owed.2, hstack.2, ⟨fun u hu w hw => ?_, h.exits⟩⟩
  · simpa using h.todo u hu
  · rw [h.seen_iff, hperm.mem_iff]
  · -- The successor has been seen: either it has been left, or the search is still in it.
    have hw := (h.seen_iff w).mp (hnext u hu w hw)
    rw [← hperm.mem_iff, entered, List.mem_append, List.mem_filterMap] at hw
    rcases hw with ⟨task, htask, heq⟩ | hw
    · cases task with
      | enter x => cases heq
      | leave x =>
        cases heq
        exact .inr (hstack.1 _ htask w rfl)
    · exact .inl hw

theorem skip (h : Leaving next size seen (.enter v :: rest) left) (hseen : seen[v]? = some true) :
    Leaving next size seen rest left := by
  refine ⟨h.size_eq, fun u hu => h.enter_lt u (by simp [hu]), fun u hu => ?_, h.seen_iff, h.nodup,
    h.left_next, h.owed.mono (fun w hw => hw) ?_, (List.pairwise_cons.mp h.stack).2, h.exits⟩
  · rcases h.todo u hu with hs | he
    · exact .inl hs
    · rcases List.mem_cons.mp he with heq | he
      · cases heq
        exact .inl hseen
      · exact .inr he
  · simpa using hseen

theorem enter (hnext : ∀ v < size, ∀ w ∈ next v, w < size)
    (h : Leaving next size seen (.enter v :: rest) left) (hv : seen[v]? = some false) :
    Leaving next size (seen.setIfInBounds v true) ((next v).map .enter ++ .leave v :: rest) left := by
  have hlt : v < size := h.enter_lt v (by simp)
  have hset (w : Nat) : (seen.setIfInBounds v true)[w]? = some true ↔ w = v ∨ seen[w]? = some true := by
    rw [Array.getElem?_setIfInBounds]
    by_cases hw : v = w
    · subst hw
      rw [if_pos rfl, if_pos (h.size_eq ▸ hlt)]
      simp
    · simp [hw, Ne.symm hw]
  have hfresh : v ∉ entered (.enter v :: rest) left := by
    rw [← h.seen_iff, hv]
    simp
  have hentered : entered ((next v).map .enter ++ .leave v :: rest) left =
      v :: entered (.enter v :: rest) left := by
    have hnone : ((next v).map Task.enter).filterMap Task.leaves? = [] := by
      simp [List.filterMap_map, Function.comp_def, Task.leaves?]
    rw [entered, List.filterMap_append, hnone]
    rfl
  have hstack := List.pairwise_cons.mp h.stack
  refine ⟨by simp [h.size_eq], fun u hu => ?_, fun u hu => ?_, fun u => ?_, ?_, fun u hu w hw => ?_,
    ?_, ?_, h.exits⟩
  · rcases List.mem_append.mp hu with hu | hu
    · obtain ⟨w, hw, heq⟩ := List.mem_map.mp hu
      cases heq
      exact hnext v hlt _ hw
    · exact h.enter_lt u (List.mem_cons_of_mem _ (by simpa using hu))
  · rw [hset]
    rcases h.todo u hu with hs | he
    · exact .inl (.inr hs)
    · rcases List.mem_cons.mp he with heq | he
      · cases heq
        exact .inl (.inl rfl)
      · exact .inr (by simp [he])
  · rw [hset, hentered, List.mem_cons, h.seen_iff]
  · rw [hentered]
    exact List.nodup_cons.mpr ⟨hfresh, h.nodup⟩
  · exact (hset w).mpr (.inr (h.left_next u hu w hw))
  · refine owed_enter_append ⟨fun w hw => .inr (by simpa using hw), ?_⟩
    refine h.owed.mono (fun w hw => (hset w).mpr (.inr hw)) fun w hw => .inl ((hset w).mpr (.inl ?_))
    simpa using hw
  · rw [List.pairwise_append, List.pairwise_cons]
    refine ⟨?_, ⟨hstack.1, hstack.2⟩, fun a ha b hb u hbu => ?_⟩
    · rw [List.pairwise_map]
      exact List.pairwise_of_forall fun a b u heq => by cases heq
    · obtain ⟨w, hw, rfl⟩ := List.mem_map.mp ha
      rcases List.mem_cons.mp hb with heq | hb
      · rw [hbu] at heq
        cases heq
        exact .edge hw
      · exact (hstack.1 b hb u hbu).trans (.edge hw)

theorem start (next : Nat → List Nat) (size : Nat) :
    Leaving next size (Array.replicate size false) ((List.range size).map .enter) [] := by
  have hnone : entered ((List.range size).map .enter) [] = [] := by
    simp [entered, List.filterMap_map, Function.comp_def, Task.leaves?]
  refine ⟨by simp, by simp, fun v hv => .inr (by simpa using hv), fun v => ?_, by simp [hnone],
    by simp, ?_, ?_, trivial⟩
  · rw [hnone]
    simp [Array.getElem?_replicate]
  · rw [← List.append_nil ((List.range size).map _)]
    exact owed_enter_append trivial
  · rw [List.pairwise_map]
    exact List.pairwise_of_forall fun a b u heq => by cases heq

/-- A search along edges in range succeeds. It lists every vertex once, in an order where exits return. -/
theorem result (hnext : ∀ v < size, ∀ w ∈ next v, w < size) (h : Leaving next size seen tasks left) :
    ∃ order, leavingOrder? next seen tasks left = some order ∧ order.Perm (List.range size) ∧
      ExitsReturn next order := by
  fun_induction leavingOrder? next seen tasks left with
  | case1 seen left =>
    refine ⟨left, rfl, (List.perm_ext_iff_of_nodup h.nodup List.nodup_range).mpr fun v => ?_, h.exits⟩
    rw [List.mem_range]
    constructor
    · intro hv
      exact h.size_eq ▸ (Array.getElem?_eq_some_iff.mp ((h.seen_iff v).mpr hv)).1
    · intro hv
      exact (h.seen_iff v).mp ((h.todo v hv).resolve_right List.not_mem_nil)
  | case2 seen left v rest ih => exact ih h.leave
  | case3 seen left v rest hv =>
    have hlt : v < seen.size := h.size_eq ▸ h.enter_lt v (by simp)
    rw [Array.getElem?_eq_getElem hlt] at hv
    cases hv
  | case4 seen left v rest hv ih => exact ih (h.enter hnext hv)
  | case5 seen left v rest hv ih => exact ih (h.skip hv)

end Leaving

theorem ExitsReturn.suffix {order order' : List Nat} (h : ExitsReturn next order) (hsuffix : order' <:+ order) :
    ExitsReturn next order' := by
  induction order with
  | nil =>
    obtain rfl := List.suffix_nil.mp hsuffix
    exact h
  | cons y order ih =>
    rcases List.suffix_cons_iff.mp hsuffix with rfl | hsuffix
    · exact h
    · exact ih h.2 hsuffix

/-- In an order where exits return, a vertex is led to from the first one if a path in the order leads from it
to the first one. Along the path, an edge either stays in what was left up to some point or returns to
that point, so the induction is on the path and for all points at once. -/
theorem ExitsReturn.reaches_of_path {r u : Nat} {order : List Nat} (h : ExitsReturn next (r :: order))
    (hnodup : (r :: order).Nodup)
    (hpath : Relation.ReflTransGen (fun a b => b ∈ next a ∧ b ∈ r :: order) u r) (hu : u ∈ r :: order) :
    Reaches next r u := by
  have hpoints : ∀ x earlier, x :: earlier <:+ r :: order → u ∈ x :: earlier → Reaches next r x := by
    induction hpath using Relation.ReflTransGen.head_induction_on with
    | refl =>
      intro x earlier hsuffix hr
      rcases List.suffix_cons_iff.mp hsuffix with heq | hsuffix
      · cases heq
        exact .refl r
      · exact absurd (hsuffix.subset hr) (List.nodup_cons.mp hnodup).1
    | head hedge _ ih =>
      intro x earlier hsuffix hmem
      rcases (h.suffix hsuffix).1 _ hmem _ hedge.1 with hstay | hreturn
      · exact ih hedge.2 x earlier hsuffix hstay
      · obtain ⟨later, earlier', heq⟩ := List.append_of_mem hedge.2
        have hpoint := ih hedge.2 _ earlier' ⟨later, heq.symm⟩ (by simp)
        exact hpoint.trans hreturn
  obtain ⟨later, earlier, heq⟩ := List.append_of_mem hu
  exact hpoints u earlier ⟨later, heq.symm⟩ (by simp)

end FiniteAutomata.Search

namespace FiniteAutomata.Digraph

open Search

variable {g : Digraph} {v w : Nat}

theorem source_lt_of_mem_next (h : w ∈ g.next v) : v < g.size := by
  by_contra hv
  rw [next, Array.getElem?_eq_none (by simpa [size] using hv)] at h
  exact SortedSet.not_mem_empty w h

theorem Closed.lt_of_mem_next (hg : g.Closed) (h : w ∈ g.next v) : w < g.size :=
  hg v (List.mem_range.mpr (source_lt_of_mem_next h)) w h

theorem closed_iff : g.Closed ↔ ∀ v w, g.hasEdge? v w = some true → w < g.size := by
  simp only [← mem_next_iff]
  exact ⟨fun hg _ _ hedge => hg.lt_of_mem_next hedge, fun h v _ w hedge => h v w hedge⟩

theorem Closed.leavingOrder?_eq (hg : g.Closed) :
    ∃ order, g.leavingOrder? = some order ∧ order.Perm g.vertices ∧ ExitsReturn g.next order :=
  (Leaving.start g.next g.size).result fun _ _ _ hw => hg.lt_of_mem_next hw

end FiniteAutomata.Digraph
