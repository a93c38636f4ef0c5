import FiniteAutomata.SortedSet

/-!
# Depth-first search

Searches along a successor function that mark each vertex when they enter it, so the number of unmarked
vertices bounds them. `paint?` marks what a stack of vertices leads to with a colour; `leavingOrder?` lists the vertices
in the order in which the search leaves them, which for each is after all that was entered from it. `reach?` collects
what sources lead to in a search tree, at a cost that what it finds bounds. Each of them looks a vertex up when it comes
to it and answers `none` if there is no such vertex.
-/
namespace FiniteAutomata.Search

theorem count_setIfInBounds_lt {α : Type} [BEq α] [LawfulBEq α] {marks : Array α} {v : Nat} {a b : α}
    (h : marks[v]? = some a) (hb : b ≠ a) :
    (marks.setIfInBounds v b).count a < marks.count a := by
  obtain ⟨hv, rfl⟩ := Array.getElem?_eq_some_iff.mp h
  have hpos : 0 < marks.count marks[v] := Array.count_pos_iff.mpr (Array.getElem_mem hv)
  rw [Array.setIfInBounds, dif_pos hv, Array.count_set hv, if_pos (beq_self_eq_true _),
    if_neg (by simpa using hb)]
  omega

/-- Marks with `colour` the unmarked vertices that `pending` leads to past unmarked ones. -/
def paint? (next : Nat → List Nat) (colour : Nat) (marks : Array (Option Nat)) (pending : List Nat) :
    Option (Array (Option Nat)) :=
  match pending with
  | [] => some marks
  | v :: rest =>
    match _h : marks[v]? with
    | none => none
    | some none => paint? next colour (marks.setIfInBounds v (some colour)) (next v ++ rest)
    | some (some _) => paint? next colour marks rest
termination_by (marks.count none, pending.length)
decreasing_by
  · exact Prod.Lex.left _ _ (count_setIfInBounds_lt ‹marks[v]? = some none› (by simp))
  · exact Prod.Lex.right _ (by simp)

/-- What a search still has to do: enter a vertex, if it is unmarked, or leave one. -/
inductive Task
  | enter (v : Nat)
  | leave (v : Nat)
  deriving DecidableEq, Repr

/-- Works through `tasks`, entering the successors of each vertex before it is left. The answer is the list
of all vertices left, the last one first, in front of those in `left`. -/
def leavingOrder? (next : Nat → List Nat) (seen : Array Bool) (tasks : List Task)
    (left : List Nat) : Option (List Nat) :=
  match tasks with
  | [] => some left
  | .leave v :: rest => leavingOrder? next seen rest (v :: left)
  | .enter v :: rest =>
    match h : seen[v]? with
    | none => none
    | some false =>
      leavingOrder? next (seen.setIfInBounds v true) ((next v).map .enter ++ .leave v :: rest) left
    | some true => leavingOrder? next seen rest left
termination_by (seen.count false, tasks.length)
decreasing_by
  · exact Prod.Lex.right _ (by simp)
  · exact Prod.Lex.left _ _ (count_setIfInBounds_lt h (by simp))
  · exact Prod.Lex.right _ (by simp)

theorem countP_lt_countP {α : Type} {p q : α → Bool} {l : List α} {a : α}
    (h : ∀ x, p x = true → q x = true) (ha : a ∈ l) (hp : p a = false) (hq : q a = true) :
    l.countP p < l.countP q := by
  induction l with
  | nil => simp at ha
  | cons b l ih =>
    have hle := List.countP_mono_left fun x (_ : x ∈ l) => h x
    rcases List.mem_cons.mp ha with rfl | ha
    · rw [List.countP_cons_of_neg (by simp [hp]), List.countP_cons_of_pos hq]
      omega
    · have := ih ha
      have := h b
      simp only [List.countP_cons]
      split <;> split <;> grind

theorem countP_insert_lt {found : Std.TreeSet Nat} {size v : Nat} (hv : v < size) (h : v ∉ found) :
    (List.range size).countP (fun u => decide (u ∉ found.insert v))
      < (List.range size).countP (fun u => decide (u ∉ found)) :=
  countP_lt_countP (fun u hu => by simp_all) (List.mem_range.mpr hv) (by simp) (by simpa using h)

/-- Adds to `found` what `pending` leads to past it; `none` if it meets a vertex from `size` on. -/
def collect? (size : Nat) (next : Nat → List Nat) (found : Std.TreeSet Nat) (pending : List Nat) :
    Option (Std.TreeSet Nat) :=
  match pending with
  | [] => some found
  | v :: rest =>
    if v ∈ found then collect? size next found rest
    else if v < size then collect? size next (found.insert v) (next v ++ rest)
    else none
termination_by ((List.range size).countP (fun u => decide (u ∉ found)), pending.length)
decreasing_by
  · exact Prod.Lex.right _ (by simp)
  · next h hv => exact Prod.Lex.left _ _ (countP_insert_lt hv h)

/-- Everything that `sources` lead to, themselves included, in a graph on the vertices below `size`;
`none` if a vertex from `size` on is among it. -/
def reach? (size : Nat) (next : Nat → List Nat) (sources : List Nat) : Option (SortedSet Nat) :=
  (collect? size next ∅ sources).map .ofTree

end FiniteAutomata.Search
