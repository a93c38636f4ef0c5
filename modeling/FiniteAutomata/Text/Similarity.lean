import FiniteAutomata.SortedSet

/-!
# Similarity of words

The Jaro similarity: two equal characters match if their positions are at most half the longer length apart, and it
is the mean of the matched share of either word and the share of matches that keep their order, in double precision.
-/
namespace FiniteAutomata.Text

/-- How far apart the positions of matching characters may be. -/
def matchDistance (a b : List Char) : Nat := max a.length b.length / 2 - 1

/-- Matches the characters of the first word, from position `i` on, with the first free equal ones of `b`.
The answer pairs each matched character with the position of its match. -/
def matchFrom (distance : Nat) (b : List (Char × Nat)) (i : Nat) (taken : List Nat) :
    List Char → List (Char × Nat)
  | [] => []
  | c :: rest =>
    match b.find? fun e => e.1 = c ∧ i ≤ e.2 + distance ∧ e.2 ≤ i + distance ∧ e.2 ∉ taken with
    | some e => (c, e.2) :: matchFrom distance b (i + 1) (e.2 :: taken) rest
    | none => matchFrom distance b (i + 1) taken rest

/-- Half the number of places at which the matched characters of the two words differ. -/
def transpositions (b : List (Char × Nat)) (matched : List (Char × Nat)) : Nat :=
  let positions := matched.map (·.2)
  let others := (b.filter fun e => decide (e.2 ∈ positions)).map (·.1)
  ((matched.map (·.1)).zip others).countP (fun p => p.1 ≠ p.2) / 2

/-- From 0, for words without a match, to 1, for equal words. -/
def similarity (a b : List Char) : Float :=
  let numbered := b.zipIdx
  let matched := matchFrom (matchDistance a b) numbered 0 [] a
  let share (count total : Nat) : Float := Float.ofNat count / Float.ofNat total
  let m := matched.length
  if a = [] ∧ b = [] then 1
  else if m = 0 then 0
  else (share m a.length + share m b.length + share (m - transpositions numbered matched) m) / 3

end FiniteAutomata.Text
