import FiniteAutomata.Shell.Input
import Mathlib.Data.List.SplitBy

/-!
# What has been typed

Cutting a text into grapheme clusters loses nothing of it (`Text.flatten_clusters`), so a line that is typed without a
backspace stays as it is (`Shell.typed_eq_self`). A line is cut into clusters only if it holds a backspace, and this
makes no difference to what is read (`Shell.inputLine_eq`).
-/
namespace FiniteAutomata

namespace Text

theorem ClusterContext.map_fst_mark (before : ClusterContext) (s : List Char) :
    (before.mark s).map (·.1) = s := by
  induction s generalizing before with
  | nil => rfl
  | cons c rest ih => simp [mark, ih]

/-- The clusters of a text make up the text. -/
theorem flatten_clusters (s : List Char) : (clusters s).flatten = s := by
  rw [clusters, ← List.map_flatten, List.flatten_splitBy, ClusterContext.map_fst_mark]

end Text

namespace Shell

open Text

/-- What is entered without erasing is there in the end. -/
theorem characters_foldl_enter {entered : List (List Char)} (h : ['\x08'] ∉ entered) (t : Typed) :
    (entered.foldl Typed.enter t).characters = entered.flatten.reverse ++ t.characters := by
  induction entered generalizing t with
  | nil => rfl
  | cons cluster rest ih =>
    rw [List.mem_cons, not_or] at h
    have henter : (t.enter cluster).characters = cluster.reverse ++ t.characters := by
      rw [Typed.enter, if_neg (Ne.symm h.1)]
    rw [List.foldl_cons, ih h.2, henter, List.flatten_cons, List.reverse_append, List.append_assoc]

theorem typed_eq_self {s : List Char} (h : '\x08' ∉ s) : typed s = s := by
  have hclusters : ['\x08'] ∉ clusters s := by
    intro hmem
    have hflatten := List.mem_flatten_of_mem hmem (List.mem_singleton_self '\x08')
    rw [flatten_clusters] at hflatten
    exact h hflatten
  rw [typed, characters_foldl_enter hclusters, flatten_clusters, Typed.nothing, List.append_nil, List.reverse_reverse]

/-- Every line is what is left after its backspaces; lines without one need not be cut into clusters. -/
theorem inputLine_eq (piece : List Char) : inputLine piece = String.ofList (typed (dropLineEnd piece)) := by
  by_cases h : '\x08' ∈ dropLineEnd piece
  · rw [inputLine, if_pos h]
  · rw [inputLine, if_neg h, typed_eq_self h]

end Shell

end FiniteAutomata
