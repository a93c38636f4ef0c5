import FiniteAutomata.Proofs.LineReading
import Mathlib.Data.List.Induction

/-!
# Line endings

Carriage returns at the ends of lines say nothing, nor do lines behind the text that have no other characters: each line
number stands for the same line without them, where both texts may be too short for it (`Text.lineAt_withReturns_append`).
What the reader answers is decided by the lines at all numbers (`Description.ofLines_congr`), so it answers the same.
-/
namespace FiniteAutomata

open Text

namespace Text

variable {text tail line : List Char} {ls : List (List Char)} {returns : Nat → Nat}

theorem not_mem_of_mem_splitOn (h : line ∈ text.splitOn '\n') : '\n' ∉ line := by
  induction text generalizing line with
  | nil =>
    rw [List.splitOn_nil, List.mem_singleton] at h
    simp [h]
  | cons c text ih =>
    rw [List.splitOn_eq_splitOnP, List.splitOnP_cons_eq_if_modifyHead, ← List.splitOn_eq_splitOnP] at h
    obtain ⟨first, rest, hsplit⟩ := List.exists_cons_of_ne_nil (List.splitOn_ne_nil '\n' text)
    rw [hsplit] at h ih
    by_cases hc : c = '\n'
    · simp only [hc, beq_self_eq_true, if_true, List.mem_cons] at h
      rcases h with rfl | h
      · exact List.not_mem_nil
      · exact ih (List.mem_cons.mpr h)
    · simp only [beq_iff_eq, hc, if_false, List.modifyHead_cons, List.mem_cons] at h
      rcases h with rfl | h
      · exact fun hmem => (List.mem_cons.mp hmem).elim (Ne.symm hc) (ih List.mem_cons_self)
      · exact ih (List.mem_cons_of_mem _ h)

/-- Joining lines by line feeds and cutting the text there again gives the lines. -/
theorem pieces_intercalate (hne : ls ≠ []) (hfeed : ∀ line ∈ ls, '\n' ∉ line) :
    pieces (['\n'].intercalate ls) = ls.map (dropEndWhile (· == '\r')) := by
  rw [pieces, List.splitOn_intercalate '\n' hfeed hne]

/-- The text with carriage returns added at the end of each line, `returns number` of them to the line of a number. -/
def withReturns (returns : Nat → Nat) (text : List Char) : List Char :=
  ['\n'].intercalate
    ((text.splitOn '\n').mapIdx fun i line => line ++ List.replicate (returns (i + 1)) '\r')

theorem pieces_withReturns : pieces (withReturns returns text) = pieces text := by
  have hadded (count : Nat) : ∀ c ∈ List.replicate count '\r', (c == '\r') = true :=
    fun c hc => beq_iff_eq.mpr (List.eq_of_mem_replicate hc)
  have hfeed : ∀ line ∈ (text.splitOn '\n').mapIdx fun i line => line ++ List.replicate (returns (i + 1)) '\r',
      '\n' ∉ line := by
    intro line hline
    obtain ⟨i, hi, rfl⟩ := List.mem_mapIdx.mp hline
    have hpiece := not_mem_of_mem_splitOn (List.getElem_mem hi)
    simp [hpiece, List.mem_replicate]
  rw [withReturns, pieces_intercalate (by simp [List.splitOn_ne_nil]) hfeed, pieces]
  refine List.ext_getElem (by simp) fun i hi hi' => ?_
  simp only [List.getElem_map, List.getElem_mapIdx, dropEndWhile_append_of_forall (hadded _)]

/-- Only what is left of a line without the returns at its end matters for a longer line. -/
theorem dropEndWhile_cons_dropEndWhile (p : Char → Bool) (c : Char) (s : List Char) :
    dropEndWhile p (c :: dropEndWhile p s) = dropEndWhile p (c :: s) := by
  obtain ⟨tail, hs, htail⟩ := exists_dropEndWhile_append p s
  conv_rhs => rw [hs, ← List.cons_append, dropEndWhile_append_of_forall htail]

theorem pieces_cons (c : Char) (text : List Char) : pieces (c :: text) =
    if c = '\n' then [] :: pieces text
    else (pieces text).modifyHead fun line => dropEndWhile (· == '\r') (c :: line) := by
  rw [pieces, List.splitOn_eq_splitOnP, List.splitOnP_cons_eq_if_modifyHead, ← List.splitOn_eq_splitOnP, pieces]
  obtain ⟨first, rest, hsplit⟩ := List.exists_cons_of_ne_nil (List.splitOn_ne_nil '\n' text)
  by_cases hc : c = '\n'
  · simp [hc, dropEndWhile]
  · simp [hc, hsplit, dropEndWhile_cons_dropEndWhile]

theorem pieces_append_return (text : List Char) : pieces (text ++ ['\r']) = pieces text := by
  induction text with
  | nil => rfl
  | cons c text ih => rw [List.cons_append, pieces_cons, ih, ← pieces_cons]

theorem pieces_append_lineFeed (text : List Char) : pieces (text ++ ['\n']) = pieces text ++ [[]] := by
  rw [pieces, pieces, List.splitOn_eq_splitOnP, List.splitOnP_append_cons text [] rfl, List.map_append]
  rfl

/-- Lines without characters at the end add empty pieces only. -/
theorem exists_pieces_append (text : List Char) (h : ∀ c ∈ tail, c = '\r' ∨ c = '\n') :
    ∃ count, pieces (text ++ tail) = pieces text ++ List.replicate count [] := by
  induction tail using List.reverseRecOn with
  | nil => exact ⟨0, by simp⟩
  | append_singleton tail c ih =>
    obtain ⟨count, hcount⟩ := ih fun x hx => h x (List.mem_append_left _ hx)
    rw [← List.append_assoc]
    rcases h c (by simp) with rfl | rfl
    · exact ⟨count, by rw [pieces_append_return, hcount]⟩
    · exact ⟨count + 1, by rw [pieces_append_lineFeed, hcount, List.append_assoc, List.replicate_succ']⟩

theorem lineAt_withReturns_append (htail : ∀ c ∈ tail, c = '\r' ∨ c = '\n') (number : Nat) :
    lineAt (withReturns returns text ++ tail) number = lineAt text number := by
  obtain ⟨count, hcount⟩ := exists_pieces_append (withReturns returns text) htail
  rw [lineAt, lineAt, hcount, pieces_withReturns]
  by_cases hnumber : number - 1 < (pieces text).length
  · rw [List.getD_append _ _ _ _ hnumber]
  · rw [Nat.not_lt] at hnumber
    rw [List.getD_append_right _ _ _ _ hnumber, List.getD_eq_default _ _ hnumber]
    rw [List.getD_eq_getElem?_getD, List.getElem?_replicate]
    split <;> rfl

end Text

namespace Description

/-- Texts with the same lines at all numbers are read alike. -/
theorem ofLines_congr {forced : Option Mode} {text text' : List Char}
    (h : ∀ number, lineAt text number = lineAt text' number) :
    ofLines forced (lines text) = ofLines forced (lines text') := by
  have hlast : 5 ≤ (lines text).length + (lines text').length + 5 := by omega
  rw [ofLines_eq_readTo hlast (by omega), ofLines_eq_readTo hlast (by omega),
    readTo_congr fun number _ _ => h number]

end Description

end FiniteAutomata
