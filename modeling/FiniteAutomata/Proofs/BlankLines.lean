import FiniteAutomata.Proofs.LineEndings
import FiniteAutomata.Proofs.StrictTable
import Mathlib.Algebra.BigOperators.Intervals

/-!
# Blank lines

Blank lines behind the header are skipped, so putting some in changes nothing but the numbers of the lines below them.
Each reading step behind the header names the line it has been given in its error and does nothing else with the number
(`Description.readTransition_moveLine`); so the whole reading comes to the same with all numbers moved
(`Description.ofLines_moveLine`).
-/
namespace FiniteAutomata

open Text

namespace ParseError

/-- The same error about a line that has moved to another place. -/
def moveLine (place : Nat → Nat) : ParseError → ParseError
  | malformedCount line content => malformedCount (place line) content
  | undefinedState line state numStates => undefinedState (place line) state numStates
  | incompleteTable numStates symbols expected found => incompleteTable numStates symbols expected found
  | conflictingTransition line source symbol first second =>
    conflictingTransition (place line) source symbol first second
  | invalidSymbol line token => invalidSymbol (place line) token
  | unknownKind tag => unknownKind tag
  | malformedStateList line token => malformedStateList (place line) token
  | malformedTransition line content => malformedTransition (place line) content
  | foreignSymbol line symbol => foreignSymbol (place line) symbol
  | tooManyStates line numStates => tooManyStates (place line) numStates

theorem moveLine_eq_self {place : Nat → Nat} {fault : ParseError} {line : Nat} (h : fault.faultyLine? = some line)
    (hplace : place line = line) : fault.moveLine place = fault := by
  cases fault <;> simp_all [faultyLine?, moveLine]

end ParseError

section Answers

variable {ε α β : Type}

theorem mapError_bind {x : Except ε α} {f : α → Except ε β} {g : ε → ε} :
    (x >>= f).mapError g = x.mapError g >>= fun a => (f a).mapError g := by
  cases x <;> rfl

theorem mapError_pure {a : α} {g : ε → ε} : (pure a : Except ε α).mapError g = pure a := rfl

theorem mapError_ite {x y : Except ε α} {g : ε → ε} {p : Prop} [Decidable p] :
    (if p then x else y).mapError g = if p then x.mapError g else y.mapError g := by
  split <;> rfl

/-- Steps that are the same up to their errors and a change of their values make lists that are. -/
theorem mapM_eq_map_mapError {f f' : α → Except ε β} {g : ε → ε} {h : β → β} {l : List α}
    (hf : ∀ a ∈ l, f' a = do return h (← (f a).mapError g)) :
    l.mapM f' = do return (← (l.mapM f).mapError g).map h := by
  induction l with
  | nil => rfl
  | cons a l ih =>
    obtain ⟨ha, hl⟩ := List.forall_mem_cons.mp hf
    simp only [List.mapM_cons, ha, ih hl, mapError_bind, mapError_pure, bind_assoc, pure_bind, List.map_cons]

end Answers

namespace Text

variable {gap : Nat → List (List Char)} {text : List Char} {number : Nat}

/-- Lines that are numbered from `number` on, with those of `gap n` put in directly above line `n`; what
stands in the gap behind the last line comes at the end. -/
def withGaps (gap : Nat → List (List Char)) (number : Nat) : List (List Char) → List (List Char)
  | [] => gap number
  | line :: rest => gap number ++ line :: withGaps gap (number + 1) rest

/-- The text with lines put in behind the fifth. -/
def withBlankLines (gap : Nat → List (List Char)) (text : List Char) : List Char :=
  ['\n'].intercalate ((text.splitOn '\n').take 5 ++ withGaps gap 6 ((text.splitOn '\n').drop 5))

/-- Where a line stands when lines have been put in: all those in the gaps from line 6 to it are above it. -/
def placeOf (gap : Nat → List (List Char)) (number : Nat) : Nat :=
  number + ∑ above ∈ Finset.Ico 6 (number + 1), (gap above).length

theorem placeOf_header (h : number ≤ 5) : placeOf gap number = number := by
  rw [placeOf, Finset.Ico_eq_empty (by omega), Finset.sum_empty, Nat.add_zero]

theorem mem_withGaps {line : List Char} {rest : List (List Char)} (h : line ∈ withGaps gap number rest) :
    line ∈ rest ∨ ∃ n, line ∈ gap n := by
  induction rest generalizing number with
  | nil => exact .inr ⟨number, h⟩
  | cons first rest ih =>
    rw [withGaps, List.mem_append, List.mem_cons] at h
    rcases h with h | rfl | h
    · exact .inr ⟨number, h⟩
    · exact .inl List.mem_cons_self
    · exact (ih h).imp_left (List.mem_cons_of_mem first)

theorem map_withGaps (f : List Char → List Char) (rest : List (List Char)) :
    (withGaps gap number rest).map f = withGaps (fun n => (gap n).map f) number (rest.map f) := by
  induction rest generalizing number with
  | nil => rfl
  | cons line rest ih => simp [withGaps, ih]

/-- The lines that are not blank are the old ones, each as many lines further down as were put in above it. -/
theorem filter_zipIdx_withGaps (hblank : ∀ n, ∀ line ∈ gap n, line.all isBlank = true) (number moved : Nat)
    (rest : List (List Char)) :
    ((withGaps gap number rest).zipIdx (number + moved)).filter (fun l => !l.1.all isBlank) =
      ((rest.zipIdx number).filter fun l => !l.1.all isBlank).map fun l =>
        (l.1, l.2 + (moved + ∑ above ∈ Finset.Ico number (l.2 + 1), (gap above).length)) := by
  have hgap (n k : Nat) : ((gap n).zipIdx k).filter (fun l => !l.1.all isBlank) = [] := by
    refine List.filter_eq_nil_iff.mpr fun l hl => ?_
    simp [hblank n l.1 (List.fst_mem_of_mem_zipIdx hl)]
  induction rest generalizing number moved with
  | nil => exact hgap _ _
  | cons line rest ih =>
    have hmoved : number + moved + (gap number).length + 1 = number + 1 + (moved + (gap number).length) := by omega
    -- The lines of the first gap count as moved for the rest.
    have hrest := ih (number + 1) (moved + (gap number).length)
    have hplaces : ∀ l ∈ (rest.zipIdx (number + 1)).filter fun l => !l.1.all isBlank,
        (l.1, l.2 + (moved + (gap number).length + ∑ above ∈ Finset.Ico (number + 1) (l.2 + 1), (gap above).length)) =
          (l.1, l.2 + (moved + ∑ above ∈ Finset.Ico number (l.2 + 1), (gap above).length)) := by
      intro l hl
      have hle := List.le_snd_of_mem_zipIdx (List.mem_of_mem_filter hl)
      rw [Finset.sum_eq_sum_Ico_succ_bot (show number < l.2 + 1 by omega), Nat.add_assoc moved]
    rw [List.map_congr_left hplaces] at hrest
    rw [withGaps, List.zipIdx_append, List.filter_append, hgap, List.nil_append, List.zipIdx_cons, List.zipIdx_cons,
      hmoved, List.filter_cons, List.filter_cons, hrest]
    split
    · simp [Nat.add_assoc]
    · rfl

theorem all_isBlank_dropEndWhile {line : List Char} (p : Char → Bool) (h : IsBlank line) :
    (dropEndWhile p line).all isBlank = true := by
  obtain ⟨tail, hline, -⟩ := exists_dropEndWhile_append p line
  refine List.all_eq_true.mpr fun c hc => h c ?_
  rw [hline]
  exact List.mem_append_left _ hc

theorem pieces_withBlankLines (hfeed : ∀ n, ∀ line ∈ gap n, '\n' ∉ line) : pieces (withBlankLines gap text) =
    (pieces text).take 5 ++ withGaps (fun n => (gap n).map (dropEndWhile (· == '\r'))) 6 ((pieces text).drop 5) := by
  have hne : (text.splitOn '\n').take 5 ++ withGaps gap 6 ((text.splitOn '\n').drop 5) ≠ [] := by
    simp [List.splitOn_ne_nil]
  have hpieces : ∀ line ∈ (text.splitOn '\n').take 5 ++ withGaps gap 6 ((text.splitOn '\n').drop 5),
      '\n' ∉ line := by
    intro line hline
    rcases List.mem_append.mp hline with hline | hline
    · exact not_mem_of_mem_splitOn (List.mem_of_mem_take hline)
    · rcases mem_withGaps hline with hline | ⟨n, hline⟩
      · exact not_mem_of_mem_splitOn (List.mem_of_mem_drop hline)
      · exact hfeed n line hline
  rw [withBlankLines, pieces_intercalate hne hpieces, List.map_append, map_withGaps, List.map_take, List.map_drop,
    ← pieces]

theorem five_le_length_pieces (h : 5 ≤ (lines text).length) : 5 ≤ (pieces text).length := by
  rcases pieces_eq text with hpieces | hpieces
  · rwa [hpieces]
  · rw [hpieces, List.length_append]
    omega

theorem agreeTo_withBlankLines (hfeed : ∀ n, ∀ line ∈ gap n, '\n' ∉ line) (hlength : 5 ≤ (lines text).length) :
    AgreeTo 5 (withBlankLines gap text) text := by
  intro number hle hpos
  have htake : ((pieces text).take 5).length = 5 := by
    rw [List.length_take, min_eq_left (five_le_length_pieces hlength)]
  have hnumber : number - 1 < 5 := by omega
  rw [lineAt, lineAt, pieces_withBlankLines hfeed, List.getD_append _ _ _ _ (by omega),
    List.getD_eq_getElem?_getD, List.getD_eq_getElem?_getD, List.getElem?_take_of_lt hnumber]

end Text

namespace Description

variable {forced : Option Mode} {text text' : List Char} {header : Header} {place : Nat → Nat} {line : Nat}
  {token content : List Char}

/-- An empty piece behind the last line is blank, so the transition lines are found among the pieces as well. -/
theorem transitionLines_lines (text : List Char) :
    transitionLines (lines text) = (((pieces text).drop 5).zipIdx 6).filter fun l => !l.1.all isBlank := by
  rw [transitionLines]
  rcases pieces_eq text with h | h
  · rw [h]
  · rw [h, List.drop_append, List.zipIdx_append, List.filter_append]
    cases 5 - (lines text).length <;> simp

theorem transitionLines_withBlankLines {gap : Nat → List (List Char)}
    (hgap : ∀ n, ∀ line ∈ gap n, IsBlank line ∧ '\n' ∉ line) (hlength : 5 ≤ (lines text).length) :
    transitionLines (lines (withBlankLines gap text)) =
      (transitionLines (lines text)).map fun l => (l.1, placeOf gap l.2) := by
  have hblank : ∀ n, ∀ line ∈ (gap n).map (dropEndWhile (· == '\r')), line.all isBlank = true := by
    intro n line hline
    obtain ⟨whole, hwhole, rfl⟩ := List.mem_map.mp hline
    exact all_isBlank_dropEndWhile _ (hgap n whole hwhole).1
  have hdrop : ((pieces text).take 5).length = 5 := by
    rw [List.length_take, min_eq_left (five_le_length_pieces hlength)]
  have hlines := filter_zipIdx_withGaps hblank 6 0 ((pieces text).drop 5)
  simp only [List.length_map, Nat.zero_add, Nat.add_zero] at hlines
  rw [transitionLines_lines, transitionLines_lines, pieces_withBlankLines fun n line hline => (hgap n line hline).2,
    List.drop_left' hdrop, hlines]
  rfl

/-! ### Reading at another place -/

theorem readHeader_congr (h : AgreeTo 5 text text') :
    readHeader forced (lines text) = readHeader forced (lines text') := by
  simp only [readHeader, getD_lines, Nat.reduceAdd]
  rw [h 1 (by omega) le_rfl, h 2 (by omega) (by omega), h 3 (by omega) (by omega), h 4 (by omega) (by omega),
    h 5 le_rfl (by omega)]

/-- A fault in the header is in one of its five lines. -/
theorem readHeader_moveLine (hplace : ∀ number ≤ 5, place number = number) :
    (readHeader forced (lines text)).mapError (.moveLine place) = readHeader forced (lines text) := by
  cases h : readHeader forced (lines text) with
  | ok header => rfl
  | error fault =>
    have hread : readTo forced text (0 + 5) = .error fault := by
      rw [readTo_eq, h]
      rfl
    obtain ⟨number, hlt, hfault, -⟩ := exists_fault_of_readTo hread
    exact congrArg Except.error (fault.moveLine_eq_self hfault (hplace _ (by omega)))

theorem readNumber_moveLine {fault : ParseError} :
    (readNumber fault token).mapError (.moveLine place) = readNumber (fault.moveLine place) token := by
  rw [readNumber, readNumber]
  split <;> rfl

theorem readSymbol_moveLine :
    (readSymbol line token).mapError (.moveLine place) = readSymbol (place line) token := by
  unfold readSymbol
  split <;> rfl

theorem checkState_moveLine {numStates state : Nat} :
    (checkState line numStates state).mapError (.moveLine place) = checkState (place line) numStates state := by
  rw [checkState, checkState, mapError_ite]
  rfl

theorem readLabel_moveLine {c : Char} :
    (readLabel header line c).mapError (.moveLine place) = readLabel header (place line) c := by
  rw [readLabel, readLabel, mapError_ite, mapError_ite]
  cases header.mode <;> rfl

theorem readTransition_moveLine :
    (readTransition header line content).mapError (.moveLine place) =
      readTransition header (place line) content := by
  simp only [readTransition]
  split
  · simp only [mapError_bind, mapError_pure, readNumber_moveLine, readSymbol_moveLine, checkState_moveLine,
      readLabel_moveLine, ParseError.moveLine]
  · rfl

theorem readTransitions_moveLine {text text' : List (List Char)}
    (h : transitionLines text' = (transitionLines text).map fun l => (l.1, place l.2)) :
    readTransitions header text' = do
      return (← (readTransitions header text).mapError (.moveLine place)).map fun t => (place t.1, t.2) := by
  rw [readTransitions, readTransitions, h, List.mapM_map]
  refine mapM_eq_map_mapError fun l _ => ?_
  simp only [Function.comp_apply, mapError_bind, mapError_pure, readTransition_moveLine, bind_assoc, pure_bind]

theorem checkConflicts_moveLine {earlier : List Transition} {numbered : List (Nat × Transition)} :
    (checkConflicts earlier numbered).mapError (.moveLine place) =
      checkConflicts earlier (numbered.map fun t => (place t.1, t.2)) := by
  induction numbered generalizing earlier with
  | nil => rfl
  | cons t numbered ih =>
    obtain ⟨number, t⟩ := t
    simp only [List.map_cons, checkConflicts]
    split
    · rw [mapError_ite, ih]
      rfl
    · exact ih

theorem checkTable_moveLine {numbered : List (Nat × Transition)} (hplace : place 2 = 2) :
    (checkTable header numbered).mapError (.moveLine place) =
      checkTable header (numbered.map fun t => (place t.1, t.2)) := by
  simp only [checkTable]
  split
  · simp only [Except.mapError, ParseError.moveLine, hplace]
  · simp only [mapError_bind, checkConflicts_moveLine, mapError_ite, List.map_map, List.length_map,
      Function.comp_def]
    rfl

/-- If the header is untouched and the lines behind it have moved, reading comes to the same with their new numbers. -/
theorem ofLines_moveLine (hplace : ∀ number ≤ 5, place number = number) (hheader : AgreeTo 5 text' text)
    (hlines : transitionLines (lines text') = (transitionLines (lines text)).map fun l => (l.1, place l.2)) :
    ofLines forced (lines text') = (ofLines forced (lines text)).mapError (.moveLine place) := by
  have htable := hplace 2 (by omega)
  simp only [ofLines, mapError_bind, mapError_ite, mapError_pure, readHeader_moveLine hplace,
    readHeader_congr hheader, readTransitions_moveLine hlines, checkTable_moveLine htable, bind_assoc, pure_bind,
    List.map_map, Function.comp_def]

/-- To what in the layout of a text a reader pays no attention. -/
structure IgnoresLayout (read : String → Except ParseError Description) : Prop where
  /-- Carriage returns at the ends of lines, and then lines without other characters. -/
  lineEndings (text : String) (returns : Nat → Nat) (tail : List Char) : (∀ c ∈ tail, c = '\r' ∨ c = '\n') →
    read (String.ofList (withReturns returns text.toList ++ tail)) = read text
  /-- Blank lines anywhere behind the fifth, except that the lines below them have other numbers. -/
  blankLines (text : String) (gap : Nat → List (List Char)) : 5 ≤ (lines text.toList).length →
    (∀ n, ∀ line ∈ gap n, IsBlank line ∧ '\n' ∉ line) →
    read (String.ofList (withBlankLines gap text.toList)) = (read text).mapError (.moveLine (placeOf gap))

theorem ignoresLayout_ofLines (forced : Option Mode) :
    IgnoresLayout fun text => ofLines forced (lines text.toList) where
  lineEndings text returns tail htail := by
    rw [String.toList_ofList]
    exact ofLines_congr (lineAt_withReturns_append htail)
  blankLines text gap hlength hgap := by
    have hheader := agreeTo_withBlankLines (fun n line hline => (hgap n line hline).2) hlength
    rw [String.toList_ofList]
    exact ofLines_moveLine (fun _ => placeOf_header) hheader (transitionLines_withBlankLines hgap hlength)

/-- Line endings and blank lines are immaterial, whether the kind tag or the caller says in which mode to read. -/
theorem parse_ignoresLayout : IgnoresLayout parse ∧ ∀ mode, IgnoresLayout (parseAs mode) :=
  ⟨ignoresLayout_ofLines none, fun mode => ignoresLayout_ofLines (some mode)⟩

/-- A header that breaks off, and blank lines above both of two conflicting transitions. -/
theorem parse_ignoresLayout_faultyTexts :
    parse "DFA\r\r\n2\r\n\n" = parse "DFA\n2" ∧ parse "DFA\n2" = .error (.malformedCount 4 "") ∧
    parseAs .strict "DFA\n2\na\n0\n0\n0 a 1\n0 a 0\n" = .error (.conflictingTransition 7 0 'a' 1 0) ∧
    parseAs .strict "DFA\n2\na\n0\n0\n \n0 a 1\n\n\t\r\n0 a 0\n" =
      .error (.conflictingTransition 10 0 'a' 1 0) := by
  obtain ⟨hparse, hparseAs⟩ := parse_ignoresLayout
  have hreturns := hparse.lineEndings "DFA\n2" (fun number => if number = 1 then 2 else 1) ['\n', '\n'] (by simp)
  have hconflict : parseAs .strict "DFA\n2\na\n0\n0\n0 a 1\n0 a 0\n" =
      .error (.conflictingTransition 7 0 'a' 1 0) := by decide
  let gap : Nat → List (List Char) := fun n => if n = 6 then [[' ']] else if n = 7 then [[], ['\t', '\r']] else []
  have hspace : isBlank ' ' = true ∧ isBlank '\t' = true ∧ isBlank '\r' = true := by decide
  have hgap : ∀ n, ∀ line ∈ gap n, IsBlank line ∧ '\n' ∉ line := by
    intro n
    simp only [gap]
    split
    · simp [IsBlank, hspace]
    · split <;> simp [IsBlank, hspace]
  have hblank := (hparseAs .strict).blankLines "DFA\n2\na\n0\n0\n0 a 1\n0 a 0\n" gap (by decide) hgap
  rw [hconflict] at hblank
  exact ⟨hreturns, by decide, hconflict, hblank⟩

end Description

end FiniteAutomata
