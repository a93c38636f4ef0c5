import FiniteAutomata.Loading
import FiniteAutomata.Proofs.Decisions

/-!
# Tables written out

A deterministic automaton is written as a text with the header of a strict table, where words are single symbols or
numbers in decimal digits, and then its printed transitions. Reading the text gives the same automaton back
(`Dfa.Constructible.parse_render`). No symbol of an automaton that can be built is blank, since only words of a text
become symbols; so the words of each line are what was written there.
-/
namespace FiniteAutomata

open Text

namespace Text

variable {words lines : List (List Char)} {c : Char}

/-- A line of words, with a space between neighbours. -/
def unwords (words : List (List Char)) : List Char := [' '].intercalate words

/-- A text of lines, each with a line feed at its end. -/
def unlines (lines : List (List Char)) : List Char := lines.flatMap (· ++ ['\n'])

@[simp] theorem unwords_singleton {word : List Char} : unwords [word] = word := List.intercalate_singleton

theorem unwords_cons {word : List Char} (hne : words ≠ []) :
    unwords (word :: words) = word ++ ' ' :: unwords words := by
  rw [unwords, List.intercalate_cons_of_ne_nil hne, List.append_assoc]
  rfl

theorem words_unwords (h : ∀ word ∈ words, IsWord word) : Words (unwords words) words := by
  rw [← tokens_eq_iff]
  induction words with
  | nil => rfl
  | cons word words ih =>
    rw [List.forall_mem_cons] at h
    by_cases hnil : words = []
    · rw [hnil, unwords_singleton, tokens_word h.1]
    · rw [unwords_cons hnil, tokens_word_append h.1 (by decide), ih h.2]

theorem mem_unwords (hc : c ∈ unwords words) : c = ' ' ∨ ∃ word ∈ words, c ∈ word := by
  induction words with
  | nil => exact absurd hc List.not_mem_nil
  | cons word words ih =>
    rw [List.exists_mem_cons_iff]
    by_cases hnil : words = []
    · rw [hnil, unwords_singleton] at hc
      exact .inr (.inl hc)
    · rw [unwords_cons hnil, List.mem_append, List.mem_cons] at hc
      rcases hc with hc | hc | hc
      · exact .inr (.inl hc)
      · exact .inl hc
      · exact (ih hc).imp_right .inr

/-- A line of words has no blank but the space. -/
theorem not_mem_unwords (h : ∀ word ∈ words, IsWord word) (hblank : isBlank c = true) (hspace : c ≠ ' ') :
    c ∉ unwords words := by
  intro hc
  obtain rfl | ⟨word, hword, hmem⟩ := mem_unwords hc
  · exact hspace rfl
  · rw [(h word hword).not_blank c hmem] at hblank
    cases hblank

/-- What stands between the line feeds of a text are its lines, and nothing stands behind the last one. -/
theorem pieces_unlines (hfeed : ∀ line ∈ lines, '\n' ∉ line) (hreturn : ∀ line ∈ lines, '\r' ∉ line) :
    pieces (unlines lines) = lines ++ [[]] := by
  induction lines with
  | nil => rfl
  | cons line lines ih =>
    rw [List.forall_mem_cons] at hfeed hreturn
    have hother {c : Char} (hc : c ∉ line) : ∀ x ∈ line, (x == c) = false :=
      fun x hx => beq_eq_false_iff_ne.mpr fun heq => hc (heq ▸ hx)
    have hrest := ih hfeed.2 hreturn.2
    have hcut : unlines (line :: lines) = line ++ '\n' :: unlines lines := by simp [unlines]
    rw [pieces, List.splitOn_eq_splitOnP] at hrest ⊢
    rw [hcut, List.splitOnP_append_cons_of_forall_mem (hother hfeed.1) '\n' rfl, List.map_cons, hrest,
      dropEndWhile_of_forall (hother hreturn.1)]
    rfl

end Text

namespace Dfa

variable {d : Dfa}

/-- The words of the five header lines. -/
def headerWords (d : Dfa) : List (List (List Char)) :=
  [["DFA".toList], [Nat.toDigits 10 d.numStates], d.alphabet.toList.map fun c => [c],
    [Nat.toDigits 10 d.start], d.acceptingStates.map (Nat.toDigits 10)]

/-- The words of a printed transition. -/
def transitionWords (t : Transition) : List (List Char) :=
  [Nat.toDigits 10 t.source, t.label.toList, Nat.toDigits 10 t.target]

/-- The text of a strict table: the header of an automaton, line by line, and its printed transitions. -/
def render (d : Dfa) : String :=
  s!"DFA\n{d.numStates}\n" ++ d.alphabet.render ++ s!"\n{d.start}\n" ++
    " ".intercalate (d.acceptingStates.map toString) ++ "\n" ++ d.renderTransitions

theorem toList_render (d : Dfa) :
    d.render.toList = unlines ((d.headerWords ++ d.transitions.map transitionWords).map unwords) := by
  have hstring (s : String) : toString s = s := rfl
  have halphabet : d.alphabet.render.toList = unwords (d.alphabet.toList.map fun c => [c]) :=
    String.toList_ofList
  have haccepting : (" ".intercalate (d.acceptingStates.map toString)).toList =
      unwords (d.acceptingStates.map (Nat.toDigits 10)) := by
    rw [String.toList_intercalate, List.map_map]
    exact congrArg unwords (List.map_congr_left fun s _ => Nat.toList_repr)
  have htransitions :
      d.renderTransitions.toList = unlines ((d.transitions.map transitionWords).map unwords) := by
    rw [renderTransitions, String.toList_join, unlines, List.flatMap_map, List.flatMap_map, List.flatMap_map]
    refine List.flatMap_congr fun t _ => ?_
    simp [transitionWords, unwords, hstring]
  simp [render, halphabet, haccepting, htransitions, headerWords, unlines, hstring]

theorem isNumeral_of_lt {s : Nat} (hsize : d.numStates ≤ 2 ^ 24) (hs : s < d.numStates) :
    Numeral.IsNumeral (Nat.toDigits 10 s) s :=
  Numeral.isNumeral_toDigits (by omega)

/-- The description that the rendered table reads as. -/
def toDescription (d : Dfa) : Description where
  kind := .dfa
  mode := .strict
  numStates := d.numStates
  alphabet := d.alphabet
  start := d.start
  accepting := SortedSet.ofList d.acceptingStates
  transitions := d.transitions

namespace WellFormed

variable (h : d.WellFormed)
include h

/-- The transitions fill the cells of a complete table, in order. -/
theorem map_key_transitions :
    d.transitions.map Description.key = Description.cells d.numStates d.alphabet := by
  have hrow : ∀ s ∈ d.states, (d.movesFrom s).map Prod.fst = d.alphabet.toList := by
    intro s hs
    have hlt : s < d.rows.size := List.mem_range.mp hs
    rw [movesFrom_of_row (Array.getElem?_eq_getElem hlt)]
    exact List.map_fst_zip (h.row_size _ (Array.getElem_mem hlt)).ge
  rw [transitions, List.map_flatMap, Description.cells]
  refine List.flatMap_congr fun s hs => ?_
  rw [← hrow s hs, List.map_map, List.map_map, List.map_map]
  rfl

theorem isComplete_transitions : Description.IsComplete d.numStates d.alphabet d.transitions := by
  have hcells := h.map_key_transitions
  refine (Description.isComplete_iff_perm fun t ht => ?_).mpr (hcells ▸ .refl _)
  exact hcells ▸ List.mem_map_of_mem ht

/-- The table of the description is the automaton. -/
theorem ofTable_toDescription (hd : d.toDescription.WellFormed) :
    ofTable d.toDescription.toHeader d.transitions = d := by
  refine (wellFormed_ofTable hd rfl).eq_of_moves h rfl rfl (numStates_ofTable _ _) (fun s label t => ?_) fun s => ?_
  · exact (moves_ofTable hd rfl).trans mem_transitions
  · rw [isAccepting_ofTable]
    change s < d.numStates ∧ s ∈ SortedSet.ofList d.acceptingStates ↔ _
    rw [SortedSet.mem_ofList, mem_acceptingStates]
    exact and_iff_right_of_imp h.lt_of_isAccepting

end WellFormed

section Lines

variable (hsymbols : ∀ c ∈ d.alphabet, isBlank c = false)
include hsymbols

theorem isWord_of_mem_headerWords : ∀ words ∈ d.headerWords, ∀ word ∈ words, IsWord word := by
  have hsymbol : ∀ c ∈ d.alphabet.toList, IsWord [c] := fun c hc => ⟨by simp, by simpa using hsymbols c hc⟩
  have htag : IsWord ['D', 'F', 'A'] := by decide
  simpa [headerWords, htag, Numeral.isWord_toDigits] using hsymbol

theorem isWord_of_mem_transitionWords : ∀ t ∈ d.transitions, ∀ word ∈ transitionWords t, IsWord word := by
  intro t ht
  obtain ⟨c, hlabel, hmove⟩ := mem_transitions.mp ht
  have hc : IsWord [c] := ⟨by simp, by simpa using hsymbols c (mem_alphabet_of_transition? hmove)⟩
  simp [transitionWords, hlabel, hc, Numeral.isWord_toDigits]

theorem pieces_render : pieces d.render.toList =
    d.headerWords.map unwords ++ ((d.transitions.map fun t => unwords (transitionWords t)) ++ [[]]) := by
  have hwords : ∀ words ∈ d.headerWords ++ d.transitions.map transitionWords, ∀ word ∈ words, IsWord word := by
    rw [List.forall_mem_append, List.forall_mem_map]
    exact ⟨isWord_of_mem_headerWords hsymbols, isWord_of_mem_transitionWords hsymbols⟩
  have hpieces := pieces_unlines
    (List.forall_mem_map.mpr fun words hmem => not_mem_unwords (hwords words hmem) (by decide) (by decide))
    (List.forall_mem_map.mpr fun words hmem => not_mem_unwords (hwords words hmem) (by decide) (by decide))
  rw [toList_render, hpieces, List.map_append, List.append_assoc, List.map_map]
  rfl

/-- The header lines of the text have the words that were written there. -/
theorem words_lineAt_render {i : Nat} {words : List (List Char)} (hget : d.headerWords[i]? = some words) :
    Words (lineAt d.render.toList (i + 1)) words := by
  have hlt : i < (d.headerWords.map unwords).length := by
    rw [List.length_map]
    exact (List.getElem?_eq_some_iff.mp hget).1
  rw [lineAt, pieces_render hsymbols, Nat.add_sub_cancel, List.getD_eq_getElem?_getD,
    List.getElem?_append_left hlt, List.getElem?_map, hget]
  exact words_unwords (isWord_of_mem_headerWords hsymbols words (List.mem_of_getElem? hget))

/-- The later lines of the text are the printed transitions. -/
theorem laterLines_render :
    laterLines d.render.toList = d.transitions.map fun t => unwords (transitionWords t) := by
  have hkeep : ∀ t ∈ d.transitions, (!(unwords (transitionWords t)).all isBlank) = true := by
    intro t ht
    have htokens := tokens_of_words (words_unwords (isWord_of_mem_transitionWords hsymbols t ht))
    rw [Bool.not_eq_true', ← Bool.not_eq_true, List.all_eq_true]
    intro hblank
    rw [tokens_eq_nil_iff.mpr hblank] at htokens
    cases htokens
  rw [laterLines, pieces_render hsymbols, List.drop_left' (by simp [headerWords]), List.filter_append,
    List.filter_eq_self.mpr (by simpa using hkeep)]
  simp

end Lines

namespace WellFormed

variable (h : d.WellFormed) (hsize : d.numStates ≤ 2 ^ 24) (hsymbols : ∀ c ∈ d.alphabet, isBlank c = false)
include h hsize hsymbols

theorem describesHeader_render : Description.DescribesHeader d.render.toList d.toDescription.toHeader where
  kind := .inr ⟨_, words_lineAt_render hsymbols (i := 0) rfl, rfl⟩
  numStates := ⟨_, words_lineAt_render hsymbols (i := 1) rfl, Numeral.isNumeral_toDigits (by omega)⟩
  numStates_le := hsize
  alphabet := by
    have hmark : epsilonMark ∉ d.alphabet.toList := d.alphabet.epsilonMark_not_mem
    have hne : ∀ c ∈ d.alphabet, c ≠ epsilonMark := fun c hc heq => hmark (heq ▸ hc)
    exact ⟨d.alphabet.toList, words_lineAt_render hsymbols (i := 2) rfl, fun _ => hmark,
      fun c => (and_iff_left_of_imp (hne c)).symm⟩
  start := ⟨_, words_lineAt_render hsymbols (i := 3) rfl, isNumeral_of_lt hsize h.start_lt⟩
  start_lt := h.start_lt
  accepting := by
    have hlt : ∀ s ∈ d.acceptingStates, s < d.numStates :=
      fun s hs => h.lt_of_isAccepting (mem_acceptingStates.mp hs)
    refine ⟨_, d.acceptingStates, words_lineAt_render hsymbols (i := 4) rfl, ?_, hlt,
      fun s => SortedSet.mem_ofList⟩
    rw [List.forall₂_map_left_iff, List.forall₂_same]
    exact fun s hs => isNumeral_of_lt hsize (hlt s hs)

theorem describes_render : Description.Describes d.render.toList d.toDescription where
  header := h.describesHeader_render hsize hsymbols
  transitions := by
    rw [laterLines_render hsymbols, List.forall₂_map_left_iff]
    refine List.forall₂_same.mpr fun t ht => ?_
    have hwords := words_unwords (isWord_of_mem_transitionWords hsymbols t ht)
    obtain ⟨c, hlabel, hmove⟩ := mem_transitions.mp ht
    have hsource := source_lt_of_transition? hmove
    have htarget := h.target_lt hmove
    rw [transitionWords, hlabel] at hwords
    rw [transitionWords, hlabel]
    exact ⟨_, c, _, hwords, isNumeral_of_lt hsize hsource, hsource,
      .inl ⟨mem_alphabet_of_transition? hmove, hlabel⟩, isNumeral_of_lt hsize htarget, htarget⟩
  complete _ := h.isComplete_transitions

end WellFormed

/-- Reading what is written out gives the automaton back. -/
theorem Constructible.parse_render (h : d.Constructible) (hsize : d.numStates ≤ 2 ^ 24) :
    Dfa.parse d.render = .ok d := by
  have hdescribes := h.wellFormed.describes_render hsize h.not_isBlank
  have hparse : Description.parse d.render = .ok d.toDescription :=
    (Description.parse_eq_ok_iff _ _).mpr ⟨hdescribes, rfl⟩
  have htable : Dfa.ofDescription? d.toDescription = some d :=
    congrArg some (h.wellFormed.ofTable_toDescription hdescribes.wellFormed)
  rw [parse, hparse]
  change Fault.inRange (ofDescription? d.toDescription) = .ok d
  rw [htable]
  rfl

theorem parse_render_evenAs : evenAs.Constructible ∧ evenAs.numStates ≤ 2 ^ 24 ∧
    evenAs.render = "DFA\n2\na\n0\n0\n0 a 1\n1 a 0\n" ∧
    Dfa.parse "DFA\n2\na\n0\n0\n0 a 1\n1 a 0\n" = .ok evenAs := by
  have hsize : evenAs.numStates ≤ 2 ^ 24 := by decide
  have hrender : evenAs.render = "DFA\n2\na\n0\n0\n0 a 1\n1 a 0\n" := by decide
  exact ⟨constructible_evenAs, hsize, hrender, hrender ▸ Constructible.parse_render constructible_evenAs hsize⟩

end Dfa

end FiniteAutomata
