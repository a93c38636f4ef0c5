import FiniteAutomata.Dfa.Determinization
import FiniteAutomata.Proofs.Determinization
import FiniteAutomata.Proofs.StrictTable

/-!
# The automata of descriptions

What has been read from a text is well-formed, and each automaton that is made of it accepts the language
of the transition lines: the nondeterministic one, the table of a strict text, and the determinized one. A table
that is read as a nondeterministic automaton keeps its language.
-/
namespace FiniteAutomata

/-- Two automata with the same moves and the same accepting states have the same language. -/
theorem languageFrom_congr {step step' : Nat → Option Char → Nat → Prop} {accepts accepts' : Nat → Prop}
    (hstep : ∀ s label t, step s label t ↔ step' s label t) (haccepts : ∀ s, accepts s ↔ accepts' s)
    (s : Nat) : languageFrom step accepts s = languageFrom step' accepts' s := by
  ext w
  refine exists_congr fun t => and_congr (haccepts t) ⟨fun h => ?_, fun h => ?_⟩
  · exact h.mono fun a label b => (hstep a label b).mp
  · exact h.mono fun a label b => (hstep a label b).mpr

namespace Description

/-- The parts of a description fit together, and a strict one is a complete table. -/
structure WellFormed (d : Description) : Prop where
  start_lt : d.start < d.numStates
  accepting_lt : ∀ s ∈ d.accepting, s < d.numStates
  source_lt : ∀ t ∈ d.transitions, t.source < d.numStates
  target_lt : ∀ t ∈ d.transitions, t.target < d.numStates
  label_mem : ∀ t ∈ d.transitions, ∀ c, t.label = some c → c ∈ d.alphabet
  label_ne_none : d.mode = .strict → ∀ t ∈ d.transitions, t.label ≠ none
  complete : d.mode = .strict → IsComplete d.numStates d.alphabet d.transitions

/-- A description that some text reads as, in the mode of its tag or in a given one. -/
def Parsed (d : Description) : Prop :=
  (∃ text, parse text = .ok d) ∨ ∃ mode text, parseAs mode text = .ok d

variable {d : Description}

theorem Describes.wellFormed {text : List Char} (h : Describes text d) : d.WellFormed := by
  have hline := exists_of_forall₂_right h.transitions
  obtain ⟨_, states, _, _, hlt, hset⟩ := h.header.accepting
  refine ⟨h.header.start_lt, fun s hs => hlt s ((hset s).mp hs), fun t ht => ?_, fun t ht => ?_,
    fun t ht c hc => ?_, fun hmode t ht hnone => ?_, h.complete⟩
  · obtain ⟨_, -, _, _, _, _, _, hsource, _⟩ := hline t ht
    exact hsource
  · obtain ⟨_, -, _, _, _, _, _, _, _, _, htarget⟩ := hline t ht
    exact htarget
  · obtain ⟨_, -, _, c', _, _, _, _, hlabel, _⟩ := hline t ht
    obtain ⟨hmem, hlabel⟩ | ⟨_, _, hlabel⟩ := hlabel
    · rw [hlabel, Option.some_inj] at hc
      exact hc ▸ hmem
    · rw [hlabel] at hc
      cases hc
  · obtain ⟨_, -, hline⟩ := hline t ht
    rw [hmode, isTransitionLine_strict_iff] at hline
    exact hline.2 hnone

theorem Parsed.exists_describes (h : d.Parsed) : ∃ text, Describes text d := by
  rcases h with ⟨text, h⟩ | ⟨mode, text, h⟩
  · exact ⟨_, (ofLines_eq_ok_iff.mp h).1⟩
  · exact ⟨_, (ofLines_eq_ok_iff.mp h).1⟩

theorem Parsed.wellFormed (h : d.Parsed) : d.WellFormed := by
  obtain ⟨text, hdescribes⟩ := h.exists_describes
  exact hdescribes.wellFormed

/-- The symbols of a description are words of its text. -/
theorem Parsed.not_isBlank (h : d.Parsed) : ∀ c ∈ d.alphabet, Text.isBlank c = false := by
  obtain ⟨text, hdescribes⟩ := h.exists_describes
  obtain ⟨cs, hwords, -, hmem⟩ := hdescribes.header.alphabet
  intro c hc
  have hword := hwords.isWord [c] (List.mem_map_of_mem ((hmem c).mp hc).1)
  exact hword.not_blank c List.mem_cons_self

end Description

namespace Nfa

variable {d : Description} {s t : Nat} {label : Option Char}

theorem numStates_ofDescription (d : Description) : (ofDescription d).numStates = d.numStates := by
  rw [ofDescription, (foldl_addTransition _ _).1, (foldl_markAccepting _ _).1,
    numStates_withStates]

theorem alphabet_ofDescription (d : Description) : (ofDescription d).alphabet = d.alphabet := by
  rw [ofDescription, (foldl_addTransition _ _).2.1, (foldl_markAccepting _ _).2.1, withStates]

theorem start_ofDescription (d : Description) : (ofDescription d).start = d.start := by
  rw [ofDescription, (foldl_addTransition _ _).2.2.1, (foldl_markAccepting _ _).2.2.1, withStates]

theorem accepting_size_ofDescription (d : Description) :
    (ofDescription d).accepting.size = d.numStates := by
  rw [ofDescription, (foldl_addTransition _ _).2.2.2, (foldl_markAccepting _ _).2.2.2]
  simp [withStates]

theorem moves_ofDescription :
    (ofDescription d).Moves s label t ↔ s < d.numStates ∧ d.Moves s label t := by
  rw [ofDescription, moves_foldl_addTransition, moves_foldl_markAccepting,
    (foldl_markAccepting _ _).1, numStates_withStates, or_iff_right not_moves_withStates]
  rfl

theorem isAccepting_ofDescription :
    (ofDescription d).isAccepting s = true ↔ s < d.numStates ∧ s ∈ d.accepting := by
  have hsize : (withStates d.numStates d.alphabet d.start).accepting.size = d.numStates := by
    simp [withStates]
  rw [ofDescription, isAccepting, (foldl_addTransition _ _).2.2.2, ← isAccepting,
    isAccepting_foldl_markAccepting, hsize, SortedSet.mem_def]
  exact or_iff_right not_isAccepting_withStates

theorem wellFormed_ofDescription (h : d.WellFormed) : (ofDescription d).WellFormed where
  start_lt := by
    rw [start_ofDescription, numStates_ofDescription]
    exact h.start_lt
  accepting_size := by rw [accepting_size_ofDescription, numStates_ofDescription]
  target_lt s label t hmove := by
    rw [numStates_ofDescription]
    exact h.target_lt _ (moves_ofDescription.mp hmove).2
  label_mem s c t hmove := by
    rw [alphabet_ofDescription]
    exact h.label_mem _ (moves_ofDescription.mp hmove).2 c rfl

theorem language_ofDescription (h : d.WellFormed) : (ofDescription d).language = d.language := by
  rw [language, Description.language, start_ofDescription]
  refine languageFrom_congr (fun s label t => ?_) (fun s => ?_) _
  · rw [moves_ofDescription]
    exact and_iff_right_of_imp fun hmove => h.source_lt _ hmove
  · rw [isAccepting_ofDescription]
    exact and_iff_right_of_imp (h.accepting_lt s)

end Nfa

namespace Dfa

variable {d : Description} {s t : Nat} {c : Char}

/-- The entry of a table for a state and a symbol. -/
def entry (transitions : List Transition) (s : Nat) (c : Char) : Nat :=
  match transitions.find? fun t => t.source = s ∧ t.label = some c with
  | some t => t.target
  | none => 0

theorem rows_ofTable (header : Header) (transitions : List Transition) :
    (ofTable header transitions).rows = ((List.range header.numStates).map fun s =>
      (header.alphabet.toList.map fun c => entry transitions s c).toArray).toArray := rfl

theorem numStates_ofTable (header : Header) (transitions : List Transition) :
    (ofTable header transitions).numStates = header.numStates := by
  simp [numStates, rows_ofTable]

theorem transition?_ofTable {header : Header} {transitions : List Transition} :
    (ofTable header transitions).transition? s c = some t ↔
      s < header.numStates ∧ c ∈ header.alphabet ∧ entry transitions s c = t := by
  have hrow (row : Array Nat) : (ofTable header transitions).rows[s]? = some row ↔
      s < header.numStates ∧ row = (header.alphabet.toList.map (entry transitions s)).toArray := by
    by_cases hs : s < header.numStates <;> simp [rows_ofTable, hs, eq_comm]
  rw [transition?_eq_some_iff]
  constructor
  · rintro ⟨row, i, hget, hi, ht⟩
    obtain ⟨hs, rfl⟩ := (hrow row).mp hget
    have hc := Alphabet.indexOf?_eq_some_iff.mp hi
    refine ⟨hs, Alphabet.mem_of_indexOf? hi, ?_⟩
    simpa [List.getElem?_map, show header.alphabet.toList[i]? = some c from hc] using ht
  · rintro ⟨hs, hc, rfl⟩
    obtain ⟨i, hi, -⟩ := Alphabet.exists_indexOf? hc
    refine ⟨_, i, (hrow _).mpr ⟨hs, rfl⟩, hi, ?_⟩
    simp [Alphabet.indexOf?_eq_some_iff.mp hi]

/-- In a complete table each entry comes from a transition, and each transition is an entry. -/
theorem entry_eq_iff (h : d.WellFormed) (hmode : d.mode = .strict) (hs : s < d.numStates)
    (hc : c ∈ d.alphabet) : entry d.transitions s c = t ↔ d.Moves s (some c) t := by
  have hcount := h.complete hmode s hs c hc
  rw [List.countP_eq_length_filter, List.length_eq_one_iff] at hcount
  obtain ⟨r, hr⟩ := hcount
  have hmem (u : Transition) :
      (u ∈ d.transitions ∧ u.source = s ∧ u.label = some c) ↔ u = r := by
    have hfilter : u ∈ [r] ↔ _ := hr ▸ List.mem_filter
    rw [List.mem_singleton, decide_eq_true_eq] at hfilter
    exact hfilter.symm
  obtain ⟨-, hsource, hlabel⟩ := (hmem r).mpr rfl
  have hentry : entry d.transitions s c = r.target := by
    rw [entry, ← List.head?_filter, hr]
    rfl
  rw [hentry, Description.Moves]
  constructor
  · rintro rfl
    rw [← hsource, ← hlabel]
    exact ((hmem r).mpr rfl).1
  · intro hmove
    rw [← (hmem _).mp ⟨hmove, rfl, rfl⟩]

theorem isAccepting_ofTable {header : Header} {transitions : List Transition} :
    (ofTable header transitions).isAccepting s = true ↔ s < header.numStates ∧ s ∈ header.accepting := by
  by_cases hs : s < header.numStates <;> simp [isAccepting, ofTable, hs]

theorem moves_ofTable (h : d.WellFormed) (hmode : d.mode = .strict) {label : Option Char} :
    (ofTable d.toHeader d.transitions).Moves s label t ↔ d.Moves s label t := by
  cases label with
  | none =>
    refine iff_of_false not_moves_none fun hmove => ?_
    exact h.label_ne_none hmode _ hmove rfl
  | some c =>
    rw [moves_some, transition?_ofTable]
    constructor
    · rintro ⟨hs, hc, ht⟩
      exact (entry_eq_iff h hmode hs hc).mp ht
    · intro hmove
      have hs := h.source_lt _ hmove
      have hc := h.label_mem _ hmove c rfl
      exact ⟨hs, hc, (entry_eq_iff h hmode hs hc).mpr hmove⟩

theorem wellFormed_ofTable (h : d.WellFormed) (hmode : d.mode = .strict) :
    (ofTable d.toHeader d.transitions).WellFormed where
  start_lt := by
    rw [numStates_ofTable]
    exact h.start_lt
  accepting_size := by
    rw [numStates_ofTable]
    simp [ofTable]
  row_size row hrow := by
    simp only [rows_ofTable, List.mem_toArray, List.mem_map] at hrow
    obtain ⟨s, -, rfl⟩ := hrow
    simp [ofTable, Alphabet.size]
  entry_lt row hrow t ht := by
    simp only [rows_ofTable, List.mem_toArray, List.mem_map, List.mem_range] at hrow
    obtain ⟨s, hs, rfl⟩ := hrow
    simp only [List.mem_toArray, List.mem_map] at ht
    obtain ⟨c, hc, rfl⟩ := ht
    rw [numStates_ofTable]
    exact h.target_lt _ ((entry_eq_iff h hmode hs hc).mp rfl)

theorem language_ofTable (h : d.WellFormed) (hmode : d.mode = .strict) :
    (ofTable d.toHeader d.transitions).language = d.language := by
  refine languageFrom_congr (fun s label t => moves_ofTable h hmode) (fun s => ?_) _
  rw [isAccepting_ofTable]
  exact and_iff_right_of_imp (h.accepting_lt s)

theorem alphabet_of_ofDescription? {e : Dfa} (h : ofDescription? d = some e) :
    e.alphabet = d.alphabet := by
  rw [ofDescription?] at h
  split at h
  · cases h
    rfl
  · rw [Nfa.alphabet_of_determinize? h, Nfa.alphabet_ofDescription]

/-- A description in order stands for an automaton with its language, in either mode. -/
theorem exists_ofDescription? (h : d.WellFormed) :
    ∃ e, ofDescription? d = some e ∧ e.WellFormed ∧ e.language = d.language := by
  rw [ofDescription?]
  cases hmode : d.mode with
  | strict => exact ⟨_, rfl, wellFormed_ofTable h hmode, language_ofTable h hmode⟩
  | lenient =>
    obtain ⟨e, he, hwf, -, hlang⟩ := (Nfa.wellFormed_ofDescription h).exists_determinize?
    exact ⟨e, he, hwf, hlang.trans (Nfa.language_ofDescription h)⟩

variable {a : Dfa} {label : Option Char}

theorem movesFrom_of_row {row : Array Nat} (hrow : a.rows[s]? = some row) :
    a.movesFrom s = a.alphabet.toList.zip row.toList := by
  rw [movesFrom, hrow, Option.getD_some]

theorem mem_movesFrom {m : Char × Nat} : m ∈ a.movesFrom s ↔ a.transition? s m.1 = some m.2 := by
  obtain ⟨c, t⟩ := m
  rw [movesFrom, List.mem_iff_getElem?, transition?_eq_some_iff]
  simp only [List.getElem?_zip_eq_some, Alphabet.indexOf?_eq_some_iff]
  cases hrow : a.rows[s]? with
  | none => simp
  | some row => simp

theorem mem_transitions {r : Transition} : r ∈ a.transitions ↔ a.Moves r.source r.label r.target := by
  simp only [transitions, states, List.mem_flatMap, List.mem_range, List.mem_map, mem_movesFrom]
  constructor
  · rintro ⟨s, -, m, hm, rfl⟩
    exact moves_some.mpr hm
  · obtain ⟨s, label, t⟩ := r
    rintro ⟨c, rfl, ht⟩
    exact ⟨s, source_lt_of_transition? ht, (c, t), ht, rfl⟩

theorem numStates_toNfa : a.toNfa.numStates = a.numStates := by
  rw [toNfa, (Nfa.foldl_addTransition _ _).1]
  change (Nfa.withStates a.numStates a.alphabet a.start).numStates = a.numStates
  exact Nfa.numStates_withStates

theorem start_toNfa : a.toNfa.start = a.start := (Nfa.foldl_addTransition _ _).2.2.1

theorem alphabet_toNfa : a.toNfa.alphabet = a.alphabet := (Nfa.foldl_addTransition _ _).2.1

theorem accepting_toNfa : a.toNfa.accepting = a.accepting := (Nfa.foldl_addTransition _ _).2.2.2

theorem moves_toNfa : a.toNfa.Moves s label t ↔ a.Moves s label t := by
  have hblank : ¬ Nfa.Moves { Nfa.withStates a.numStates a.alphabet a.start with
      accepting := a.accepting } s label t := by
    change ¬ (Nfa.withStates a.numStates a.alphabet a.start).Moves s label t
    exact Nfa.not_moves_withStates
  rw [toNfa, Nfa.moves_foldl_addTransition, or_iff_right hblank, mem_transitions]
  refine and_iff_right_of_imp ?_
  rintro ⟨c, -, ht⟩
  have hs := source_lt_of_transition? ht
  rwa [← numStates_toNfa, toNfa, (Nfa.foldl_addTransition _ _).1] at hs

theorem run_toNfa {w : Word} : Run a.toNfa.Moves s w t ↔ Run a.Moves s w t :=
  ⟨Run.mono fun _ _ _ => moves_toNfa.mp, Run.mono fun _ _ _ => moves_toNfa.mpr⟩

theorem isAccepting_toNfa : a.toNfa.isAccepting s = a.isAccepting s := by
  rw [Nfa.isAccepting, accepting_toNfa, isAccepting]

theorem WellFormed.toNfa (h : a.WellFormed) : a.toNfa.WellFormed where
  start_lt := by
    rw [start_toNfa, numStates_toNfa]
    exact h.start_lt
  accepting_size := by
    rw [accepting_toNfa, numStates_toNfa]
    exact h.accepting_size
  target_lt s label t hmove := by
    obtain ⟨c, -, ht⟩ := moves_toNfa.mp hmove
    rw [numStates_toNfa]
    exact h.target_lt ht
  label_mem s c t hmove := by
    rw [alphabet_toNfa]
    exact mem_alphabet_of_transition? (moves_some.mp (moves_toNfa.mp hmove))

theorem language_toNfa (a : Dfa) : a.toNfa.language = a.language := by
  rw [Nfa.language, language, start_toNfa]
  refine languageFrom_congr (fun s label t => moves_toNfa) (fun s => ?_) _
  rw [isAccepting_toNfa]

end Dfa

end FiniteAutomata
