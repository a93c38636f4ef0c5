import FiniteAutomata.Proofs.PowerStates
import FiniteAutomata.Proofs.RegularLaws
import FiniteAutomata.Proofs.Renumbering

/-!
# Determinizing a table again

A word leads to one state of a complete table. When a table is determinized once more, the sets that are found are
therefore the empty set and the single states that can be reached (`Dfa.WellFormed.exists_run_of_explored`), so
the new table has one state for each of these, and a sink that the start does not lead to. The states that can
be reached keep what they do (`Dfa.WellFormed.isIsomorphism_ofState`), and since determinization is canonical,
a further one changes nothing.
-/
namespace FiniteAutomata

/-- The number of the set that has one state only. -/
def Numbering.ofState (sets : Numbering (SortedSet Nat)) (s : Nat) : Nat :=
  (sets.indexOf? (.ofList [s])).getD 0

theorem Numbering.ofState_eq {sets : Numbering (SortedSet Nat)} {s i : Nat}
    (h : sets.values[i]? = some (.ofList [s])) : sets.ofState s = i := by
  rw [ofState, indexOf?_eq_some_iff.mpr h, Option.getD_some]

theorem SortedSet.ofList_singleton_ne_empty (s : Nat) : (SortedSet.ofList [s]) ≠ ∅ := fun h =>
  not_mem_empty s (h ▸ mem_ofList.mpr (by simp))

namespace Dfa

variable {d : Dfa} {sets : Numbering (SortedSet Nat)} {s t i : Nat} {c : Char} {w : Word}

theorem WellFormed.stepOf_toNfa (h : d.WellFormed) (hmove : d.transition? s c = some t) :
    d.toNfa.stepOf (.ofList [s]) c = .ofList [t] := by
  have hclosed : d.toNfa.IsClosedSet (.ofList [s]) := by
    refine ⟨fun r hr => ?_, fun r _ u hu => absurd (moves_toNfa.mp hu) not_moves_none⟩
    obtain rfl : r = s := by simpa using hr
    rw [numStates_toNfa]
    exact source_lt_of_transition? hmove
  apply SortedSet.ext
  intro u
  simp [h.toNfa.mem_stepOf hclosed, run_toNfa, run_cons_iff, run_nil_iff, hmove, eq_comm]

theorem mem_reachable_toNfa : s ∈ d.toNfa.reachable ↔ ∃ w, Run d.Moves d.start w s := by
  simp only [Nfa.reachable, Set.mem_ofPred_eq, run_toNfa, start_toNfa]

namespace WellFormed

variable (h : d.WellFormed) (hsets : d.toNfa.Explored sets)
include h hsets

/-- A word leads to the set of the one state that it leads to in the table. -/
theorem exists_run_of_explored (hrun : Run (d.toNfa.powerAutomaton sets).Moves 1 w i) :
    ∃ s, Run d.Moves d.start w s ∧ sets.values[i]? = some (.ofList [s]) := by
  have hwf := hsets.wellFormed
  have hlt : i < sets.values.size := by
    rw [← Nfa.numStates_powerAutomaton (n := d.toNfa)]
    exact hwf.lt_of_run hwf.start_lt hrun
  have hword : ∀ c ∈ w, c ∈ d.alphabet := by
    rw [← alphabet_toNfa]
    exact mem_alphabet_of_run hrun
  obtain ⟨s, hs⟩ := h.exists_run h.start_lt hword
  have hset : sets.values[i] = .ofList [s] := by
    apply SortedSet.ext
    intro t
    rw [hsets.mem_iff_run_start h.toNfa (Array.getElem?_eq_getElem hlt) hrun, run_toNfa, start_toNfa,
      SortedSet.mem_ofList, List.mem_singleton]
    constructor
    · intro ht
      exact run_unique ht hs
    · rintro rfl
      exact hs
  exact ⟨s, hs, hset ▸ Array.getElem?_eq_getElem hlt⟩

/-- Each state that can be reached makes up a set. -/
theorem getElem?_ofState (hs : s ∈ d.toNfa.reachable) :
    sets.values[sets.ofState s]? = some (.ofList [s]) := by
  have hwf := hsets.wellFormed
  obtain ⟨w, hrun⟩ := mem_reachable_toNfa.mp hs
  have hword : ∀ c ∈ w, c ∈ d.toNfa.alphabet := by
    rw [alphabet_toNfa]
    exact mem_alphabet_of_run hrun
  obtain ⟨i, hi⟩ := hwf.exists_run hwf.start_lt hword
  obtain ⟨s', hs', hset⟩ := h.exists_run_of_explored hsets hi
  obtain rfl := run_unique hrun hs'
  rwa [Numbering.ofState_eq hset]

omit h in
theorem pos_and_lt_of_single (hset : sets.values[i]? = some (.ofList [s])) :
    1 ≤ i ∧ i < sets.values.size :=
  ⟨hsets.pos hset (SortedSet.ofList_singleton_ne_empty s), (Array.getElem?_eq_some_iff.mp hset).1⟩

/-- The start reaches all states but the sink. -/
theorem exists_run_powerAutomaton_iff :
    (∃ w, Run (d.toNfa.powerAutomaton sets).Moves 1 w i) ↔ 1 ≤ i ∧ i < sets.values.size := by
  constructor
  · rintro ⟨w, hrun⟩
    obtain ⟨s, -, hset⟩ := h.exists_run_of_explored hsets hrun
    exact pos_and_lt_of_single hsets hset
  · rintro ⟨hpos, hlt⟩
    exact hsets.exists_run hpos hlt

/-- The states that can be reached have the numbers from 1 on. -/
theorem exists_ofState_iff :
    (∃ s ∈ d.toNfa.reachable, sets.ofState s = i) ↔ 1 ≤ i ∧ i < sets.values.size := by
  constructor
  · rintro ⟨s, hs, rfl⟩
    exact pos_and_lt_of_single hsets (h.getElem?_ofState hsets hs)
  · rintro ⟨hpos, hlt⟩
    obtain ⟨w, hrun⟩ := hsets.exists_run hpos hlt
    obtain ⟨s, hs, hset⟩ := h.exists_run_of_explored hsets hrun
    exact ⟨s, mem_reachable_toNfa.mpr ⟨w, hs⟩, Numbering.ofState_eq hset⟩

theorem injOn_ofState : Set.InjOn sets.ofState d.toNfa.reachable := by
  intro s hs t ht heq
  have hset := h.getElem?_ofState hsets hs
  rw [heq, h.getElem?_ofState hsets ht, Option.some_inj] at hset
  have hmem : s ∈ SortedSet.ofList [t] := hset ▸ SortedSet.mem_ofList.mpr (by simp)
  simpa using hmem

theorem moves_ofState_iff (hs : s ∈ d.toNfa.reachable) (hc : c ∈ d.alphabet) :
    (d.toNfa.powerAutomaton sets).transition? (sets.ofState s) c = some t ↔
      ∃ t', d.transition? s c = some t' ∧ sets.ofState t' = t := by
  have hlt : s < d.numStates := numStates_toNfa ▸ h.toNfa.lt_of_mem_reachable hs
  obtain ⟨t', ht', -⟩ := h.exists_transition hlt hc
  have hreach : t' ∈ d.toNfa.reachable :=
    Nfa.mem_reachable_of_moves hs (moves_toNfa.mpr (moves_some.mpr ht'))
  have hc' : c ∈ d.toNfa.alphabet := alphabet_toNfa.symm ▸ hc
  rw [hsets.transition?_eq_some_iff (h.getElem?_ofState hsets hs) hc', h.stepOf_toNfa ht', ht']
  simp only [Option.some_inj, exists_eq_left']
  constructor
  · exact Numbering.ofState_eq
  · rintro rfl
    exact h.getElem?_ofState hsets hreach

theorem preserves_ofState : Nfa.Preserves sets.ofState d.toNfa.reachable d.toNfa
    (d.toNfa.powerAutomaton sets).toNfa where
  alphabet_eq := (alphabet_toNfa (a := d.toNfa.powerAutomaton sets)).symm
  start_eq := by
    obtain ⟨s, hs, hset⟩ := h.exists_run_of_explored hsets (.refl 1)
    obtain rfl := run_nil_iff.mp hs
    rw [start_toNfa, start_toNfa]
    exact Numbering.ofState_eq hset
  isAccepting_eq s hs := by
    rw [isAccepting_toNfa, Nfa.isAccepting_powerAutomaton (h.getElem?_ofState hsets hs)]
    exact Bool.or_false _
  targets_eq s hs label hlabel := by
    rw [Nfa.targets_eq_image_iff]
    intro t
    simp only [moves_toNfa]
    cases label with
    | none => simp
    | some c =>
      have hc : c ∈ d.alphabet := alphabet_toNfa ▸ Nfa.some_mem_labels.mp hlabel
      simp only [moves_some]
      exact h.moves_ofState_iff hsets hs hc

/-- What can be reached stays the same, up to the numbers. -/
theorem isIsomorphism_ofState :
    Nfa.IsIsomorphism sets.ofState d.toNfa (d.toNfa.powerAutomaton sets).toNfa :=
  (h.preserves_ofState hsets).isIsomorphism h.toNfa hsets.wellFormed.toNfa (h.injOn_ofState hsets)

/-- Besides the empty set, there is one set for each state that can be reached. -/
theorem size_values_of_explored {reached : SortedSet Nat}
    (hmem : ∀ s, s ∈ reached ↔ ∃ w, Run d.Moves d.start w s) :
    sets.values.size = 1 + reached.size := by
  have hreach : ∀ s ∈ reached.toList, s ∈ d.toNfa.reachable := fun s hs =>
    mem_reachable_toNfa.mpr ((hmem s).mp hs)
  have hpos := hsets.lt_size
  have hnodup : (reached.toList.map sets.ofState).Nodup :=
    reached.nodup.map_on fun s hs t ht => h.injOn_ofState hsets (hreach s hs) (hreach t ht)
  have hnumbers : (reached.toList.map sets.ofState).Perm (List.range' 1 (sets.values.size - 1)) := by
    rw [List.perm_ext_iff_of_nodup hnodup List.nodup_range']
    intro i
    have hrange : i ∈ List.range' 1 (sets.values.size - 1) ↔ 1 ≤ i ∧ i < sets.values.size := by
      rw [List.mem_range'_1]
      omega
    rw [hrange, ← h.exists_ofState_iff hsets, List.mem_map]
    exact exists_congr fun s => and_congr_left' ((hmem s).trans mem_reachable_toNfa.symm)
  have hlength := hnumbers.length_eq
  rw [List.length_map, List.length_range'] at hlength
  rw [SortedSet.size, hlength]
  omega

end WellFormed

/-- To determinize a table again trims it: the answers stay, there is one state for each state that can be reached and a
sink beside them that cannot, and from then on nothing changes. -/
theorem Constructible.determinize?_toNfa (h : d.Constructible) :
    ∃ e reached trimmed, d.toNfa.determinize? = some e ∧
      (∀ w, ∃ answer, e.recognize? w = some answer ∧ d.recognize? w = some answer) ∧
      d.graph.reachable? d.start = some reached ∧ e.numStates = 1 + reached.size ∧
      e.graph.reachable? e.start = some trimmed ∧ (∀ s, s ∈ trimmed ↔ 1 ≤ s ∧ s < e.numStates) ∧
      e.toNfa.determinize? = some e := by
  have hwf := h.wellFormed
  obtain ⟨sets, hsets, hexplored⟩ := hwf.toNfa.exists_explored
  obtain ⟨e, he, hewf, -, hlang⟩ := hwf.toNfa.exists_determinize?
  obtain rfl : d.toNfa.powerAutomaton sets = e := Option.some_inj.mp (hsets.symm.trans he)
  obtain ⟨reached, hreached, hmem⟩ := hwf.exists_reachable?
  obtain ⟨trimmed, htrimmed, hmem'⟩ := hewf.exists_reachable?
  refine ⟨_, reached, trimmed, he, fun w => ?_, hreached, ?_, htrimmed, fun s => ?_, ?_⟩
  · obtain ⟨answer, hanswer, -⟩ := hewf.recognize?_eq w
    rw [language_toNfa] at hlang
    have hsame := (hewf.recognizes hlang).answer_unique (hwf.recognizes rfl) w
    exact ⟨answer, hanswer, hsame ▸ hanswer⟩
  · rw [Nfa.numStates_powerAutomaton]
    exact hwf.size_values_of_explored hexplored hmem
  · rw [hmem', Nfa.numStates_powerAutomaton]
    exact hwf.exists_run_powerAutomaton_iff hexplored
  · obtain ⟨e, hfirst, hagain⟩ :=
      (hwf.isIsomorphism_ofState hexplored).exists_determinize? hwf.toNfa hewf.toNfa
    rwa [hagain, ← hfirst]

end Dfa

/-- A table for the words with an even number of symbols, with two states that the start does not lead to. -/
def Description.evenAsSpare : Description where
  kind := .dfa
  mode := .strict
  numStates := 4
  alphabet := Alphabet.ofChars ['a']
  start := 0
  accepting := SortedSet.ofList [0]
  transitions := [⟨0, some 'a', 1⟩, ⟨1, some 'a', 0⟩, ⟨2, some 'a', 3⟩, ⟨3, some 'a', 0⟩]

theorem Description.parsed_evenAsSpare : evenAsSpare.Parsed :=
  .inl ⟨"DFA\n4\na\n0\n0\n0 a 1\n1 a 0\n2 a 3\n3 a 0\n", rfl⟩

def Dfa.evenAsSpare : Dfa :=
  .ofTable Description.evenAsSpare.toHeader Description.evenAsSpare.transitions

theorem Dfa.determinize?_toNfa_evenAsSpare : evenAsSpare.Constructible ∧ evenAsSpare.numStates = 4 ∧
    ∃ e trimmed, evenAsSpare.toNfa.determinize? = some e ∧ e.recognize? ['a', 'a'] = some true ∧
      e.numStates = 3 ∧ e.graph.reachable? e.start = some trimmed ∧ 0 ∉ trimmed ∧
      e.toNfa.determinize? = some e := by
  have h : evenAsSpare.Constructible := .ofDescription Description.parsed_evenAsSpare rfl
  obtain ⟨e, reached, trimmed, he, hanswer, hreached, hsize, htrimmed, hmem, hagain⟩ :=
    Constructible.determinize?_toNfa h
  have hreach : (evenAsSpare.graph.reachable? evenAsSpare.start).map SortedSet.size = some 2 := by cbv
  rw [hreached, Option.map_some, Option.some_inj] at hreach
  obtain ⟨answer, hnew, hold⟩ := hanswer ['a', 'a']
  have hword : evenAsSpare.recognize? ['a', 'a'] = some true := by decide
  have hsink : 0 ∉ trimmed := fun hzero => absurd ((hmem 0).mp hzero).1 (by decide)
  exact ⟨h, rfl, e, trimmed, he, hnew.trans (hold.symm.trans hword), by rw [hsize, hreach], htrimmed,
    hsink, hagain⟩

end FiniteAutomata
