import FiniteAutomata.Proofs.Moves

/-!
# Well-formed automata

An automaton is well-formed if its tables fit together: every state that it refers to exists, every label is a
symbol, and every row is complete. A well-formed deterministic automaton answers for every word, and it answers
yes exactly on its language (`Dfa.WellFormed.recognize?_eq`).
-/
namespace FiniteAutomata

namespace Alphabet

variable {a : Alphabet} {c : Char} {i : Nat}

/-- Numbers of symbols are positions in the ascending order. -/
theorem indexOf?_eq_some_iff : a.indexOf? c = some i ↔ a.toList[i]? = some c := by
  rw [indexOf?, List.idxOf?_eq_some_iff, List.getElem?_eq_some_iff]
  refine exists_congr fun hi => and_iff_left_of_imp ?_
  intro hc j hj heq
  have hnodup : a.toList.Nodup := a.symbols.nodup
  have hji : j = i := hnodup.getElem_inj_iff.mp (heq.trans hc.symm)
  omega

theorem exists_indexOf? (h : c ∈ a) : ∃ i, a.indexOf? c = some i ∧ i < a.size := by
  obtain ⟨i, hi⟩ := Option.isSome_iff_exists.mp (List.isSome_idxOf?.mpr h)
  exact ⟨i, hi, (List.getElem?_eq_some_iff.mp (indexOf?_eq_some_iff.mp hi)).1⟩

theorem mem_of_indexOf? (h : a.indexOf? c = some i) : c ∈ a :=
  List.mem_of_getElem? (indexOf?_eq_some_iff.mp h)

end Alphabet

namespace Nfa

/-- Every state that the automaton refers to exists, and it reads symbols only. -/
structure WellFormed (n : Nfa) : Prop where
  start_lt : n.start < n.numStates
  accepting_size : n.accepting.size = n.numStates
  target_lt : ∀ s l t, n.Moves s l t → t < n.numStates
  label_mem : ∀ s c t, n.Moves s (some c) t → c ∈ n.alphabet

theorem WellFormed.lt_of_isAccepting {n : Nfa} (h : n.WellFormed) {s : Nat}
    (hs : n.isAccepting s = true) : s < n.numStates := by
  by_contra hge
  rw [isAccepting, Array.getElem?_eq_none (by have := h.accepting_size; omega)] at hs
  simp at hs

theorem WellFormed.lt_of_run {n : Nfa} (h : n.WellFormed) {s t : Nat} {w : Word} (hs : s < n.numStates)
    (hrun : Run n.Moves s w t) : t < n.numStates :=
  hrun.mem_of_closed (S := {s | s < n.numStates}) (fun s _ label t hmove => h.target_lt s label t hmove) hs

end Nfa

namespace Dfa

variable {d : Dfa} {s t : Nat} {c : Char} {w : Word}

/-- Every state that the automaton refers to exists, and each row has an entry for each symbol. -/
structure WellFormed (d : Dfa) : Prop where
  start_lt : d.start < d.numStates
  accepting_size : d.accepting.size = d.numStates
  row_size : ∀ row ∈ d.rows, row.size = d.alphabet.size
  entry_lt : ∀ row ∈ d.rows, ∀ t ∈ row, t < d.numStates

theorem transition?_eq_some_iff :
    d.transition? s c = some t ↔
      ∃ row i, d.rows[s]? = some row ∧ d.alphabet.indexOf? c = some i ∧ row[i]? = some t := by
  simp [transition?, Option.bind_eq_some_iff]

theorem mem_alphabet_of_transition? (h : d.transition? s c = some t) : c ∈ d.alphabet := by
  obtain ⟨_, _, _, hi, _⟩ := transition?_eq_some_iff.mp h
  exact Alphabet.mem_of_indexOf? hi

theorem source_lt_of_transition? (h : d.transition? s c = some t) : s < d.numStates := by
  obtain ⟨_, _, hrow, _, _⟩ := transition?_eq_some_iff.mp h
  exact (Array.getElem?_eq_some_iff.mp hrow).1

theorem moves_some : d.Moves s (some c) t ↔ d.transition? s c = some t := by simp [Moves]

@[simp] theorem not_moves_none : ¬ d.Moves s none t := by simp [Moves]

theorem run_nil_iff : Run d.Moves s [] t ↔ t = s := by
  constructor
  · intro h
    cases h with
    | refl => rfl
    | silent move => exact absurd move not_moves_none
  · rintro rfl
    exact .refl t

theorem run_cons_iff {u : Nat} :
    Run d.Moves s (c :: w) u ↔ ∃ t, d.transition? s c = some t ∧ Run d.Moves t w u := by
  rw [Run.cons_iff]
  constructor
  · rintro ⟨m, t, hm, hread, ht⟩
    obtain rfl := run_nil_iff.mp hm
    exact ⟨t, moves_some.mp hread, ht⟩
  · rintro ⟨t, hread, ht⟩
    exact ⟨s, t, .refl s, moves_some.mpr hread, ht⟩

theorem mem_alphabet_of_run (h : Run d.Moves s w t) : ∀ c ∈ w, c ∈ d.alphabet :=
  h.forall_mem fun _ _ _ hmove => mem_alphabet_of_transition? (moves_some.mp hmove)

/-- A word leads from a state to one state at most. -/
theorem run_unique {u : Nat} (ht : Run d.Moves s w t) (hu : Run d.Moves s w u) : t = u := by
  induction w generalizing s with
  | nil => rw [run_nil_iff.mp ht, run_nil_iff.mp hu]
  | cons c w ih =>
    obtain ⟨m, hm, ht⟩ := run_cons_iff.mp ht
    obtain ⟨m', hm', hu⟩ := run_cons_iff.mp hu
    obtain rfl := Option.some_inj.mp (hm.symm.trans hm')
    exact ih ht hu

namespace WellFormed

theorem exists_transition (h : d.WellFormed) (hs : s < d.numStates) (hc : c ∈ d.alphabet) :
    ∃ t, d.transition? s c = some t ∧ t < d.numStates := by
  obtain ⟨i, hi, hlt⟩ := Alphabet.exists_indexOf? hc
  have hrow : d.rows[s]? = some d.rows[s] := Array.getElem?_eq_getElem hs
  have hsize : i < d.rows[s].size := by
    rw [h.row_size _ (Array.getElem_mem hs)]
    exact hlt
  refine ⟨d.rows[s][i], transition?_eq_some_iff.mpr
    ⟨_, i, hrow, hi, Array.getElem?_eq_getElem hsize⟩, ?_⟩
  exact h.entry_lt _ (Array.getElem_mem hs) _ (Array.getElem_mem hsize)

theorem target_lt (h : d.WellFormed) (ht : d.transition? s c = some t) : t < d.numStates := by
  obtain ⟨row, i, hrow, _, hi⟩ := transition?_eq_some_iff.mp ht
  exact h.entry_lt row (Array.mem_of_getElem? hrow) t (Array.mem_of_getElem? hi)

/-- A word of symbols leads somewhere from every state. -/
theorem exists_run (h : d.WellFormed) (hs : s < d.numStates) (hw : ∀ c ∈ w, c ∈ d.alphabet) :
    ∃ t, Run d.Moves s w t := by
  induction w generalizing s with
  | nil => exact ⟨s, .refl s⟩
  | cons c w ih =>
    rw [List.forall_mem_cons] at hw
    obtain ⟨m, hm, hlt⟩ := h.exists_transition hs hw.1
    obtain ⟨t, hrun⟩ := ih hlt hw.2
    exact ⟨t, run_cons_iff.mpr ⟨m, hm, hrun⟩⟩

theorem lt_of_run (h : d.WellFormed) (hs : s < d.numStates) (hrun : Run d.Moves s w t) :
    t < d.numStates :=
  hrun.mem_of_closed (S := {u | u < d.numStates}) (fun _ _ _ _ ⟨_, _, ht⟩ => h.target_lt ht) hs

theorem accepting_getElem? (h : d.WellFormed) (hs : s < d.numStates) :
    d.accepting[s]? = some (d.isAccepting s) := by
  rw [isAccepting, Array.getElem?_eq_getElem (by have := h.accepting_size; omega), Option.getD_some]

theorem lt_of_isAccepting (h : d.WellFormed) (hs : d.isAccepting s = true) : s < d.numStates := by
  by_contra hge
  rw [isAccepting, Array.getElem?_eq_none (by have := h.accepting_size; omega)] at hs
  simp at hs

/-- A table is determined by its moves and its accepting states. -/
theorem eq_of_moves {e : Dfa} (h : d.WellFormed) (he : e.WellFormed)
    (halphabet : d.alphabet = e.alphabet) (hstart : d.start = e.start)
    (hsize : d.numStates = e.numStates) (hmoves : ∀ s label t, d.Moves s label t ↔ e.Moves s label t)
    (hflags : ∀ s, d.isAccepting s = true ↔ e.isAccepting s = true) : d = e := by
  have hrows : d.rows = e.rows := by
    refine Array.ext hsize fun s hs hs' => ?_
    have hrow : _ = d.alphabet.toList.length := h.row_size _ (Array.getElem_mem hs)
    have hrow' : _ = e.alphabet.toList.length := he.row_size _ (Array.getElem_mem hs')
    refine Array.ext (by rw [hrow, hrow', halphabet]) fun i hi hi' => ?_
    -- Both entries are what the symbol with their number leads to.
    obtain ⟨c, hc⟩ : ∃ c, d.alphabet.toList[i]? = some c := ⟨_, List.getElem?_eq_getElem (hrow ▸ hi)⟩
    have hindex := Alphabet.indexOf?_eq_some_iff.mpr hc
    have hindex' := hindex
    rw [halphabet] at hindex'
    have hentry := transition?_eq_some_iff.mpr
      ⟨_, i, Array.getElem?_eq_getElem hs, hindex, Array.getElem?_eq_getElem hi⟩
    have hentry' := transition?_eq_some_iff.mpr
      ⟨_, i, Array.getElem?_eq_getElem hs', hindex', Array.getElem?_eq_getElem hi'⟩
    have hmove := moves_some.mp ((hmoves _ _ _).mp (moves_some.mpr hentry))
    rwa [hmove, Option.some_inj] at hentry'
  have haccepting : d.accepting = e.accepting := by
    refine Array.ext (by rw [h.accepting_size, he.accepting_size, hsize]) fun s hs hs' => ?_
    simpa only [isAccepting, Array.getElem?_eq_getElem hs, Array.getElem?_eq_getElem hs', Option.getD_some,
      ← Bool.eq_iff_iff] using hflags s
  obtain ⟨_, _, _, _⟩ := d
  obtain ⟨_, _, _, _⟩ := e
  simp_all

/-- Reading a word from a state succeeds, and decides whether a run from there accepts it. -/
theorem recognizeFrom?_eq (h : d.WellFormed) (hs : s < d.numStates) (w : Word) :
    ∃ b, d.recognizeFrom? s w = some b ∧
      (b = true ↔ w ∈ languageFrom d.Moves (d.isAccepting ·) s) := by
  induction w generalizing s with
  | nil =>
    refine ⟨d.isAccepting s, h.accepting_getElem? hs, ?_⟩
    simp [mem_languageFrom, run_nil_iff]
  | cons c w ih =>
    by_cases hc : c ∈ d.alphabet
    · obtain ⟨t, ht, hlt⟩ := h.exists_transition hs hc
      obtain ⟨b, hb, hiff⟩ := ih hlt
      refine ⟨b, by simp [recognizeFrom?, hc, ht, hb], ?_⟩
      rw [hiff]
      simp [mem_languageFrom, run_cons_iff, ht]
    · refine ⟨false, by simp [recognizeFrom?, hc], ?_⟩
      simp only [Bool.false_eq_true, mem_languageFrom, run_cons_iff, false_iff, not_exists, not_and]
      rintro u _ t ht
      exact absurd (mem_alphabet_of_transition? ht) hc

/-- Recognition always answers, and it answers yes exactly on the language. -/
theorem recognize?_eq (h : d.WellFormed) (w : Word) :
    ∃ b, d.recognize? w = some b ∧ (b = true ↔ w ∈ d.language) :=
  h.recognizeFrom?_eq h.start_lt w

theorem recognize?_eq_true_iff (h : d.WellFormed) {w : Word} :
    d.recognize? w = some true ↔ w ∈ d.language := by
  obtain ⟨b, hb, hiff⟩ := h.recognize?_eq w
  rw [hb, Option.some_inj, hiff]

theorem recognize?_eq_false_iff (h : d.WellFormed) {w : Word} :
    d.recognize? w = some false ↔ w ∉ d.language := by
  obtain ⟨b, hb, hiff⟩ := h.recognize?_eq w
  rw [hb, Option.some_inj, ← hiff, Bool.not_eq_true]

end WellFormed

end Dfa

end FiniteAutomata
