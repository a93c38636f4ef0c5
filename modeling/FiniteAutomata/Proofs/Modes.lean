import FiniteAutomata.Proofs.RegularLaws

/-!
# The two modes of reading

A text that reads as a strict table also reads leniently, with the same values; and a lenient text that has no epsilon
mark and is a complete table also reads as a strict one (`Description.parseAs_strict_eq_ok_iff`). The automata of the
two readings go together: what the lenient one builds is the strict table, lifted, and determinizing it keeps the
language of the table.
-/
namespace FiniteAutomata

open Text

namespace Description

variable {text : List Char} {d : Description} {line : List Char} {alphabet : Alphabet}

/-- The values of a description, as read in another mode. -/
def inMode (d : Description) (mode : Mode) : Description := { d with mode }

theorem isAlphabetLine_strict_iff : IsAlphabetLine .strict line alphabet ↔
    IsAlphabetLine .lenient line alphabet ∧ epsilonMark ∉ line := by
  have hblank : isBlank epsilonMark = false := rfl
  have hmark {cs : List Char} (h : Words line (cs.map fun c => [c])) :
      epsilonMark ∈ line ↔ epsilonMark ∈ cs := by
    rw [← and_iff_left (a := epsilonMark ∈ line) hblank, ← h.mem_iff]
    simp
  constructor
  · rintro ⟨cs, hwords, hcs, hmem⟩
    exact ⟨⟨cs, hwords, by simp, hmem⟩, mt (hmark hwords).mp (hcs rfl)⟩
  · rintro ⟨⟨cs, hwords, -, hmem⟩, hline⟩
    exact ⟨cs, hwords, fun _ => mt (hmark hwords).mpr hline, hmem⟩

/-- What a strict reading demands beyond a lenient one. -/
theorem describes_strict_iff (hmode : d.mode = .strict) : Describes text d ↔
    Describes text (d.inMode .lenient) ∧ epsilonMark ∉ lineAt text 3 ∧
      (∀ t ∈ d.transitions, t.label ≠ none) ∧ IsComplete d.numStates d.alphabet d.transitions := by
  constructor
  · intro h
    obtain ⟨halphabet, hmark⟩ := isAlphabetLine_strict_iff.mp (hmode ▸ h.header.alphabet)
    have hlines := h.transitions
    rw [hmode] at hlines
    obtain ⟨hlines, hlabels⟩ :=
      forall₂_and_right.mp (hlines.imp fun _ _ => isTransitionLine_strict_iff.mp)
    refine ⟨⟨⟨h.header.kind, h.header.numStates, h.header.numStates_le, halphabet, h.header.start,
      h.header.start_lt, h.header.accepting⟩, hlines, by simp [inMode]⟩, hmark, hlabels, h.complete hmode⟩
  · rintro ⟨h, hmark, hlabels, hcomplete⟩
    have halphabet := isAlphabetLine_strict_iff.mpr ⟨h.header.alphabet, hmark⟩
    have hlines := forall₂_and_right.mpr ⟨h.transitions, hlabels⟩
    refine ⟨⟨h.header.kind, h.header.numStates, h.header.numStates_le, hmode ▸ halphabet, h.header.start,
      h.header.start_lt, h.header.accepting⟩, ?_, fun _ => hcomplete⟩
    rw [hmode]
    exact hlines.imp fun _ _ => isTransitionLine_strict_iff.mpr

theorem parseAs_strict_eq_ok_iff {text : String} : parseAs .strict text = .ok d ↔
    d.mode = .strict ∧ parseAs .lenient text = .ok (d.inMode .lenient) ∧
      epsilonMark ∉ lineAt text.toList 3 ∧ (∀ t ∈ d.transitions, t.label ≠ none) ∧
      IsComplete d.numStates d.alphabet d.transitions := by
  have hlenient : parseAs .lenient text = .ok (d.inMode .lenient) ↔
      Describes text.toList (d.inMode .lenient) := ofLines_eq_ok_iff.trans (and_iff_left rfl)
  rw [hlenient, parseAs, ofLines_eq_ok_iff, and_comm]
  exact and_congr_right fun hmode => describes_strict_iff hmode

end Description

namespace Nfa

variable {m n : Nfa} {d : Description}

/-- A strict description builds the lifted table. -/
theorem ofDescription_eq_toNfa (h : d.WellFormed) (hmode : d.mode = .strict) :
    ofDescription d = (Dfa.ofTable d.toHeader d.transitions).toNfa := by
  apply eq_of_moves
  · rw [alphabet_ofDescription, Dfa.alphabet_toNfa]
    rfl
  · rw [start_ofDescription, Dfa.start_toNfa]
    rfl
  · rw [numStates_ofDescription, Dfa.numStates_toNfa, Dfa.numStates_ofTable]
  · intro s label t
    rw [moves_ofDescription, Dfa.moves_toNfa, Dfa.moves_ofTable h hmode]
    exact and_iff_right_of_imp (h.source_lt _)
  · rw [accepting_size_ofDescription, Dfa.accepting_toNfa, (Dfa.wellFormed_ofTable h hmode).accepting_size,
      Dfa.numStates_ofTable]
  · intro s
    rw [isAccepting_ofDescription, isAccepting, Dfa.accepting_toNfa, ← Dfa.isAccepting,
      Dfa.isAccepting_ofTable]

end Nfa

namespace Description

/-- Where the strict reading of a text succeeds, the lenient one gives the same values, what it builds is the lifted
table, and both recognize the same words. Conversely a lenient reading without epsilon marks in which each state has
exactly one transition line for each symbol is a strict one too. -/
theorem parseAs_modes_agree (text : String) :
    (∀ d, parseAs .strict text = .ok d →
      parseAs .lenient text = .ok (d.inMode .lenient) ∧
      ∃ table determinized, Dfa.ofDescription? d = some table ∧
        Dfa.ofDescription? (d.inMode .lenient) = some determinized ∧
        Nfa.ofDescription (d.inMode .lenient) = table.toNfa ∧
        ∀ w, ∃ answer, table.recognize? w = some answer ∧ determinized.recognize? w = some answer) ∧
    ∀ d, parseAs .lenient text = .ok d → epsilonMark ∉ lineAt text.toList 3 →
      (∀ t ∈ d.transitions, t.label ≠ none) → IsComplete d.numStates d.alphabet d.transitions →
      parseAs .strict text = .ok (d.inMode .strict) := by
  constructor
  · intro d hstrict
    have hwf : d.WellFormed := Parsed.wellFormed (.inr ⟨.strict, text, hstrict⟩)
    obtain ⟨hmode, hlenient, -⟩ := parseAs_strict_eq_ok_iff.mp hstrict
    have hwf' : (d.inMode .lenient).WellFormed := Parsed.wellFormed (.inr ⟨.lenient, text, hlenient⟩)
    obtain ⟨table, htable, hwftable, hlang⟩ := Dfa.exists_ofDescription? hwf
    obtain ⟨determinized, hdeterminized, hwfd, hlang'⟩ := Dfa.exists_ofDescription? hwf'
    refine ⟨hlenient, table, determinized, htable, hdeterminized, ?_, fun w => ?_⟩
    · obtain rfl : Dfa.ofTable d.toHeader d.transitions = table := by
        rwa [Dfa.ofDescription?, hmode, Option.some_inj] at htable
      change Nfa.ofDescription d = _
      exact Nfa.ofDescription_eq_toNfa hwf hmode
    · have hsame := (hwftable.recognizes hlang).answer_unique (hwfd.recognizes hlang') w
      obtain ⟨answer, hanswer, -⟩ := hwftable.recognize?_eq w
      exact ⟨answer, hanswer, hsame ▸ hanswer⟩
  · intro d hlenient hmark hlabels hcomplete
    have hmode : d.mode = .lenient := (ofLines_eq_ok_iff.mp hlenient).2
    have hback : (d.inMode .strict).inMode .lenient = d := by
      rw [← hmode]
      rfl
    exact parseAs_strict_eq_ok_iff.mpr ⟨rfl, hback ▸ hlenient, hmark, hlabels, hcomplete⟩

def evenAsText : String := "DFA\n2\na\n0\n0\n0 a 1\n1 a 0\n"

theorem parseAs_modes_agree_evenAs :
    parseAs .strict evenAsText = .ok evenAs ∧
    Nfa.ofDescription (evenAs.inMode .lenient) = Dfa.evenAs.toNfa ∧
    parseAs .lenient evenAsText = .ok (evenAs.inMode .lenient) ∧
    parseAs .strict evenAsText = .ok ((evenAs.inMode .lenient).inMode .strict) := by
  have hstrict : parseAs .strict evenAsText = .ok evenAs := rfl
  have hlenient : parseAs .lenient evenAsText = .ok (evenAs.inMode .lenient) := rfl
  have hcomplete : IsComplete evenAs.numStates evenAs.alphabet evenAs.transitions :=
    (ofLines_eq_ok_iff.mp hstrict).1.complete rfl
  obtain ⟨hforward, hback⟩ := parseAs_modes_agree evenAsText
  obtain ⟨-, table, _, htable, -, hlift, -⟩ := hforward evenAs hstrict
  obtain rfl : Dfa.evenAs = table := Option.some_inj.mp htable
  exact ⟨hstrict, hlift, hlenient, hback _ hlenient (by decide) (by decide) hcomplete⟩

end Description

end FiniteAutomata
