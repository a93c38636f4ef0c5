import FiniteAutomata.Proofs.Modes

/-!
# The order of the transition lines

A text may give its transitions in any order, and a lenient one may repeat them. What it says about the header is
untouched, each transition line says the same wherever it stands, and a complete table stays complete in any order
(`Description.Describes.rearrange`). What is built of a description depends on the set of its
transitions, so the automata stay the same as well, with the numbers of their states.
-/
namespace FiniteAutomata

open Text

section Lines

variable {α β : Type} {R : α → β → Prop} {l : List α} {l' : List β}

theorem exists_forall₂ (h : ∀ a ∈ l, ∃ b, R a b) : ∃ l', List.Forall₂ R l l' := by
  induction l with
  | nil => exact ⟨[], .nil⟩
  | cons a l ih =>
    rw [List.forall_mem_cons] at h
    obtain ⟨⟨b, hb⟩, hl⟩ := h
    obtain ⟨l', hl'⟩ := ih hl
    exact ⟨b :: l', .cons hb hl'⟩

/-- Where one side determines the other, the members of the one list decide which members the other has. -/
theorem mem_iff_of_forall₂ (hR : ∀ a b b', R a b → R a b' → b = b') (h : List.Forall₂ R l l') (b : β) :
    b ∈ l' ↔ ∃ a ∈ l, R a b := by
  refine ⟨exists_of_forall₂_right h b, ?_⟩
  rintro ⟨a, ha, hab⟩
  obtain ⟨b', hb', hab'⟩ := exists_of_forall₂_left h a ha
  rwa [hR a b b' hab hab']

end Lines

namespace Description

variable {mode : Mode} {numStates : Nat} {alphabet : Alphabet} {text text' : List Char} {header : Header}
  {d : Description}

/-- A text that has the header of another and its later lines in some order; for a lenient reading it has the same
transition lines, in some order and some number. -/
structure Rearranges (mode : Mode) (text text' : List Char) : Prop where
  header : AgreeTo 5 text text'
  later : ((lines text).drop 5).Perm ((lines text').drop 5) ∨
    (mode = .lenient ∧ ∀ line, line ∈ laterLines text ↔ line ∈ laterLines text')

theorem Rearranges.symm (h : Rearranges mode text text') : Rearranges mode text' text where
  header := h.header.symm
  later := h.later.imp .symm (And.imp_right fun hlines line => (hlines line).symm)

/-- A header is what the first five lines say. -/
theorem DescribesHeader.of_agreeTo (h : DescribesHeader text header)
    (hlines : AgreeTo 5 text text') : DescribesHeader text' header where
  kind := hlines 1 (by omega) (by omega) ▸ h.kind
  numStates := hlines 2 (by omega) (by omega) ▸ h.numStates
  numStates_le := h.numStates_le
  alphabet := hlines 3 (by omega) (by omega) ▸ h.alphabet
  start := hlines 4 (by omega) (by omega) ▸ h.start
  start_lt := h.start_lt
  accepting := hlines 5 (by omega) (by omega) ▸ h.accepting

theorem IsComplete.perm {transitions transitions' : List Transition}
    (h : IsComplete numStates alphabet transitions) (hperm : transitions.Perm transitions') :
    IsComplete numStates alphabet transitions' :=
  fun s hs c hc => (hperm.countP_eq _).symm.trans (h s hs c hc)

/-- A rearranged text describes the same automaton, with the transitions in some other order and number. -/
theorem Describes.rearrange (h : Describes text d) (hlines : Rearranges d.mode text text') :
    ∃ transitions, Describes text' { d with transitions } ∧ ∀ t, t ∈ transitions ↔ t ∈ d.transitions := by
  have hheader := h.header.of_agreeTo hlines.header
  obtain hperm | ⟨hmode, hmem⟩ := hlines.later
  · have hlater : (laterLines text').Perm (laterLines text) := by
      rw [← filter_drop_lines, ← filter_drop_lines]
      exact hperm.symm.filter _
    obtain ⟨transitions, htransitions, hperm⟩ := List.perm_comp_forall₂ hlater h.transitions
    exact ⟨transitions, ⟨hheader, htransitions, fun hmode => (h.complete hmode).perm hperm.symm⟩,
      fun t => hperm.mem_iff⟩
  · have hunique : ∀ line t t', IsTransitionLine d.mode d.numStates d.alphabet line t →
        IsTransitionLine d.mode d.numStates d.alphabet line t' → t = t' :=
      fun _ _ _ => IsTransitionLine.unique
    obtain ⟨transitions, htransitions⟩ : ∃ transitions,
        List.Forall₂ (IsTransitionLine d.mode d.numStates d.alphabet) (laterLines text') transitions := by
      refine exists_forall₂ fun line hline => ?_
      obtain ⟨t, -, ht⟩ := exists_of_forall₂_left h.transitions line ((hmem line).mpr hline)
      exact ⟨t, ht⟩
    refine ⟨transitions, ⟨hheader, htransitions, fun hstrict => ?_⟩, fun t => ?_⟩
    · rw [hmode] at hstrict
      cases hstrict
    · rw [mem_iff_of_forall₂ hunique htransitions, mem_iff_of_forall₂ hunique h.transitions]
      simp only [hmem]

end Description

section Automata

variable {d : Description} {transitions : List Transition}

theorem Nfa.ofDescription_congr (hmem : ∀ t, t ∈ transitions ↔ t ∈ d.transitions) :
    ofDescription { d with transitions } = ofDescription d := by
  apply eq_of_moves
  · simp only [alphabet_ofDescription]
  · simp only [start_ofDescription]
  · simp only [numStates_ofDescription]
  · intro s label t
    simp only [moves_ofDescription, Description.Moves, hmem]
  · simp only [accepting_size_ofDescription]
  · simp only [isAccepting_ofDescription, implies_true]

theorem Dfa.ofDescription?_congr (h : d.WellFormed)
    (h' : Description.WellFormed { d with transitions })
    (hmem : ∀ t, t ∈ transitions ↔ t ∈ d.transitions) :
    ofDescription? { d with transitions } = ofDescription? d := by
  cases hmode : d.mode with
  | lenient => simp only [ofDescription?, hmode, Nfa.ofDescription_congr hmem]
  | strict =>
    simp only [ofDescription?, hmode, Option.some_inj]
    refine (wellFormed_ofTable h' hmode).eq_of_moves (wellFormed_ofTable h hmode) rfl rfl ?_ ?_ ?_
    · simp only [numStates_ofTable]
    · intro s label t
      rw [moves_ofTable h' hmode, moves_ofTable h hmode]
      exact hmem _
    · intro s
      simp only [isAccepting_ofTable]

end Automata

namespace Description

variable {mode : Mode} {text text' : String} {d : Description}

theorem exists_parseAs_of_rearranges (hlines : Rearranges mode text.toList text'.toList)
    (h : parseAs mode text = .ok d) : ∃ transitions, parseAs mode text' = .ok { d with transitions } ∧
      ∀ t, t ∈ transitions ↔ t ∈ d.transitions := by
  obtain ⟨hdescribes, hmode⟩ := ofLines_eq_ok_iff.mp h
  obtain rfl : d.mode = mode := hmode
  obtain ⟨transitions, hdescribes', hmem⟩ := hdescribes.rearrange hlines
  exact ⟨transitions, ofLines_eq_ok_iff.mpr ⟨hdescribes', rfl⟩, hmem⟩

/-- Rearranging the lines after the header changes neither whether a text is read nor the automata it is read as. -/
theorem parseAs_rearranged (hlines : Rearranges mode text.toList text'.toList) :
    ((∃ d, parseAs mode text = .ok d) ↔ ∃ d', parseAs mode text' = .ok d') ∧
    ∀ d d', parseAs mode text = .ok d → parseAs mode text' = .ok d' →
      Nfa.ofDescription d = Nfa.ofDescription d' ∧
      ∃ e, Dfa.ofDescription? d = some e ∧ Dfa.ofDescription? d' = some e := by
  refine ⟨⟨?_, ?_⟩, fun d d' h h' => ?_⟩
  · rintro ⟨d, h⟩
    obtain ⟨transitions, h', -⟩ := exists_parseAs_of_rearranges hlines h
    exact ⟨_, h'⟩
  · rintro ⟨d', h'⟩
    obtain ⟨transitions, h, -⟩ := exists_parseAs_of_rearranges hlines.symm h'
    exact ⟨_, h⟩
  · obtain ⟨transitions, hread, hmem⟩ := exists_parseAs_of_rearranges hlines h
    obtain rfl : { d with transitions } = d' := Except.ok.inj (hread.symm.trans h')
    have hwf : d.WellFormed := Parsed.wellFormed (.inr ⟨mode, text, h⟩)
    have hwf' := Parsed.wellFormed (.inr ⟨mode, text', h'⟩)
    obtain ⟨e, he, -⟩ := Dfa.exists_ofDescription? hwf
    exact ⟨(Nfa.ofDescription_congr hmem).symm, e, he, (Dfa.ofDescription?_congr hwf hwf' hmem).trans he⟩

/-- The table of `evenAsText` with its lines the other way round. -/
def swappedText : String := "DFA\n2\na\n0\n0\n1 a 0\n0 a 1\n"

/-- The same with a blank line and with one line repeated. -/
def repeatedText : String := "DFA\n2\na\n0\n0\n1 a 0\n\n0 a 1\n1 a 0"

theorem parseAs_rearranged_evenAs :
    (Rearranges .strict evenAsText.toList swappedText.toList ∧
      ∃ d', parseAs .strict swappedText = .ok d' ∧ Dfa.ofDescription? d' = some Dfa.evenAs) ∧
    Rearranges .lenient evenAsText.toList repeatedText.toList ∧
      ∃ d', parseAs .lenient repeatedText = .ok d' ∧
        Nfa.ofDescription d' = Nfa.ofDescription (evenAs.inMode .lenient) := by
  have hswapped : Rearranges .strict evenAsText.toList swappedText.toList :=
    ⟨by decide, .inl (by decide)⟩
  have hrepeated : Rearranges .lenient evenAsText.toList repeatedText.toList := by
    have hlines : laterLines evenAsText.toList = ["0 a 1".toList, "1 a 0".toList] := rfl
    have hlines' : laterLines repeatedText.toList =
        ["1 a 0".toList, "0 a 1".toList, "1 a 0".toList] := rfl
    have hsame (a b line : List Char) : line ∈ [a, b] ↔ line ∈ [b, a, b] := by grind
    refine ⟨by decide, .inr ⟨rfl, fun line => ?_⟩⟩
    rw [hlines, hlines']
    exact hsame _ _ line
  have hstrict : parseAs .strict evenAsText = .ok evenAs := rfl
  have hlenient : parseAs .lenient evenAsText = .ok (evenAs.inMode .lenient) := rfl
  refine ⟨⟨hswapped, ?_⟩, hrepeated, ?_⟩
  · obtain ⟨hread, hsame⟩ := parseAs_rearranged hswapped
    obtain ⟨d', h'⟩ := hread.mp ⟨_, hstrict⟩
    obtain ⟨-, e, he, he'⟩ := hsame _ _ hstrict h'
    obtain rfl : Dfa.evenAs = e := Option.some_inj.mp he
    exact ⟨d', h', he'⟩
  · obtain ⟨hread, hsame⟩ := parseAs_rearranged hrepeated
    obtain ⟨d', h'⟩ := hread.mp ⟨_, hlenient⟩
    exact ⟨d', h', (hsame _ _ hlenient h').1.symm⟩

end Description

end FiniteAutomata
