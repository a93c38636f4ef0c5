import FiniteAutomata.Dfa.Operations
import FiniteAutomata.Proofs.Descriptions
import FiniteAutomata.Proofs.RegularOperations

/-!
# The automata that can be built

Automata come from texts, from each other by lifting and determinizing, and from the regular operations, in any
nesting. All of them are well-formed, so that what is proved of well-formed automata holds of each automaton
that a program can have. In particular determinizing never changes an answer. No operation brings in a symbol, so
what the texts guarantee of their symbols holds of all alphabets: none has a blank (`Dfa.Constructible.not_isBlank`).
-/
namespace FiniteAutomata

open Computability

mutual

/-- The nondeterministic automata that can be built. -/
inductive Nfa.Constructible : Nfa → Prop
  | ofDescription {d : Description} (h : d.Parsed) : Nfa.Constructible (Nfa.ofDescription d)
  | toNfa {d : Dfa} (h : Dfa.Constructible d) : Nfa.Constructible d.toNfa
  | union {a b : Nfa} (ha : Nfa.Constructible a) (hb : Nfa.Constructible b) :
      Nfa.Constructible (a.union b)
  | concat {a b : Nfa} (ha : Nfa.Constructible a) (hb : Nfa.Constructible b) :
      Nfa.Constructible (a.concat b)
  | star {a : Nfa} (ha : Nfa.Constructible a) : Nfa.Constructible a.star
  | plus {a : Nfa} (ha : Nfa.Constructible a) : Nfa.Constructible a.plus

/-- The deterministic automata that can be built. -/
inductive Dfa.Constructible : Dfa → Prop
  | ofDescription {d : Description} {e : Dfa} (h : d.Parsed) (he : Dfa.ofDescription? d = some e) :
      Dfa.Constructible e
  | determinize {n : Nfa} {e : Dfa} (h : Nfa.Constructible n) (he : n.determinize? = some e) :
      Dfa.Constructible e
  | union {a b e : Dfa} (ha : Dfa.Constructible a) (hb : Dfa.Constructible b)
      (he : a.union? b = some e) : Dfa.Constructible e
  | concat {a b e : Dfa} (ha : Dfa.Constructible a) (hb : Dfa.Constructible b)
      (he : a.concat? b = some e) : Dfa.Constructible e
  | star {a e : Dfa} (ha : Dfa.Constructible a) (he : a.star? = some e) : Dfa.Constructible e
  | plus {a e : Dfa} (ha : Dfa.Constructible a) (he : a.plus? = some e) : Dfa.Constructible e

end

theorem Nfa.WellFormed.of_determinize? {n : Nfa} {d : Dfa} (hn : n.WellFormed)
    (h : n.determinize? = some d) : d.WellFormed := by
  obtain ⟨e, he, hwf, -⟩ := hn.exists_determinize?
  rw [h, Option.some_inj] at he
  exact he ▸ hwf

theorem Description.WellFormed.of_ofDescription? {d : Description} {e : Dfa} (hd : d.WellFormed)
    (h : Dfa.ofDescription? d = some e) : e.WellFormed := by
  obtain ⟨e', he', hwf, -⟩ := Dfa.exists_ofDescription? hd
  rw [h, Option.some_inj] at he'
  exact he' ▸ hwf

namespace Dfa.WellFormed

variable {a b : Dfa}

theorem exists_union? (ha : a.WellFormed) (hb : b.WellFormed) :
    ∃ d, a.union? b = some d ∧ d.WellFormed ∧ d.language = a.language + b.language := by
  obtain ⟨d, hd, hwf, -, hlang⟩ := (ha.toNfa.union hb.toNfa).exists_determinize?
  refine ⟨d, hd, hwf, ?_⟩
  rw [hlang, Nfa.language_union ha.toNfa hb.toNfa, language_toNfa, language_toNfa]

theorem exists_concat? (ha : a.WellFormed) (hb : b.WellFormed) :
    ∃ d, a.concat? b = some d ∧ d.WellFormed ∧ d.language = a.language * b.language := by
  obtain ⟨d, hd, hwf, -, hlang⟩ := (ha.toNfa.concat hb.toNfa).exists_determinize?
  refine ⟨d, hd, hwf, ?_⟩
  rw [hlang, Nfa.language_concat ha.toNfa hb.toNfa, language_toNfa, language_toNfa]

theorem exists_star? (ha : a.WellFormed) :
    ∃ d, a.star? = some d ∧ d.WellFormed ∧ d.language = a.language∗ := by
  obtain ⟨d, hd, hwf, -, hlang⟩ := ha.toNfa.star.exists_determinize?
  refine ⟨d, hd, hwf, ?_⟩
  rw [hlang, Nfa.language_star ha.toNfa, language_toNfa]

theorem exists_plus? (ha : a.WellFormed) :
    ∃ d, a.plus? = some d ∧ d.WellFormed ∧ d.language = a.language * a.language∗ := by
  obtain ⟨d, hd, hwf, -, hlang⟩ := ha.toNfa.plus.exists_determinize?
  refine ⟨d, hd, hwf, ?_⟩
  rw [hlang, Nfa.language_plus ha.toNfa, language_toNfa]

end Dfa.WellFormed

mutual

theorem Nfa.Constructible.wellFormed : ∀ {n : Nfa}, n.Constructible → n.WellFormed
  | _, .ofDescription h => Nfa.wellFormed_ofDescription h.wellFormed
  | _, .toNfa h => h.wellFormed.toNfa
  | _, .union ha hb => ha.wellFormed.union hb.wellFormed
  | _, .concat ha hb => ha.wellFormed.concat hb.wellFormed
  | _, .star ha => ha.wellFormed.star
  | _, .plus ha => ha.wellFormed.plus

theorem Dfa.Constructible.wellFormed : ∀ {d : Dfa}, d.Constructible → d.WellFormed
  | _, .ofDescription h he => h.wellFormed.of_ofDescription? he
  | _, .determinize h he => h.wellFormed.of_determinize? he
  | _, .union ha hb he => (ha.wellFormed.toNfa.union hb.wellFormed.toNfa).of_determinize? he
  | _, .concat ha hb he => (ha.wellFormed.toNfa.concat hb.wellFormed.toNfa).of_determinize? he
  | _, .star ha he => ha.wellFormed.toNfa.star.of_determinize? he
  | _, .plus ha he => ha.wellFormed.toNfa.plus.of_determinize? he

end

section Alphabets

variable {P : Alphabet → Prop} (hparsed : ∀ d : Description, d.Parsed → P d.alphabet)
  (hunion : ∀ a b, P a → P b → P (a.union b))
include hparsed hunion

mutual

/-- What holds of the alphabets of descriptions and passes to unions holds of the alphabets of all automata that can
be built. -/
theorem Nfa.Constructible.alphabet_induction : ∀ {n : Nfa}, n.Constructible → P n.alphabet
  | _, .ofDescription h => by
    rw [Nfa.alphabet_ofDescription]
    exact hparsed _ h
  | _, .toNfa h => by
    rw [Dfa.alphabet_toNfa]
    exact h.alphabet_induction
  | _, .union ha hb => by
    rw [Nfa.alphabet_union]
    exact hunion _ _ ha.alphabet_induction hb.alphabet_induction
  | _, .concat ha hb => by
    rw [Nfa.alphabet_concat]
    exact hunion _ _ ha.alphabet_induction hb.alphabet_induction
  | _, .star ha => by
    rw [Nfa.alphabet_star]
    exact ha.alphabet_induction
  | _, .plus ha => by
    rw [Nfa.alphabet_plus]
    exact hunion _ _ ha.alphabet_induction ha.alphabet_induction

theorem Dfa.Constructible.alphabet_induction : ∀ {d : Dfa}, d.Constructible → P d.alphabet
  | _, .ofDescription h he => by
    rw [Dfa.alphabet_of_ofDescription? he]
    exact hparsed _ h
  | _, .determinize h he => by
    rw [Nfa.alphabet_of_determinize? he]
    exact h.alphabet_induction
  | _, .union ha hb he => by
    rw [Nfa.alphabet_of_determinize? he, Nfa.alphabet_union, Dfa.alphabet_toNfa, Dfa.alphabet_toNfa]
    exact hunion _ _ ha.alphabet_induction hb.alphabet_induction
  | _, .concat ha hb he => by
    rw [Nfa.alphabet_of_determinize? he, Nfa.alphabet_concat, Dfa.alphabet_toNfa, Dfa.alphabet_toNfa]
    exact hunion _ _ ha.alphabet_induction hb.alphabet_induction
  | _, .star ha he => by
    rw [Nfa.alphabet_of_determinize? he, Nfa.alphabet_star, Dfa.alphabet_toNfa]
    exact ha.alphabet_induction
  | _, .plus ha he => by
    rw [Nfa.alphabet_of_determinize? he, Nfa.alphabet_plus, Dfa.alphabet_toNfa]
    exact hunion _ _ ha.alphabet_induction ha.alphabet_induction

end

end Alphabets

theorem Dfa.Constructible.not_isBlank {d : Dfa} (h : d.Constructible) : ∀ c ∈ d.alphabet, Text.isBlank c = false := by
  refine h.alphabet_induction (P := fun a => ∀ c ∈ a, Text.isBlank c = false) (fun d hd => hd.not_isBlank) ?_
  intro a b ha hb c hc
  rcases Alphabet.mem_union.mp hc with hc | hc
  · exact ha c hc
  · exact hb c hc

/-- Determinizing an automaton succeeds, and for every word, of symbols or not, the deterministic automaton
gives the answer that simulating the original gives. -/
theorem Nfa.Constructible.recognize?_determinize? {n : Nfa} (h : n.Constructible) :
    ∃ d, n.determinize? = some d ∧
      ∀ w, ∃ answer, d.recognize? w = some answer ∧ n.simulate? w = some answer := by
  obtain ⟨d, hd, hwf, -, hlang⟩ := h.wellFormed.exists_determinize?
  refine ⟨d, hd, fun w => ?_⟩
  obtain ⟨answer, hanswer, hiff⟩ := hwf.recognize?_eq w
  obtain ⟨answer', hanswer', hiff'⟩ := h.wellFormed.simulate?_eq w
  have heq : answer = answer' := by
    rw [Bool.eq_iff_iff, hiff, hiff', hlang]
  exact ⟨answer, hanswer, heq ▸ hanswer'⟩

/-- An automaton for the words over `a` and `b` that end in `b`, with an epsilon move. -/
def Description.endsInB : Description where
  kind := .nfa
  mode := .lenient
  numStates := 2
  alphabet := Alphabet.ofChars ['a', 'b']
  start := 0
  accepting := SortedSet.ofList [1]
  transitions := [⟨0, some 'a', 0⟩, ⟨0, some 'b', 0⟩, ⟨0, some 'b', 1⟩, ⟨1, none, 0⟩]

theorem Description.parsed_endsInB : endsInB.Parsed :=
  .inl ⟨"NFA\n2\na b\n0\n1\n0 a 0\n0 b 0\n0 b 1\n1 ~ 0\n", rfl⟩

theorem Nfa.constructible_endsInB : (ofDescription .endsInB).Constructible :=
  .ofDescription Description.parsed_endsInB

theorem Nfa.recognize?_determinize?_star_endsInB :
    (Nfa.ofDescription .endsInB).star.Constructible ∧
      ∃ d, (Nfa.ofDescription .endsInB).star.determinize? = some d ∧
        ∀ w, ∃ answer, d.recognize? w = some answer ∧
          (Nfa.ofDescription .endsInB).star.simulate? w = some answer :=
  have h : (Nfa.ofDescription .endsInB).star.Constructible :=
    .star (.ofDescription Description.parsed_endsInB)
  ⟨h, Nfa.Constructible.recognize?_determinize? h⟩

end FiniteAutomata
