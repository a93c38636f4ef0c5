import FiniteAutomata.Proofs.Decisions

/-!
# The laws of the regular operations

The answers of an automaton that a regular operation has built follow from the answers of its operands. A union accepts
a word if one of them does, a concatenation if the word is cut into a word of the first and a word of the second, and a
star or a plus if it is cut into words of its operand, for a plus at least one. The operands may have different alphabets.
The laws are proved once for everything that recognizes a language (`Recognizes`) and then hold of both kinds of automata.
-/
namespace FiniteAutomata

open Computability

/-- A word of a positive closure is one or more words of the language in a row. -/
theorem mem_mul_kstar_iff {L : Language Char} {w : Word} :
    w ∈ L * L∗ ↔ ∃ words : List Word, words ≠ [] ∧ w = words.flatten ∧ ∀ v ∈ words, v ∈ L := by
  rw [Language.mem_mul]
  constructor
  · rintro ⟨u, hu, v, hv, rfl⟩
    obtain ⟨words, rfl, hwords⟩ := Language.mem_kstar.mp hv
    exact ⟨u :: words, by simp, rfl, List.forall_mem_cons.mpr ⟨hu, hwords⟩⟩
  · rintro ⟨words, hne, rfl, hwords⟩
    obtain ⟨u, rest, rfl⟩ := List.exists_cons_of_ne_nil hne
    rw [List.forall_mem_cons] at hwords
    exact ⟨u, hwords.1, rest.flatten, Language.join_mem_kstar hwords.2, rfl⟩

theorem nil_mem_mul_kstar_iff {L : Language Char} : [] ∈ L * L∗ ↔ [] ∈ L := by
  rw [Language.mem_mul]
  constructor
  · rintro ⟨u, hu, v, -, happend⟩
    obtain ⟨rfl, -⟩ := List.append_eq_nil_iff.mp happend
    exact hu
  · intro hnil
    exact ⟨[], hnil, [], Language.nil_mem_kstar L, rfl⟩

/-- Every word is answered, with yes exactly if it is in the language. -/
def Recognizes (ask : Word → Option Bool) (L : Language Char) : Prop :=
  ∀ w, ∃ answer, ask w = some answer ∧ (answer = true ↔ w ∈ L)

theorem Nfa.WellFormed.recognizes {n : Nfa} {L : Language Char} (h : n.WellFormed)
    (hlang : n.language = L) : Recognizes n.simulate? L := hlang ▸ h.simulate?_eq

theorem Dfa.WellFormed.recognizes {d : Dfa} {L : Language Char} (h : d.WellFormed)
    (hlang : d.language = L) : Recognizes d.recognize? L := hlang ▸ h.recognize?_eq

namespace Recognizes

variable {first second whole : Word → Option Bool} {K L : Language Char}

theorem eq_some_true_iff (h : Recognizes first K) {w : Word} : first w = some true ↔ w ∈ K := by
  obtain ⟨answer, hanswer, hiff⟩ := h w
  rw [hanswer, Option.some_inj, hiff]

/-- A language determines all answers. -/
theorem answer_unique (hfirst : Recognizes first K) (hsecond : Recognizes second K) (w : Word) :
    first w = second w := by
  obtain ⟨x, hx, hxiff⟩ := hfirst w
  obtain ⟨y, hy, hyiff⟩ := hsecond w
  have heq : x = y := by rw [Bool.eq_iff_iff, hxiff, hyiff]
  rw [hx, hy, heq]

theorem union_answer (hfirst : Recognizes first K) (hsecond : Recognizes second L)
    (hwhole : Recognizes whole (K + L)) (w : Word) :
    ∃ x y, first w = some x ∧ second w = some y ∧ whole w = some (x || y) := by
  obtain ⟨x, hx, hxiff⟩ := hfirst w
  obtain ⟨y, hy, hyiff⟩ := hsecond w
  obtain ⟨answer, hanswer, hiff⟩ := hwhole w
  have heq : answer = (x || y) := by
    rw [Bool.eq_iff_iff, hiff, Language.mem_add, Bool.or_eq_true, hxiff, hyiff]
  exact ⟨x, y, hx, hy, heq ▸ hanswer⟩

theorem concat_answer (hfirst : Recognizes first K) (hsecond : Recognizes second L)
    (hwhole : Recognizes whole (K * L)) (w : Word) :
    ∃ answer, whole w = some answer ∧
      (answer = true ↔ ∃ u v, w = u ++ v ∧ first u = some true ∧ second v = some true) := by
  obtain ⟨answer, hanswer, hiff⟩ := hwhole w
  refine ⟨answer, hanswer, ?_⟩
  rw [hiff, Language.mem_mul]
  constructor
  · rintro ⟨u, hu, v, hv, rfl⟩
    exact ⟨u, v, rfl, hfirst.eq_some_true_iff.mpr hu, hsecond.eq_some_true_iff.mpr hv⟩
  · rintro ⟨u, v, rfl, hu, hv⟩
    exact ⟨u, hfirst.eq_some_true_iff.mp hu, v, hsecond.eq_some_true_iff.mp hv, rfl⟩

theorem forall_mem_iff (h : Recognizes first K) {words : List Word} :
    (∀ v ∈ words, v ∈ K) ↔ ∀ v ∈ words, first v = some true :=
  forall₂_congr fun _ _ => h.eq_some_true_iff.symm

theorem star_answer (hfirst : Recognizes first K) (hwhole : Recognizes whole (K∗)) (w : Word) :
    ∃ answer, whole w = some answer ∧
      (answer = true ↔ ∃ words : List Word, w = words.flatten ∧
        ∀ v ∈ words, first v = some true) := by
  obtain ⟨answer, hanswer, hiff⟩ := hwhole w
  refine ⟨answer, hanswer, ?_⟩
  rw [hiff, Language.mem_kstar]
  exact exists_congr fun words => and_congr_right fun _ => hfirst.forall_mem_iff

theorem plus_answer (hfirst : Recognizes first K) (hwhole : Recognizes whole (K * K∗)) (w : Word) :
    ∃ answer, whole w = some answer ∧
      (answer = true ↔ ∃ words : List Word, words ≠ [] ∧ w = words.flatten ∧
        ∀ v ∈ words, first v = some true) := by
  obtain ⟨answer, hanswer, hiff⟩ := hwhole w
  refine ⟨answer, hanswer, ?_⟩
  rw [hiff, mem_mul_kstar_iff]
  exact exists_congr fun words => and_congr_right fun _ => and_congr_right fun _ => hfirst.forall_mem_iff

theorem plus_answer_nil (hfirst : Recognizes first K) (hwhole : Recognizes whole (K * K∗)) :
    ∃ answer, whole [] = some answer ∧ first [] = some answer := by
  obtain ⟨answer, hanswer, hiff⟩ := hwhole []
  obtain ⟨answer', hanswer', hiff'⟩ := hfirst []
  have heq : answer = answer' := by rw [Bool.eq_iff_iff, hiff, hiff', nil_mem_mul_kstar_iff]
  exact ⟨answer, hanswer, heq ▸ hanswer'⟩

end Recognizes

/-- Reading a table as a nondeterministic automaton changes no answer. -/
theorem Dfa.WellFormed.simulate?_toNfa {d : Dfa} (h : d.WellFormed) (w : Word) :
    d.toNfa.simulate? w = d.recognize? w := by
  have hlifted := h.toNfa.recognizes (language_toNfa d)
  exact hlifted.answer_unique (h.recognizes rfl) w

/-- A table over `b` for the words with an odd number of symbols. Its start is state 1. -/
def Description.oddBs : Description where
  kind := .dfa
  mode := .strict
  numStates := 2
  alphabet := Alphabet.ofChars ['b']
  start := 1
  accepting := SortedSet.ofList [0]
  transitions := [⟨0, some 'b', 1⟩, ⟨1, some 'b', 0⟩]

theorem Description.parsed_oddBs : oddBs.Parsed :=
  .inl ⟨"DFA\n2\nb\n1\n0\n0 b 1\n1 b 0\n", rfl⟩

def Dfa.oddBs : Dfa := .ofTable Description.oddBs.toHeader Description.oddBs.transitions

theorem Dfa.constructible_oddBs : oddBs.Constructible := .ofDescription Description.parsed_oddBs rfl

/-- Every word over `a` and `b` that ends in `b` is accepted. -/
theorem Nfa.simulate?_endsInB {w : Word} (h : ∀ c ∈ w, c = 'a' ∨ c = 'b') :
    (ofDescription .endsInB).simulate? (w ++ ['b']) = some true := by
  have hloop (c : Char) (hc : c = 'a' ∨ c = 'b') : (ofDescription .endsInB).Moves 0 (some c) 0 := by
    unfold Moves
    rcases hc with rfl | rfl <;> decide
  have hlast : (ofDescription .endsInB).Moves 0 (some 'b') 1 := by
    unfold Moves
    decide
  have hrun : Run (ofDescription .endsInB).Moves 0 w 0 := by
    induction w with
    | nil => exact .refl 0
    | cons c w ih =>
      rw [List.forall_mem_cons] at h
      exact .read (hloop c h.1) (ih h.2)
  apply (constructible_endsInB.wellFormed.recognizes rfl).eq_some_true_iff.mpr
  exact ⟨1, by decide, hrun.append (.read hlast (.refl 1))⟩

theorem Nfa.simulate?_endsInB_pair : ∀ v ∈ [['a', 'b'], ['b']],
    (ofDescription .endsInB).simulate? v = some true := by
  intro v hv
  rcases List.mem_pair.mp hv with rfl | rfl
  · exact simulate?_endsInB (by simp : ∀ c ∈ ['a'], c = 'a' ∨ c = 'b')
  · exact simulate?_endsInB (by simp : ∀ c ∈ [], c = 'a' ∨ c = 'b')

/-- A union accepts the words that one of its operands accepts. -/
theorem accepts_union_eq :
    (∀ a b : Nfa, a.Constructible → b.Constructible → ∀ w, ∃ x y,
      a.simulate? w = some x ∧ b.simulate? w = some y ∧
        (a.union b).simulate? w = some (x || y)) ∧
    ∀ a b : Dfa, a.Constructible → b.Constructible → ∃ c, a.union? b = some c ∧ ∀ w, ∃ x y,
      a.recognize? w = some x ∧ b.recognize? w = some y ∧ c.recognize? w = some (x || y) := by
  constructor
  · intro a b ha hb
    have hwhole := (ha.wellFormed.union hb.wellFormed).recognizes
      (Nfa.language_union ha.wellFormed hb.wellFormed)
    exact (ha.wellFormed.recognizes rfl).union_answer (hb.wellFormed.recognizes rfl) hwhole
  · intro a b ha hb
    obtain ⟨c, hc, hwf, hlang⟩ := ha.wellFormed.exists_union? hb.wellFormed
    have hwhole := hwf.recognizes hlang
    exact ⟨c, hc, (ha.wellFormed.recognizes rfl).union_answer (hb.wellFormed.recognizes rfl) hwhole⟩

theorem accepts_union_evenAs_oddBs :
    ((Nfa.ofDescription .endsInB).union Dfa.evenAs.toNfa).simulate? ['a', 'a'] = some true ∧
    ∃ c, Dfa.evenAs.union? Dfa.oddBs = some c ∧ c.recognize? ['b'] = some true ∧
      c.recognize? ['a', 'b'] = some false := by
  constructor
  · obtain ⟨x, y, -, hy, hwhole⟩ := accepts_union_eq.1 (Nfa.ofDescription .endsInB) Dfa.evenAs.toNfa
      Nfa.constructible_endsInB (.toNfa Dfa.constructible_evenAs) ['a', 'a']
    rw [Dfa.constructible_evenAs.wellFormed.simulate?_toNfa] at hy
    obtain rfl : true = y := Option.some_inj.mp hy
    rw [hwhole, Bool.or_true]
  · obtain ⟨c, hc, hanswer⟩ := accepts_union_eq.2 Dfa.evenAs Dfa.oddBs
      Dfa.constructible_evenAs Dfa.constructible_oddBs
    refine ⟨c, hc, ?_, ?_⟩
    · obtain ⟨x, y, hx, hy, hwhole⟩ := hanswer ['b']
      obtain rfl : false = x := Option.some_inj.mp hx
      obtain rfl : true = y := Option.some_inj.mp hy
      exact hwhole
    · obtain ⟨x, y, hx, hy, hwhole⟩ := hanswer ['a', 'b']
      obtain rfl : false = x := Option.some_inj.mp hx
      obtain rfl : false = y := Option.some_inj.mp hy
      exact hwhole

/-- A concatenation accepts the words that are a word of the first operand with a word of the second behind it. -/
theorem accepts_concat_iff :
    (∀ a b : Nfa, a.Constructible → b.Constructible → ∀ w, ∃ answer,
      (a.concat b).simulate? w = some answer ∧
        (answer = true ↔
          ∃ u v, w = u ++ v ∧ a.simulate? u = some true ∧ b.simulate? v = some true)) ∧
    ∀ a b : Dfa, a.Constructible → b.Constructible → ∃ c, a.concat? b = some c ∧ ∀ w, ∃ answer,
      c.recognize? w = some answer ∧
        (answer = true ↔
          ∃ u v, w = u ++ v ∧ a.recognize? u = some true ∧ b.recognize? v = some true) := by
  constructor
  · intro a b ha hb
    have hwhole := (ha.wellFormed.concat hb.wellFormed).recognizes
      (Nfa.language_concat ha.wellFormed hb.wellFormed)
    exact (ha.wellFormed.recognizes rfl).concat_answer (hb.wellFormed.recognizes rfl) hwhole
  · intro a b ha hb
    obtain ⟨c, hc, hwf, hlang⟩ := ha.wellFormed.exists_concat? hb.wellFormed
    have hwhole := hwf.recognizes hlang
    exact ⟨c, hc, (ha.wellFormed.recognizes rfl).concat_answer (hb.wellFormed.recognizes rfl) hwhole⟩

theorem accepts_concat_evenAs_oddBs :
    ((Nfa.ofDescription .endsInB).concat Dfa.oddBs.toNfa).simulate? ['a', 'b', 'b'] = some true ∧
    ∃ c, Dfa.evenAs.concat? Dfa.oddBs = some c ∧ c.recognize? ['a', 'a', 'b'] = some true := by
  constructor
  · obtain ⟨answer, hanswer, hiff⟩ := accepts_concat_iff.1 (Nfa.ofDescription .endsInB)
      Dfa.oddBs.toNfa Nfa.constructible_endsInB (.toNfa Dfa.constructible_oddBs) ['a', 'b', 'b']
    have hfirst : (Nfa.ofDescription .endsInB).simulate? ['a', 'b'] = some true :=
      Nfa.simulate?_endsInB (by simp : ∀ c ∈ ['a'], c = 'a' ∨ c = 'b')
    have hsecond := Dfa.constructible_oddBs.wellFormed.simulate?_toNfa ['b']
    obtain rfl := hiff.mpr ⟨['a', 'b'], ['b'], rfl, hfirst, hsecond.trans rfl⟩
    exact hanswer
  · obtain ⟨c, hc, hanswers⟩ := accepts_concat_iff.2 Dfa.evenAs Dfa.oddBs
      Dfa.constructible_evenAs Dfa.constructible_oddBs
    obtain ⟨answer, hanswer, hiff⟩ := hanswers ['a', 'a', 'b']
    obtain rfl := hiff.mpr ⟨['a', 'a'], ['b'], rfl, rfl, rfl⟩
    exact ⟨c, hc, hanswer⟩

/-- A star accepts the words that are any number of words of its operand in a row. -/
theorem accepts_star_iff :
    (∀ a : Nfa, a.Constructible → ∀ w, ∃ answer, a.star.simulate? w = some answer ∧
      (answer = true ↔ ∃ words : List Word, w = words.flatten ∧
        ∀ v ∈ words, a.simulate? v = some true)) ∧
    ∀ a : Dfa, a.Constructible → ∃ c, a.star? = some c ∧ ∀ w, ∃ answer,
      c.recognize? w = some answer ∧
        (answer = true ↔ ∃ words : List Word, w = words.flatten ∧
          ∀ v ∈ words, a.recognize? v = some true) := by
  constructor
  · intro a ha
    have hwhole := ha.wellFormed.star.recognizes (Nfa.language_star ha.wellFormed)
    exact (ha.wellFormed.recognizes rfl).star_answer hwhole
  · intro a ha
    obtain ⟨c, hc, hwf, hlang⟩ := ha.wellFormed.exists_star?
    have hwhole := hwf.recognizes hlang
    exact ⟨c, hc, (ha.wellFormed.recognizes rfl).star_answer hwhole⟩

theorem accepts_star_endsInB_oddBs :
    (Nfa.ofDescription .endsInB).star.simulate? ['a', 'b', 'b'] = some true ∧
    ∃ c, Dfa.oddBs.star? = some c ∧ c.recognize? [] = some true ∧
      c.recognize? ['b', 'b'] = some true := by
  constructor
  · obtain ⟨answer, hanswer, hiff⟩ := accepts_star_iff.1 (Nfa.ofDescription .endsInB)
      Nfa.constructible_endsInB ['a', 'b', 'b']
    obtain rfl := hiff.mpr ⟨[['a', 'b'], ['b']], rfl, Nfa.simulate?_endsInB_pair⟩
    exact hanswer
  · obtain ⟨c, hc, hanswers⟩ := accepts_star_iff.2 Dfa.oddBs Dfa.constructible_oddBs
    obtain ⟨empty, hempty, hiffEmpty⟩ := hanswers []
    obtain ⟨answer, hanswer, hiff⟩ := hanswers ['b', 'b']
    obtain rfl := hiffEmpty.mpr ⟨[], rfl, by simp⟩
    obtain rfl := hiff.mpr ⟨[['b'], ['b']], rfl, by decide⟩
    exact ⟨c, hc, hempty, hanswer⟩

/-- A plus accepts the words that are one or more words of its operand in a row, so it answers as its operand for the
empty word. Determinizing a star before the operand is put in front of it changes no answer. -/
theorem accepts_plus_iff :
    (∀ a : Nfa, a.Constructible →
      (∀ w, ∃ answer, a.plus.simulate? w = some answer ∧
        (answer = true ↔ ∃ words : List Word, words ≠ [] ∧ w = words.flatten ∧
          ∀ v ∈ words, a.simulate? v = some true)) ∧
      ∃ answer, a.plus.simulate? [] = some answer ∧ a.simulate? [] = some answer) ∧
    ∀ a : Dfa, a.Constructible → ∃ plus star product, a.plus? = some plus ∧ a.star? = some star ∧
      a.concat? star = some product ∧ ∀ w, ∃ answer,
        plus.recognize? w = some answer ∧ product.recognize? w = some answer ∧
          (answer = true ↔ ∃ words : List Word, words ≠ [] ∧ w = words.flatten ∧
            ∀ v ∈ words, a.recognize? v = some true) := by
  constructor
  · intro a ha
    have hoperand := ha.wellFormed.recognizes rfl
    have hwhole := ha.wellFormed.plus.recognizes (Nfa.language_plus ha.wellFormed)
    exact ⟨hoperand.plus_answer hwhole, hoperand.plus_answer_nil hwhole⟩
  · intro a ha
    have hoperand := ha.wellFormed.recognizes rfl
    obtain ⟨plus, hplus, hwfplus, hlangplus⟩ := ha.wellFormed.exists_plus?
    obtain ⟨star, hstar, hwfstar, hlangstar⟩ := ha.wellFormed.exists_star?
    obtain ⟨product, hproduct, hwfproduct, hlangproduct⟩ := ha.wellFormed.exists_concat? hwfstar
    rw [hlangstar] at hlangproduct
    refine ⟨plus, star, product, hplus, hstar, hproduct, fun w => ?_⟩
    have hsame := (hwfplus.recognizes hlangplus).answer_unique (hwfproduct.recognizes hlangproduct) w
    obtain ⟨answer, hanswer, hiff⟩ := hoperand.plus_answer (hwfplus.recognizes hlangplus) w
    exact ⟨answer, hanswer, hsame ▸ hanswer, hiff⟩

theorem accepts_plus_endsInB_oddBs :
    (Nfa.ofDescription .endsInB).plus.simulate? ['a', 'b', 'b'] = some true ∧
    ∃ plus star product, Dfa.oddBs.plus? = some plus ∧ Dfa.oddBs.star? = some star ∧
      Dfa.oddBs.concat? star = some product ∧ plus.recognize? ['b', 'b'] = some true ∧
        product.recognize? ['b', 'b'] = some true := by
  constructor
  · obtain ⟨answer, hanswer, hiff⟩ := (accepts_plus_iff.1 (Nfa.ofDescription .endsInB)
      Nfa.constructible_endsInB).1 ['a', 'b', 'b']
    obtain rfl := hiff.mpr ⟨[['a', 'b'], ['b']], by simp, rfl, Nfa.simulate?_endsInB_pair⟩
    exact hanswer
  · obtain ⟨plus, star, product, hplus, hstar, hproduct, hanswers⟩ :=
      accepts_plus_iff.2 Dfa.oddBs Dfa.constructible_oddBs
    obtain ⟨answer, hanswer, hanswer', hiff⟩ := hanswers ['b', 'b']
    obtain rfl := hiff.mpr ⟨[['b'], ['b']], by simp, rfl, by decide⟩
    exact ⟨plus, star, product, hplus, hstar, hproduct, hanswer, hanswer'⟩

end FiniteAutomata
