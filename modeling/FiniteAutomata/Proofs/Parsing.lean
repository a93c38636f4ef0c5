import FiniteAutomata.Proofs.Grammar
import Mathlib.Data.List.Nodup
import Mathlib.Data.List.Perm.Subperm
import Mathlib.Data.List.ProdSigma

/-!
# The reader accepts the grammar

Each reading step succeeds on the texts that the grammar allows in its place, with the value that the grammar gives
them. The check of a strict table, two counts and a search for conflicts, comes to the demand that each state
has exactly one transition for each symbol.
-/
namespace FiniteAutomata

open Text Numeral

section Answers

variable {ε α β : Type} {fault : ε}

theorem bind_eq_ok_iff {x : Except ε α} {f : α → Except ε β} {b : β} :
    x >>= f = .ok b ↔ ∃ a, x = .ok a ∧ f a = .ok b := by
  cases x with
  | error fault => simp [bind, Except.bind]
  | ok a => simp [bind, Except.bind]

theorem pure_eq_ok_iff {a b : α} : (pure a : Except ε α) = .ok b ↔ a = b := by
  simp [pure, Except.pure]

theorem mapM_eq_ok_iff {f : α → Except ε β} {l : List α} {l' : List β} :
    l.mapM f = .ok l' ↔ List.Forall₂ (fun a b => f a = .ok b) l l' := by
  induction l generalizing l' with
  | nil =>
    rw [List.mapM_nil, pure_eq_ok_iff, List.forall₂_nil_left_iff]
    exact eq_comm
  | cons a l ih =>
    simp only [List.mapM_cons, bind_eq_ok_iff, pure_eq_ok_iff, ih, List.forall₂_cons_left_iff]
    constructor
    · rintro ⟨b, hb, l', hl', rfl⟩
      exact ⟨b, l', hb, hl', rfl⟩
    · rintro ⟨b, l', hb, hl', rfl⟩
      exact ⟨b, hb, l', hl', rfl⟩

theorem bind_eq_error_iff {x : Except ε α} {f : α → Except ε β} :
    x >>= f = .error fault ↔ x = .error fault ∨ ∃ a, x = .ok a ∧ f a = .error fault := by
  cases x with
  | error fault' => simp [bind, Except.bind]
  | ok a => simp [bind, Except.bind]

theorem pure_ne_error {a : α} : (pure a : Except ε α) ≠ .error fault := by
  simp [pure, Except.pure]

theorem exists_of_mapM_eq_error {f : α → Except ε β} {l : List α} (h : l.mapM f = .error fault) :
    ∃ a ∈ l, f a = .error fault := by
  induction l with
  | nil => exact absurd h pure_ne_error
  | cons a l ih =>
    rw [List.mapM_cons, bind_eq_error_iff] at h
    obtain ha | ⟨b, -, h⟩ := h
    · exact ⟨a, List.mem_cons_self, ha⟩
    · obtain hl | ⟨_, -, h⟩ := bind_eq_error_iff.mp h
      · obtain ⟨a', ha', hfault⟩ := ih hl
        exact ⟨a', List.mem_cons_of_mem a ha', hfault⟩
      · exact absurd h pure_ne_error

end Answers

section Forall₂

variable {α β : Type} {R : α → β → Prop} {l : List α} {l' : List β}

theorem exists_of_forall₂_left (h : List.Forall₂ R l l') : ∀ a ∈ l, ∃ b ∈ l', R a b := by
  induction h with
  | nil => simp
  | cons hab _ ih => simpa using ⟨.inl hab, fun a ha => .inr (ih a ha)⟩

theorem exists_of_forall₂_right (h : List.Forall₂ R l l') : ∀ b ∈ l', ∃ a ∈ l, R a b :=
  exists_of_forall₂_left (R := fun b a => R a b) h.flip

theorem forall₂_and_right {p : β → Prop} :
    List.Forall₂ (fun a b => R a b ∧ p b) l l' ↔ List.Forall₂ R l l' ∧ ∀ b ∈ l', p b := by
  constructor
  · intro h
    induction h with
    | nil => simp
    | cons hab _ ih => exact ⟨.cons hab.1 ih.1, by simpa using ⟨hab.2, ih.2⟩⟩
  · rintro ⟨h, hp⟩
    induction h with
    | nil => exact .nil
    | cons hab _ ih =>
      rw [List.forall_mem_cons] at hp
      exact .cons ⟨hab, hp.1⟩ (ih hp.2)

end Forall₂

theorem Kind.ofTag_eq_ok_iff {line : List Char} {kind : Kind} :
    Kind.ofTag line = .ok kind ↔ kind.NamedBy line := by
  have hempty : trim line = [] ↔ String.ofList ((trim line).map Char.toUpper) = "" := by simp
  have htag : Kind.ofTag line = .ok kind ↔ (trim line = [] ∧ kind = .unspecified) ∨
      String.ofList ((trim line).map Char.toUpper) = kind.tag := by
    rw [hempty]
    simp only [Kind.ofTag]
    generalize String.ofList ((trim line).map Char.toUpper) = upper
    split <;> cases kind <;> simp_all [Kind.tag]
  rw [htag, trim_eq_nil_iff, NamedBy]
  have hword {tag : List Char} (h : String.ofList (tag.map Char.toUpper) = kind.tag) :
      IsWord tag := by
    apply isWord_of_map_toUpper
    rw [← String.toList_ofList (l := tag.map Char.toUpper), h]
    cases kind <;> decide
  refine or_congr_right ⟨fun h => ?_, fun ⟨tag, hwords, h⟩ => ?_⟩
  · have htokens := (trim_eq_word_iff (hword h)).mp rfl
    exact ⟨trim line, tokens_eq_iff.mp htokens, h⟩
  · rw [(trim_eq_word_iff (hword h)).mpr (tokens_eq_iff.mpr hwords), h]

namespace Description

variable {line n numStates : Nat} {content token : List Char} {c : Char} {mode : Mode}
  {header : Header}

theorem readNumber_eq_ok_iff {fault : ParseError} :
    readNumber fault token = .ok n ↔ IsNumeral token n := by
  rw [readNumber, ← read?_eq_some_iff]
  cases read? token <;> simp

theorem readCount_eq_ok_iff : readCount line content = .ok n ↔ IsNumberLine content n := by
  simp only [readCount, IsNumberLine, ← tokens_eq_iff]
  split
  · next token htokens => simp [htokens, readNumber_eq_ok_iff]
  · next hne => simpa using fun token htokens => absurd htokens (hne token)

theorem checkState_eq_ok_iff {state : Nat} {u : Unit} :
    checkState line numStates state = .ok u ↔ state < numStates := by
  simp [checkState]

theorem readStateCount_eq_ok_iff :
    readStateCount line content = .ok n ↔ IsNumberLine content n ∧ n ≤ 2 ^ 24 := by
  simp only [readStateCount, bind_eq_ok_iff, readCount_eq_ok_iff]
  constructor
  · rintro ⟨m, hm, h⟩
    split at h
    · cases h
    · next hle =>
      rw [pure_eq_ok_iff] at h
      subst h
      exact ⟨hm, Nat.not_lt.mp hle⟩
  · rintro ⟨hn, hle⟩
    have hmax : ¬ maxStates < n := Nat.not_lt.mpr hle
    exact ⟨n, hn, by rw [if_neg hmax, pure_eq_ok_iff]⟩

theorem readSymbol_eq_ok_iff : readSymbol line token = .ok c ↔ token = [c] := by
  unfold readSymbol
  split
  · simp
  · next hne => simpa using fun h => hne c h

theorem readAlphabetSymbol_eq_ok_iff : readAlphabetSymbol mode line token = .ok c ↔
    token = [c] ∧ (mode = .strict → c ≠ epsilonMark) := by
  simp only [readAlphabetSymbol, bind_eq_ok_iff, readSymbol_eq_ok_iff]
  constructor
  · rintro ⟨c', rfl, h⟩
    split at h
    · cases h
    · next hmark =>
      rw [pure_eq_ok_iff] at h
      subst h
      exact ⟨rfl, fun hstrict heq => hmark ⟨heq, hstrict⟩⟩
  · rintro ⟨rfl, h⟩
    exact ⟨c, rfl, by rw [if_neg fun hc => h hc.2 hc.1, pure_eq_ok_iff]⟩

theorem readAlphabet_eq_ok_iff {alphabet : Alphabet} :
    readAlphabet mode line content = .ok alphabet ↔ IsAlphabetLine mode content alphabet := by
  have hsymbols (cs : List Char) : (tokens content).mapM (readAlphabetSymbol mode line) = .ok cs ↔
      Words content (cs.map fun c => [c]) ∧ (mode = .strict → epsilonMark ∉ cs) := by
    simp only [mapM_eq_ok_iff, readAlphabetSymbol_eq_ok_iff, forall₂_and_right, ← tokens_eq_iff]
    rw [← List.forall₂_map_right_iff (f := fun c : Char => [c]), List.forall₂_eq_eq_eq]
    refine and_congr_right fun _ => ⟨fun h hstrict hmark => h _ hmark hstrict rfl, ?_⟩
    rintro h c hc hstrict rfl
    exact h hstrict hc
  simp only [readAlphabet, bind_eq_ok_iff, hsymbols, pure_eq_ok_iff, IsAlphabetLine, and_assoc]
  refine exists_congr fun cs => and_congr_right fun _ => and_congr_right fun _ => ?_
  constructor
  · rintro rfl c
    exact Alphabet.mem_ofChars
  · intro h
    exact Alphabet.ext_mem fun c => Alphabet.mem_ofChars.trans (h c).symm

theorem readState_eq_ok_iff :
    readState line numStates token = .ok n ↔ IsNumeral token n ∧ n < numStates := by
  simp only [readState, bind_eq_ok_iff, readNumber_eq_ok_iff, checkState_eq_ok_iff, pure_eq_ok_iff]
  constructor
  · rintro ⟨m, hm, -, hlt, rfl⟩
    exact ⟨hm, hlt⟩
  · rintro ⟨hn, hlt⟩
    exact ⟨n, hn, (), hlt, rfl⟩

theorem mapM_readState_eq_ok_iff {set : SortedSet Nat} :
    (∃ states, (tokens content).mapM (readState line numStates) = .ok states ∧
      SortedSet.ofList states = set) ↔ IsStatesLine numStates content set := by
  simp only [mapM_eq_ok_iff, readState_eq_ok_iff, forall₂_and_right, IsStatesLine,
    ← tokens_eq_iff]
  constructor
  · rintro ⟨states, ⟨hstates, hlt⟩, rfl⟩
    exact ⟨_, states, rfl, hstates, hlt, fun s => SortedSet.mem_ofList⟩
  · rintro ⟨_, states, rfl, hstates, hlt, hset⟩
    exact ⟨states, ⟨hstates, hlt⟩,
      SortedSet.ext fun s => SortedSet.mem_ofList.trans (hset s).symm⟩

theorem readHeader_eq_ok_iff {forced : Option Mode} {text : List Char} :
    readHeader forced (lines text) = .ok header ↔
      DescribesHeader text header ∧ header.mode = forced.getD header.kind.mode := by
  simp only [readHeader, bind_eq_ok_iff, pure_eq_ok_iff, Kind.ofTag_eq_ok_iff,
    readStateCount_eq_ok_iff, readAlphabet_eq_ok_iff, readCount_eq_ok_iff, checkState_eq_ok_iff,
    getD_lines]
  constructor
  · rintro ⟨kind, hkind, numStates, ⟨hnum, hle⟩, alphabet, halphabet, start, hstart, -, hlt,
      states, hstates, rfl⟩
    exact ⟨⟨hkind, hnum, hle, halphabet, hstart, hlt,
      mapM_readState_eq_ok_iff.mp ⟨states, hstates, rfl⟩⟩, rfl⟩
  · rintro ⟨h, hmode⟩
    obtain ⟨states, hstates, haccepting⟩ := mapM_readState_eq_ok_iff.mpr h.accepting
    refine ⟨_, h.kind, _, ⟨h.numStates, h.numStates_le⟩, header.alphabet, ?_, _, h.start, (),
      h.start_lt, states, hstates, ?_⟩
    · rw [← hmode]
      exact h.alphabet
    · rw [haccepting, ← hmode]

theorem readLabel_eq_ok_iff {label : Option Char} :
    readLabel header line c = .ok label ↔ Labels header.mode header.alphabet c label := by
  have hmark : epsilonMark ∉ header.alphabet := header.alphabet.epsilonMark_not_mem
  rw [readLabel, Labels]
  by_cases hc : c = epsilonMark
  · subst hc
    cases header.mode <;> simp [hmark, eq_comm]
  · by_cases hmem : c ∈ header.alphabet <;> simp [hc, hmem, eq_comm]

theorem readTransition_eq_ok_iff {t : Transition} : readTransition header line content = .ok t ↔
    IsTransitionLine header.mode header.numStates header.alphabet content t := by
  simp only [readTransition, IsTransitionLine, ← tokens_eq_iff]
  split
  · next first second third htokens =>
    simp only [bind_eq_ok_iff, readNumber_eq_ok_iff, readSymbol_eq_ok_iff, checkState_eq_ok_iff,
      readLabel_eq_ok_iff, pure_eq_ok_iff, htokens, List.cons.injEq, and_true]
    constructor
    · rintro ⟨source, hfirst, c, rfl, target, hthird, -, hsource, -, htarget, label, hlabel, rfl⟩
      exact ⟨_, c, _, ⟨rfl, rfl, rfl⟩, hfirst, hsource, hlabel, hthird, htarget⟩
    · rintro ⟨_, c, _, ⟨rfl, rfl, rfl⟩, hfirst, hsource, hlabel, hthird, htarget⟩
      exact ⟨_, hfirst, c, rfl, _, hthird, (), hsource, (), htarget, _, hlabel, rfl⟩
  · next hne =>
    simp only [reduceCtorEq, false_iff]
    rintro ⟨first, c, third, htokens, -⟩
    exact hne _ _ _ htokens

/-- A line says of at most one transition that it is that one. -/
theorem IsTransitionLine.unique {alphabet : Alphabet} {t t' : Transition}
    (h : IsTransitionLine mode numStates alphabet content t)
    (h' : IsTransitionLine mode numStates alphabet content t') : t = t' := by
  let header : Header := { kind := .unspecified, mode, numStates, alphabet, start := 0, accepting := ∅ }
  have hread : readTransition header 6 content = .ok t := readTransition_eq_ok_iff.mpr h
  have hread' : readTransition header 6 content = .ok t' := readTransition_eq_ok_iff.mpr h'
  rw [hread] at hread'
  exact Except.ok.inj hread'

theorem map_fst_transitionLines (text : List Char) :
    (transitionLines (lines text)).map (·.1) = laterLines text := by
  rw [← filter_drop_lines, transitionLines]
  generalize (lines text).drop 5 = rest
  conv_rhs => rw [← List.zipIdx_map_fst 6 rest, List.filter_map]
  rfl

/-- The numbers of the lines stand beside the transitions for the messages only. -/
theorem readTransitions_eq_ok_iff {text : List Char} {transitions : List Transition} :
    (∃ numbered, readTransitions header (lines text) = .ok numbered ∧
      numbered.map (·.2) = transitions) ↔
    List.Forall₂ (IsTransitionLine header.mode header.numStates header.alphabet)
      (laterLines text) transitions := by
  simp only [← map_fst_transitionLines, readTransitions, mapM_eq_ok_iff, bind_eq_ok_iff,
    readTransition_eq_ok_iff, pure_eq_ok_iff, List.forall₂_map_left_iff]
  constructor
  · rintro ⟨numbered, h, rfl⟩
    rw [List.forall₂_map_right_iff]
    refine h.imp ?_
    rintro l _ ⟨t, ht, rfl⟩
    exact ht
  · intro h
    generalize transitionLines (lines text) = numberedLines at h ⊢
    induction h with
    | nil => exact ⟨[], .nil, rfl⟩
    | @cons l t ls ts ht _ ih =>
      obtain ⟨numbered, hnumbered, rfl⟩ := ih
      exact ⟨(l.2, t) :: numbered, .cons ⟨t, ht, rfl⟩ hnumbered, rfl⟩

end Description

end FiniteAutomata
