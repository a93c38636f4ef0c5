import FiniteAutomata.Proofs.Conflicts

/-!
# Which fault is reported

Of all that is wrong with a text, reading it reports what the reader comes upon first. This is the first line that is out
of order given the lines before it, and what stands behind it makes no difference; if every line is in order, the first
line of a strict table that has a conflict; and if there is none, that the table is incomplete
(`Description.outcome_ofLines`).
-/
namespace FiniteAutomata

open Text

namespace Description

variable {forced : Option Mode} {text : List Char} {header : Header} {result : Except ParseError Description}
  {number source first second : Nat} {c : Char}

theorem FirstFault.unique {number' : Nat} (h : FirstFault forced text number)
    (h' : FirstFault forced text number') : number = number' := by
  by_contra hne
  rcases Nat.lt_or_gt_of_ne hne with hlt | hlt
  · obtain ⟨header, hbefore⟩ := h'.before
    exact h.line ⟨header, hbefore number hlt⟩
  · obtain ⟨header, hbefore⟩ := h.before
    exact h'.line ⟨header, hbefore number' hlt⟩

/-- What reading a text comes to. -/
inductive Outcome (forced : Option Mode) (text : List Char) : Except ParseError Description → Prop
  | faulty {number : Nat} {fault : ParseError} (hfault : fault.faultyLine? = some number)
      (hfirst : FirstFault forced text number) (hread : readTo forced text number = .error fault) :
      Outcome forced text (.error fault)
  | conflict {header : Header} {number source first second : Nat} {c : Char} (horder : InOrder forced text header)
      (hmode : header.mode = .strict) (hfirst : FirstConflict text header number source c first second) :
      Outcome forced text (.error (.conflictingTransition number source c first second))
  | incomplete {header : Header} (horder : InOrder forced text header) (hmode : header.mode = .strict)
      (hnone : ∀ number, ¬ ConflictAt text header number) :
      Outcome forced text (.error (.incompleteTable header.numStates header.alphabet.size
        (header.numStates * header.alphabet.size) (laterLines text).length))
  | description {d : Description} (horder : InOrder forced text d.toHeader)
      (hnone : d.mode = .strict → ∀ number, ¬ ConflictAt text d.toHeader number) : Outcome forced text (.ok d)

theorem outcome_ofLines (forced : Option Mode) (text : List Char) :
    Outcome forced text (ofLines forced (lines text)) := by
  have hlast : 5 ≤ (lines text).length + 5 := by omega
  have hlength : (lines text).length ≤ (lines text).length + 5 := by omega
  cases hread : readTo forced text ((lines text).length + 5) with
  | error fault =>
    obtain ⟨number, hfault, hfirst, hread⟩ := firstFault_of_readTo hread
    rw [ofLines_eq_error_of_readTo hread]
    exact .faulty hfault hfirst hread
  | ok draft =>
    have horder := (inOrderTo_of_readTo hread).inOrder hlast hlength
    rw [ofLines_eq_readTo hlast hlength, hread]
    by_cases hmode : draft.mode = .strict
    · obtain ⟨number, source, c, first, second, hfirst, htable⟩ | ⟨hnone, htable | htable⟩ :=
        checkTable_cases hread hlast hlength hmode
      · simp only [bind, Except.bind, if_pos hmode, htable]
        exact .conflict horder hmode hfirst
      · simp only [bind, Except.bind, if_pos hmode, htable]
        exact .description horder fun _ => hnone
      · simp only [bind, Except.bind, if_pos hmode, htable]
        exact .incomplete horder hmode hnone
    · simp only [bind, Except.bind, if_neg hmode]
      exact .description horder fun hstrict => absurd hstrict hmode

namespace Outcome

/-! The cases exclude each other, so each of them decides on the result. -/

theorem exists_faulty (h : Outcome forced text result) (hfirst : FirstFault forced text number) :
    ∃ fault, result = .error fault ∧ fault.faultyLine? = some number := by
  cases h with
  | @faulty number' fault hfault hfirst' _ =>
    cases hfirst.unique hfirst'
    exact ⟨fault, rfl, hfault⟩
  | conflict horder => exact absurd hfirst horder.not_firstFault
  | incomplete horder => exact absurd hfirst horder.not_firstFault
  | description horder => exact absurd hfirst horder.not_firstFault

theorem eq_conflict (h : Outcome forced text result) (horder : InOrder forced text header)
    (hmode : header.mode = .strict) (hfirst : FirstConflict text header number source c first second) :
    result = .error (.conflictingTransition number source c first second) := by
  cases h with
  | faulty _ hfault => exact absurd hfault horder.not_firstFault
  | conflict horder' _ hfirst' =>
    cases horder.unique horder'
    obtain ⟨rfl, rfl, rfl, rfl, rfl⟩ := hfirst.unique hfirst'
    rfl
  | incomplete horder' _ hnone =>
    cases horder.unique horder'
    exact absurd hfirst.conflictAt (hnone _)
  | description horder' hnone =>
    cases horder.unique horder'
    exact absurd hfirst.conflictAt (hnone hmode _)

theorem eq_incomplete (h : Outcome forced text result) (horder : InOrder forced text header)
    (hnone : ∀ number, ¬ ConflictAt text header number)
    (htable : ∀ transitions, result ≠ .ok { header with transitions }) :
    result = .error (.incompleteTable header.numStates header.alphabet.size
      (header.numStates * header.alphabet.size) (laterLines text).length) := by
  cases h with
  | faulty _ hfault => exact absurd hfault horder.not_firstFault
  | conflict horder' _ hfirst =>
    cases horder.unique horder'
    exact absurd hfirst.conflictAt (hnone _)
  | incomplete horder' =>
    cases horder.unique horder'
    rfl
  | @description d horder' =>
    cases horder.unique horder'
    exact absurd rfl (htable d.transitions)

end Outcome

/-- How a reader of texts fails, in a given mode or in that of the kind tag. -/
structure FailsFast (forced : Option Mode) (read : String → Except ParseError Description) : Prop where
  /-- A fault within a line is one of the first line out of order, and the lines to it decide on the error. -/
  faultyLine (text : String) (fault : ParseError) (number : Nat) :
    read text = .error fault → fault.faultyLine? = some number →
      FirstFault forced text.toList number ∧
      ∀ text', AgreeTo number text.toList text'.toList → read text' = .error fault
  firstFault (text : String) (number : Nat) : FirstFault forced text.toList number →
    ∃ fault, read text = .error fault ∧ fault.faultyLine? = some number
  unknownKind (text tag : String) : read text = .error (.unknownKind tag) ↔
    (∀ kind : Kind, ¬ kind.NamedBy (lineAt text.toList 1)) ∧ tag = String.ofList (trim (lineAt text.toList 1))
  conflict (text : String) (number source : Nat) (c : Char) (first second : Nat) :
    read text = .error (.conflictingTransition number source c first second) ↔
      ∃ header, InOrder forced text.toList header ∧ header.mode = .strict ∧
        FirstConflict text.toList header number source c first second
  incomplete (text : String) (numStates symbols expected found : Nat) :
    read text = .error (.incompleteTable numStates symbols expected found) ↔
      ∃ header, InOrder forced text.toList header ∧ header.mode = .strict ∧
        (∀ number, ¬ ConflictAt text.toList header number) ∧
        (¬ ∃ transitions, Describes text.toList { header with transitions }) ∧
        numStates = header.numStates ∧ symbols = header.alphabet.size ∧
        expected = header.numStates * header.alphabet.size ∧ found = (laterLines text.toList).length

theorem failsFast_ofLines (forced : Option Mode) :
    FailsFast forced fun text => ofLines forced (lines text.toList) where
  faultyLine text fault number h hfault := by
    have houtcome := outcome_ofLines forced text.toList
    rw [h] at houtcome
    cases houtcome with
    | faulty hfault' hfirst hread =>
      obtain rfl := Option.some_inj.mp (hfault.symm.trans hfault')
      refine ⟨hfirst, fun text' hagree => ?_⟩
      rw [readTo_congr hagree] at hread
      exact ofLines_eq_error_of_readTo hread
    | conflict => cases hfault
    | incomplete => cases hfault
  firstFault text number hfirst := (outcome_ofLines forced text.toList).exists_faulty hfirst
  unknownKind text tag := by
    have hkind : (∀ kind : Kind, ¬ kind.NamedBy (lineAt text.toList 1)) ∧
        tag = String.ofList (trim (lineAt text.toList 1)) ↔
        readTo forced text.toList 1 = .error (.unknownKind tag) := by
      rw [readTo_one_eq_error_iff, Kind.ofTag_eq_error_iff, ParseError.unknownKind.injEq]
    rw [hkind]
    refine ⟨fun h => ?_, ofLines_eq_error_of_readTo⟩
    have houtcome := outcome_ofLines forced text.toList
    rw [h] at houtcome
    cases houtcome with
    | faulty hfault _ hread =>
      cases hfault
      exact hread
  conflict text number source c first second := by
    have houtcome := outcome_ofLines forced text.toList
    constructor
    · intro h
      rw [h] at houtcome
      cases houtcome with
      | faulty hfault => cases hfault
      | conflict horder hmode hfirst => exact ⟨_, horder, hmode, hfirst⟩
    · rintro ⟨header, horder, hmode, hfirst⟩
      exact houtcome.eq_conflict horder hmode hfirst
  incomplete text numStates symbols expected found := by
    have houtcome := outcome_ofLines forced text.toList
    constructor
    · intro h
      have hread := h
      rw [h] at houtcome
      cases houtcome with
      | faulty hfault => cases hfault
      | @incomplete header horder hmode hnone =>
        refine ⟨header, horder, hmode, hnone, ?_, rfl, rfl, rfl, rfl⟩
        rintro ⟨transitions, hdescribes⟩
        have hok := ofLines_eq_ok_iff.mpr ⟨hdescribes, (horder 0).mode_eq⟩
        rw [hread] at hok
        cases hok
    · rintro ⟨header, horder, hmode, hnone, htable, rfl, rfl, rfl, rfl⟩
      refine houtcome.eq_incomplete horder hnone fun transitions hok => htable ⟨transitions, ?_⟩
      exact (ofLines_eq_ok_iff.mp hok).1

/-- Reading fails at the first fault, whether the kind tag or the caller says in which mode. -/
theorem parse_failsFast : FailsFast none parse ∧ ∀ mode, FailsFast (some mode) (parseAs mode) :=
  ⟨failsFast_ofLines none, fun mode => failsFast_ofLines (some mode)⟩

/-- A symbol that the alphabet does not have, a line that contradicts the one before it, and a table with a gap. -/
theorem parse_failsFast_faultyTables :
    (∀ text', AgreeTo 6 "NFA\n2\na\n0\n0\n0 b 1\n".toList text'.toList →
      parse text' = .error (.foreignSymbol 6 'b')) ∧
    (∃ header, InOrder none "DFA\n2\na\n0\n0\n0 a 1\n0 a 0\n".toList header ∧ header.mode = .strict ∧
      FirstConflict "DFA\n2\na\n0\n0\n0 a 1\n0 a 0\n".toList header 7 0 'a' 1 0) ∧
    ∃ header, InOrder none "DFA\n2\na\n0\n0\n0 a 1\n".toList header ∧ header.mode = .strict ∧
      ∀ number, ¬ ConflictAt "DFA\n2\na\n0\n0\n0 a 1\n".toList header number := by
  obtain ⟨hparse, -⟩ := parse_failsFast
  have hsymbol : parse "NFA\n2\na\n0\n0\n0 b 1\n" = .error (.foreignSymbol 6 'b') := by decide
  have hconflict : parse "DFA\n2\na\n0\n0\n0 a 1\n0 a 0\n" = .error (.conflictingTransition 7 0 'a' 1 0) := by
    decide
  have hincomplete : parse "DFA\n2\na\n0\n0\n0 a 1\n" = .error (.incompleteTable 2 1 2 1) := by decide
  obtain ⟨header, horder, hmode, hnone, -⟩ := (hparse.incomplete _ 2 1 2 1).mp hincomplete
  exact ⟨(hparse.faultyLine _ _ 6 hsymbol rfl).2, (hparse.conflict _ 7 0 'a' 1 0).mp hconflict,
    header, horder, hmode, hnone⟩

end Description

end FiniteAutomata
