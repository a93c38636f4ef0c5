import FiniteAutomata.Proofs.Parsing

/-!
# Reading line by line

The reader takes the header and the transition lines in separate passes. Here it is one pass over the numbers of the
lines (`Description.readTo`), in which each line is read with what the lines before it have said, and this comes to the
same (`Description.ofLines_eq_readTo`). The pass goes on exactly as long as there is a header that all lines fit
(`Description.inOrderTo_iff`). So an error of it names the first line that is out of order, and nothing
behind this line has been looked at.
-/
namespace FiniteAutomata

open Text

/-- The line whose own words are at fault; the faults of a table as a whole have none. -/
def ParseError.faultyLine? : ParseError → Option Nat
  | .malformedCount line _ | .undefinedState line _ _ | .invalidSymbol line _ | .malformedStateList line _
  | .malformedTransition line _ | .foreignSymbol line _ | .tooManyStates line _ => some line
  | .unknownKind _ => some 1
  | .incompleteTable .. | .conflictingTransition .. => none

theorem Kind.ofTag_eq_error_iff {line : List Char} {fault : ParseError} : Kind.ofTag line = .error fault ↔
    (∀ kind : Kind, ¬ kind.NamedBy line) ∧ fault = .unknownKind (String.ofList (trim line)) := by
  simp only [← Kind.ofTag_eq_ok_iff]
  cases htag : Kind.ofTag line with
  | ok kind => simp
  | error fault' =>
    obtain rfl : fault' = .unknownKind (String.ofList (trim line)) := by
      simp only [Kind.ofTag] at htag
      split at htag <;> cases htag
      rfl
    simp [eq_comm]

namespace Description

section Faults

variable {α β : Type} {x : Except ParseError α} {f : α → Except ParseError β} {line : Nat}

/-- Whether a reading step finds no fault but in a given line. -/
def FaultsAt (line : Nat) (x : Except ParseError α) : Prop :=
  ∀ fault, x = .error fault → fault.faultyLine? = some line

theorem faultsAt_ok (a : α) : FaultsAt line (.ok a) := by
  intro fault h
  cases h

theorem faultsAt_error {fault : ParseError} (h : fault.faultyLine? = some line) :
    FaultsAt line (.error fault : Except ParseError α) := by
  intro fault' h'
  cases h'
  exact h

theorem FaultsAt.bind (hx : FaultsAt line x) (hf : ∀ a, FaultsAt line (f a)) : FaultsAt line (x >>= f) := by
  intro fault h
  obtain h | ⟨a, -, h⟩ := bind_eq_error_iff.mp h
  · exact hx fault h
  · exact hf a fault h

theorem FaultsAt.map (hx : FaultsAt line x) (g : α → β) : FaultsAt line (do return g (← x)) :=
  hx.bind fun a => faultsAt_ok (g a)

theorem FaultsAt.ite {y : Except ParseError α} {p : Prop} [Decidable p] (hx : FaultsAt line x)
    (hy : FaultsAt line y) : FaultsAt line (if p then x else y) := by
  by_cases hp : p
  · rwa [if_pos hp]
  · rwa [if_neg hp]

theorem FaultsAt.mapM {l : List α} (hf : ∀ a, FaultsAt line (f a)) : FaultsAt line (l.mapM f) := by
  intro fault h
  obtain ⟨a, -, ha⟩ := exists_of_mapM_eq_error h
  exact hf a fault ha

variable {content token : List Char} {numStates state : Nat} {c : Char}

theorem faultsAt_kind : FaultsAt 1 (Kind.ofTag content) := by
  intro fault h
  rw [(Kind.ofTag_eq_error_iff.mp h).2]
  rfl

theorem faultsAt_readNumber {fault : ParseError} (h : fault.faultyLine? = some line) :
    FaultsAt line (readNumber fault token) := by
  rw [readNumber]
  split
  · exact faultsAt_ok _
  · exact faultsAt_error h

theorem faultsAt_readCount : FaultsAt line (readCount line content) := by
  rw [readCount]
  split
  · exact faultsAt_readNumber rfl
  · exact faultsAt_error rfl

theorem faultsAt_checkState : FaultsAt line (checkState line numStates state) :=
  .ite (faultsAt_ok ()) (faultsAt_error rfl)

theorem faultsAt_readSymbol : FaultsAt line (readSymbol line token) := by
  unfold readSymbol
  split
  · exact faultsAt_ok _
  · exact faultsAt_error rfl

theorem faultsAt_readStateCount : FaultsAt line (readStateCount line content) :=
  faultsAt_readCount.bind fun _ => .ite (faultsAt_error rfl) (faultsAt_ok _)

theorem faultsAt_readAlphabet {mode : Mode} : FaultsAt line (readAlphabet mode line content) :=
  (FaultsAt.mapM fun _ => faultsAt_readSymbol.bind fun _ => .ite (faultsAt_error rfl) (faultsAt_ok _)).map _

theorem faultsAt_readState : FaultsAt line (readState line numStates token) :=
  (faultsAt_readNumber rfl).bind fun _ => faultsAt_checkState.bind fun _ => faultsAt_ok _

theorem faultsAt_readLabel {header : Header} : FaultsAt line (readLabel header line c) := by
  rw [readLabel]
  refine .ite ?_ (.ite (faultsAt_ok _) (faultsAt_error rfl))
  cases header.mode with
  | strict => exact faultsAt_error rfl
  | lenient => exact faultsAt_ok _

theorem faultsAt_readTransition {header : Header} : FaultsAt line (readTransition header line content) := by
  simp only [readTransition]
  split
  · exact (faultsAt_readNumber rfl).bind fun _ => faultsAt_readSymbol.bind fun _ =>
      (faultsAt_readNumber rfl).bind fun _ => faultsAt_checkState.bind fun _ =>
      faultsAt_checkState.bind fun _ => faultsAt_readLabel.map _
  · exact faultsAt_error rfl

end Faults

/-- What has been read up to some line, the transitions with the numbers of their lines. -/
structure Draft extends Header where
  transitions : List (Nat × Transition)

/-- The draft before the first line. Its parts are only looked at when a line has set them. -/
def Draft.blank (forced : Option Mode) : Draft where
  kind := .unspecified
  mode := forced.getD Kind.unspecified.mode
  numStates := 0
  alphabet := .empty
  start := 0
  accepting := ∅
  transitions := []

/-- Reads the line of a number, given what the lines before it have said. -/
def readLine (forced : Option Mode) (draft : Draft) (number : Nat) (line : List Char) : Except ParseError Draft :=
  match number with
  | 1 => do
    let kind ← Kind.ofTag line
    return { draft with kind, mode := forced.getD kind.mode }
  | 2 => do return { draft with numStates := ← readStateCount 2 line }
  | 3 => do return { draft with alphabet := ← readAlphabet draft.mode 3 line }
  | 4 => do
    let start ← readCount 4 line
    checkState 4 draft.numStates start
    return { draft with start }
  | 5 => do
    let accepting ← (tokens line).mapM (readState 5 draft.numStates)
    return { draft with accepting := SortedSet.ofList accepting }
  | number =>
    if line.all isBlank then return draft
    else do
      let t ← readTransition draft.toHeader number line
      return { draft with transitions := draft.transitions ++ [(number, t)] }

/-- Reads the lines from the first to a given one. -/
def readTo (forced : Option Mode) (text : List Char) : Nat → Except ParseError Draft
  | 0 => return .blank forced
  | last + 1 => do readLine forced (← readTo forced text last) (last + 1) (lineAt text (last + 1))

variable {forced : Option Mode} {text text' : List Char} {draft draft' : Draft} {header : Header}
  {last number : Nat} {line : List Char} {fault : ParseError}

theorem faultsAt_readLine : FaultsAt number (readLine forced draft number line) := by
  unfold readLine
  split
  · exact faultsAt_kind.map _
  · exact faultsAt_readStateCount.map _
  · exact faultsAt_readAlphabet.map _
  · exact faultsAt_readCount.bind fun _ => faultsAt_checkState.map _
  · exact (FaultsAt.mapM fun _ => faultsAt_readState).map _
  · exact .ite (faultsAt_ok _) (faultsAt_readTransition.map _)

/-- A line behind the header is skipped if it is blank, and else gives a transition. -/
theorem readLine_later_eq_ok_iff : readLine forced draft (last + 6) line = .ok draft' ↔
    (IsBlank line ∧ draft' = draft) ∨
      (¬ IsBlank line ∧ ∃ t, IsTransitionLine draft.mode draft.numStates draft.alphabet line t ∧
        draft' = { draft with transitions := draft.transitions ++ [(last + 6, t)] }) := by
  simp only [readLine]
  split
  · next hblank =>
    rw [pure_eq_ok_iff]
    grind [IsBlank]
  · next hblank =>
    simp only [bind_eq_ok_iff, readTransition_eq_ok_iff, pure_eq_ok_iff]
    grind [IsBlank]

theorem readTo_succ_of_ok (h : readTo forced text last = .ok draft) :
    readTo forced text (last + 1) = readLine forced draft (last + 1) (lineAt text (last + 1)) := by
  rw [readTo, h]
  rfl

theorem readTo_one_eq_error_iff :
    readTo forced text 1 = .error fault ↔ Kind.ofTag (lineAt text 1) = .error fault := by
  simp only [readTo, readLine, pure_bind, Nat.zero_add]
  cases Kind.ofTag (lineAt text 1) <;> simp [bind, Except.bind, pure, Except.pure]

/-- The pass does not look ahead. -/
theorem readTo_congr (h : AgreeTo last text text') : readTo forced text last = readTo forced text' last := by
  induction last with
  | zero => rfl
  | succ last ih =>
    have hline : lineAt text (last + 1) = lineAt text' (last + 1) := h _ le_rfl (by omega)
    rw [readTo, readTo, hline, ih fun number hle => h number (by omega)]

/-- The pass stops at a fault. -/
theorem readTo_eq_error_of_le {last' : Nat} (h : readTo forced text last = .error fault) (hle : last ≤ last') :
    readTo forced text last' = .error fault := by
  induction last', hle using Nat.le_induction with
  | base => exact h
  | succ last' _ ih =>
    rw [readTo, ih]
    rfl

/-- The error of a pass is about the line in which it stops. -/
theorem exists_fault_of_readTo (h : readTo forced text last = .error fault) :
    ∃ number < last, fault.faultyLine? = some (number + 1) ∧ (∃ draft, readTo forced text number = .ok draft) ∧
      readTo forced text (number + 1) = .error fault := by
  induction last with
  | zero => cases h
  | succ last ih =>
    cases hlast : readTo forced text last with
    | error fault' =>
      have hlater := readTo_eq_error_of_le hlast (show last ≤ last + 1 by omega)
      obtain rfl : fault' = fault := Except.error.inj (hlater.symm.trans h)
      obtain ⟨number, hlt, hnumber⟩ := ih hlast
      exact ⟨number, by omega, hnumber⟩
    | ok draft =>
      have hline := h
      rw [readTo_succ_of_ok hlast] at hline
      exact ⟨last, by omega, faultsAt_readLine fault hline, ⟨draft, hlast⟩, h⟩

/-! ### Lines in order -/

/-- Whether a line says what a header has in its place, or is one of the later lines that go with it. -/
def Fits (header : Header) (number : Nat) (line : List Char) : Prop :=
  match number with
  | 1 => header.kind.NamedBy line
  | 2 => IsNumberLine line header.numStates ∧ header.numStates ≤ 2 ^ 24
  | 3 => IsAlphabetLine header.mode line header.alphabet
  | 4 => IsNumberLine line header.start ∧ header.start < header.numStates
  | 5 => IsStatesLine header.numStates line header.accepting
  | _ => IsBlank line ∨ ∃ t, IsTransitionLine header.mode header.numStates header.alphabet line t

/-- Whether the lines to a given one are in order and say what a header has in their places. -/
structure InOrderTo (forced : Option Mode) (last : Nat) (text : List Char) (header : Header) : Prop where
  mode_eq : header.mode = forced.getD header.kind.mode
  fits : ∀ number ≤ last, 1 ≤ number → Fits header number (lineAt text number)

/-- Whether every line of a text is in order. -/
def InOrder (forced : Option Mode) (text : List Char) (header : Header) : Prop :=
  ∀ last, InOrderTo forced last text header

/-- The lines before a given one are in order, but with it they are not. -/
structure FirstFault (forced : Option Mode) (text : List Char) (number : Nat) : Prop where
  before : ∃ header, ∀ last < number, InOrderTo forced last text header
  line : ¬ ∃ header, InOrderTo forced number text header

/-- Two headers with the same parts, as far as the lines to a given one set them. -/
@[mk_iff]
structure SameTo (last : Nat) (h h' : Header) : Prop where
  kind : 1 ≤ last → h.kind = h'.kind
  mode : 1 ≤ last → h.mode = h'.mode
  numStates : 2 ≤ last → h.numStates = h'.numStates
  alphabet : 3 ≤ last → h.alphabet = h'.alphabet
  start : 4 ≤ last → h.start = h'.start
  accepting : 5 ≤ last → h.accepting = h'.accepting

theorem SameTo.eq {h h' : Header} (hsame : SameTo last h h') (hlast : 5 ≤ last) : h = h' := by
  obtain ⟨hkind, hmode, hnumStates, halphabet, hstart, haccepting⟩ := hsame
  obtain ⟨_, _, _, _, _, _⟩ := h
  obtain ⟨_, _, _, _, _, _⟩ := h'
  grind

theorem InOrderTo.mono {last' : Nat} (h : InOrderTo forced last text header) (hle : last' ≤ last) :
    InOrderTo forced last' text header where
  mode_eq := h.mode_eq
  fits number hnumber := h.fits number (hnumber.trans hle)

/-- One line: it is read if it fits, and sets the part of the header that stands in its place. -/
theorem readLine_sameTo (hmode : header.mode = forced.getD header.kind.mode) :
    (∃ draft', readLine forced draft (last + 1) line = .ok draft' ∧ SameTo (last + 1) draft'.toHeader header) ↔
      SameTo last draft.toHeader header ∧ Fits header (last + 1) line := by
  match last with
  | 0 =>
    simp only [readLine, Fits, bind_eq_ok_iff, Kind.ofTag_eq_ok_iff, pure_eq_ok_iff]
    grind [sameTo_iff]
  | 1 =>
    simp only [readLine, Fits, bind_eq_ok_iff, readStateCount_eq_ok_iff, pure_eq_ok_iff]
    grind [sameTo_iff]
  | 2 =>
    simp only [readLine, Fits, bind_eq_ok_iff, readAlphabet_eq_ok_iff, pure_eq_ok_iff]
    grind [sameTo_iff]
  | 3 =>
    simp only [readLine, Fits, bind_eq_ok_iff, readCount_eq_ok_iff, checkState_eq_ok_iff, pure_eq_ok_iff]
    grind [sameTo_iff]
  | 4 =>
    have hstates (n : Nat) (set : SortedSet Nat) : (∃ states, (tokens line).mapM (readState 5 n) = .ok states ∧
        SortedSet.ofList states = set) ↔ IsStatesLine n line set := mapM_readState_eq_ok_iff
    simp only [readLine, Fits, bind_eq_ok_iff, pure_eq_ok_iff, ← hstates]
    grind [sameTo_iff]
  | last + 5 =>
    simp only [readLine_later_eq_ok_iff, Fits]
    grind [sameTo_iff]

/-- All lines to a given one, by induction on its number. -/
theorem inOrderTo_iff : InOrderTo forced last text header ↔
    header.mode = forced.getD header.kind.mode ∧
      ∃ draft, readTo forced text last = .ok draft ∧ SameTo last draft.toHeader header := by
  have hrun (hmode : header.mode = forced.getD header.kind.mode) :
      (∃ draft, readTo forced text last = .ok draft ∧ SameTo last draft.toHeader header) ↔
        ∀ number ≤ last, 1 ≤ number → Fits header number (lineAt text number) := by
    induction last with
    | zero =>
      refine iff_of_true ⟨_, rfl, by constructor <;> omega⟩ fun number hle hpos => ?_
      omega
    | succ last ih =>
      calc (∃ draft', readTo forced text (last + 1) = .ok draft' ∧ SameTo (last + 1) draft'.toHeader header)
          ↔ ∃ draft, readTo forced text last = .ok draft ∧ ∃ draft',
              readLine forced draft (last + 1) (lineAt text (last + 1)) = .ok draft' ∧
                SameTo (last + 1) draft'.toHeader header := by
            simp only [readTo, bind_eq_ok_iff]
            grind
        _ ↔ (∃ draft, readTo forced text last = .ok draft ∧ SameTo last draft.toHeader header) ∧
              Fits header (last + 1) (lineAt text (last + 1)) := by
            simp only [readLine_sameTo hmode, ← and_assoc, exists_and_right]
        _ ↔ _ := by
            rw [ih]
            grind
  constructor
  · rintro ⟨hmode, hfits⟩
    exact ⟨hmode, (hrun hmode).mpr hfits⟩
  · rintro ⟨hmode, hdraft⟩
    exact ⟨hmode, (hrun hmode).mp hdraft⟩

theorem mode_readLine (hmode : draft.mode = forced.getD draft.kind.mode)
    (h : readLine forced draft (last + 1) line = .ok draft') : draft'.mode = forced.getD draft'.kind.mode := by
  match last with
  | 0 | 1 | 2 | 3 | 4 =>
    simp only [readLine, bind_eq_ok_iff, pure_eq_ok_iff] at h
    grind
  | last + 5 =>
    rw [readLine_later_eq_ok_iff] at h
    grind

theorem mode_readTo (h : readTo forced text last = .ok draft) : draft.mode = forced.getD draft.kind.mode := by
  induction last generalizing draft with
  | zero =>
    cases h
    rfl
  | succ last ih =>
    rw [readTo, bind_eq_ok_iff] at h
    obtain ⟨draft', hdraft', hline⟩ := h
    exact mode_readLine (ih hdraft') hline

theorem inOrderTo_of_readTo (h : readTo forced text last = .ok draft) :
    InOrderTo forced last text draft.toHeader :=
  inOrderTo_iff.mpr ⟨mode_readTo h, draft, h, by constructor <;> intro <;> rfl⟩

/-- Behind its last line a text is in order. -/
theorem InOrderTo.inOrder (h : InOrderTo forced last text header) (hlast : 5 ≤ last)
    (hlength : (lines text).length ≤ last) : InOrder forced text header := by
  refine fun last' => ⟨h.mode_eq, fun number _ hpos => ?_⟩
  by_cases hnumber : number ≤ last
  · exact h.fits number hnumber hpos
  · obtain ⟨number, rfl⟩ := Nat.exists_eq_add_of_le' (show 6 ≤ number by omega)
    rw [lineAt_of_length_lt (by omega)]
    exact .inl (by simp [IsBlank])

theorem InOrder.unique {header' : Header} (h : InOrder forced text header) (h' : InOrder forced text header') :
    header = header' := by
  obtain ⟨-, draft, hread, hsame⟩ := inOrderTo_iff.mp (h 5)
  obtain ⟨-, draft', hread', hsame'⟩ := inOrderTo_iff.mp (h' 5)
  obtain rfl : draft = draft' := Except.ok.inj (hread.symm.trans hread')
  rw [← hsame.eq le_rfl, ← hsame'.eq le_rfl]

theorem InOrder.not_firstFault (h : InOrder forced text header) : ¬ FirstFault forced text number :=
  fun hfault => hfault.line ⟨header, h number⟩

theorem firstFault_of_readTo (h : readTo forced text last = .error fault) :
    ∃ number, fault.faultyLine? = some number ∧ FirstFault forced text number ∧
      readTo forced text number = .error fault := by
  obtain ⟨number, -, hfault, ⟨draft, hdraft⟩, hread⟩ := exists_fault_of_readTo h
  refine ⟨number + 1, hfault, ⟨⟨draft.toHeader, fun last hlt => ?_⟩, ?_⟩, hread⟩
  · exact (inOrderTo_of_readTo hdraft).mono (by omega)
  · rintro ⟨header, hheader⟩
    obtain ⟨-, draft', hdraft', -⟩ := inOrderTo_iff.mp hheader
    rw [hread] at hdraft'
    cases hdraft'

/-! ### Two passes in one -/

theorem transitionLines_take_succ (last : Nat) :
    transitionLines ((lines text).take (last + 6)) = transitionLines ((lines text).take (last + 5)) ++
      if (lineAt text (last + 6)).all isBlank then [] else [(lineAt text (last + 6), last + 6)] := by
  rw [← getD_lines, List.getD_eq_getElem?_getD, List.take_add_one]
  cases hline : (lines text)[last + 5]? with
  | none => simp
  | some line =>
    have hlength : ((lines text).take (last + 5)).length = last + 5 := by
      have := (List.getElem?_eq_some_iff.mp hline).1
      rw [List.length_take]
      omega
    simp only [transitionLines, Option.toList_some, Option.getD_some]
    rw [List.drop_append_of_le_length (by omega), List.zipIdx_append, List.filter_append, List.length_drop, hlength,
      Nat.add_sub_cancel, Nat.add_comm 6 last, List.zipIdx_singleton, List.filter_singleton]
    cases line.all isBlank <;> rfl

theorem readTransitions_take_five : readTransitions header ((lines text).take 5) = pure [] := by
  simp [readTransitions, transitionLines]

theorem readTo_eq (last : Nat) : readTo forced text (last + 5) = do
    let header ← readHeader forced (lines text)
    return { header with transitions := ← readTransitions header ((lines text).take (last + 5)) } := by
  induction last with
  | zero =>
    simp only [Nat.zero_add, readTransitions_take_five, readTo, readLine, readHeader, getD_lines, bind_assoc,
      pure_bind, Draft.blank]
  | succ last ih =>
    rw [show last + 1 + 5 = last + 5 + 1 by omega, readTo, ih]
    simp only [readTransitions, transitionLines_take_succ, List.mapM_append, bind_assoc, pure_bind, readLine]
    refine bind_congr fun header => bind_congr fun numbered => ?_
    split <;> simp

theorem ofLines_eq_readTo (hlast : 5 ≤ last) (hlength : (lines text).length ≤ last) :
    ofLines forced (lines text) = do
      let draft ← readTo forced text last
      if draft.mode = .strict then checkTable draft.toHeader draft.transitions
      return { draft with transitions := draft.transitions.map (·.2) } := by
  obtain ⟨last, rfl⟩ := Nat.exists_eq_add_of_le' hlast
  rw [readTo_eq, List.take_of_length_le hlength, ofLines]
  simp only [bind_assoc, pure_bind]

theorem ofLines_eq_error_of_readTo (h : readTo forced text last = .error fault) :
    ofLines forced (lines text) = .error fault := by
  have hlast : 5 ≤ last + (lines text).length + 5 := by omega
  have hlength : (lines text).length ≤ last + (lines text).length + 5 := by omega
  rw [ofLines_eq_readTo hlast hlength, readTo_eq_error_of_le h (by omega)]
  rfl

theorem length_transitions_readTo (h : readTo forced text last = .ok draft) (hlast : 5 ≤ last)
    (hlength : (lines text).length ≤ last) : draft.transitions.length = (laterLines text).length := by
  obtain ⟨last, rfl⟩ := Nat.exists_eq_add_of_le' hlast
  rw [readTo_eq, List.take_of_length_le hlength] at h
  simp only [bind_eq_ok_iff, pure_eq_ok_iff] at h
  obtain ⟨header, -, numbered, hnumbered, rfl⟩ := h
  have hlines := (readTransitions_eq_ok_iff.mp ⟨numbered, hnumbered, rfl⟩).length_eq
  rw [hlines, List.length_map]

end Description

end FiniteAutomata
