import FiniteAutomata.Proofs.LineReading
import FiniteAutomata.Proofs.StrictTable

/-!
# Sizes of tables

A strict table is checked once the header and all transition lines have been read, and then it has few enough states
and symbols for 64 bits to hold the number of its cells (`Description.ReachesTable.tableSize?_eq`). So what the check
would answer for a larger table makes no difference (`Description.ofLinesWith_eq_of_agree`), and too many states are
reported for the number in the second line only (`Description.ofLines_eq_tooManyStates_iff`).
-/
namespace FiniteAutomata

open Text

section Answers

variable {ε α β : Type} {fault : ε}

theorem bind_ne_error {x : Except ε α} {f : α → Except ε β} (hx : x ≠ .error fault)
    (hf : ∀ a, f a ≠ .error fault) : x >>= f ≠ .error fault := by
  rw [ne_eq, bind_eq_error_iff]
  rintro (h | ⟨a, -, h⟩)
  · exact hx h
  · exact hf a h

theorem mapM_ne_error {f : α → Except ε β} {l : List α} (hf : ∀ a, f a ≠ .error fault) :
    l.mapM f ≠ .error fault := by
  intro h
  obtain ⟨a, -, ha⟩ := exists_of_mapM_eq_error h
  exact hf a ha

end Answers

namespace Description

variable {forced : Option Mode} {text : List Char} {header : Header} {numbered : List (Nat × Transition)}
  {mode : Mode} {line number n numStates state : Nat} {content token : List Char} {c : Char}

/-! ### Reports of too many states

Only the step that reads how many states there are reports too many of them.
-/

theorem readNumber_ne_tooManyStates {fault : ParseError} (h : fault ≠ .tooManyStates number n) :
    readNumber fault token ≠ .error (.tooManyStates number n) := by
  rw [readNumber]
  split <;> simp [h]

theorem readCount_ne_tooManyStates : readCount line content ≠ .error (.tooManyStates number n) := by
  rw [readCount]
  split
  · exact readNumber_ne_tooManyStates (by simp)
  · simp

theorem checkState_ne_tooManyStates : checkState line numStates state ≠ .error (.tooManyStates number n) := by
  rw [checkState]
  split <;> simp

theorem readSymbol_ne_tooManyStates : readSymbol line token ≠ .error (.tooManyStates number n) := by
  unfold readSymbol
  split <;> simp

theorem readAlphabet_ne_tooManyStates : readAlphabet mode line content ≠ .error (.tooManyStates number n) := by
  have hsymbol (token : List Char) : readAlphabetSymbol mode line token ≠ .error (.tooManyStates number n) := by
    refine bind_ne_error readSymbol_ne_tooManyStates fun c => ?_
    split
    · simp
    · exact pure_ne_error
  exact bind_ne_error (mapM_ne_error hsymbol) fun _ => pure_ne_error

theorem readState_ne_tooManyStates : readState line numStates token ≠ .error (.tooManyStates number n) :=
  bind_ne_error (readNumber_ne_tooManyStates (by simp)) fun _ =>
    bind_ne_error checkState_ne_tooManyStates fun _ => pure_ne_error

theorem readLabel_ne_tooManyStates : readLabel header line c ≠ .error (.tooManyStates number n) := by
  rw [readLabel]
  split
  · cases header.mode <;> simp
  · split <;> simp

theorem readTransition_ne_tooManyStates :
    readTransition header line content ≠ .error (.tooManyStates number n) := by
  simp only [readTransition]
  split
  · refine bind_ne_error (readNumber_ne_tooManyStates (by simp)) fun source => ?_
    refine bind_ne_error readSymbol_ne_tooManyStates fun c => ?_
    refine bind_ne_error (readNumber_ne_tooManyStates (by simp)) fun target => ?_
    refine bind_ne_error checkState_ne_tooManyStates fun _ => bind_ne_error checkState_ne_tooManyStates fun _ => ?_
    exact bind_ne_error readLabel_ne_tooManyStates fun _ => pure_ne_error
  · simp

theorem readTransitions_ne_tooManyStates {lines : List (List Char)} :
    readTransitions header lines ≠ .error (.tooManyStates number n) :=
  mapM_ne_error fun _ => bind_ne_error readTransition_ne_tooManyStates fun _ => pure_ne_error

theorem checkConflicts_ne_tooManyStates {earlier : List Transition} :
    checkConflicts earlier numbered ≠ .error (.tooManyStates number n) := by
  induction numbered generalizing earlier with
  | nil => simp [checkConflicts]
  | cons p numbered ih =>
    rw [checkConflicts]
    split
    · split
      · exact ih
      · simp
    · exact ih

theorem checkTable_ne_tooManyStates (hle : header.numStates ≤ 2 ^ 24) :
    checkTable header numbered ≠ .error (.tooManyStates number n) := by
  simp only [checkTable, tableSize?_eq hle]
  refine bind_ne_error checkConflicts_ne_tooManyStates fun _ => ?_
  split <;> simp

theorem readStateCount_eq_tooManyStates_iff : readStateCount line content = .error (.tooManyStates number n) ↔
    number = line ∧ IsNumberLine content n ∧ 2 ^ 24 < n := by
  simp only [readStateCount, bind_eq_error_iff, readCount_ne_tooManyStates, readCount_eq_ok_iff, false_or]
  constructor
  · rintro ⟨m, hm, h⟩
    split at h
    · next hlt =>
      cases h
      exact ⟨rfl, hm, hlt⟩
    · cases h
  · rintro ⟨rfl, hn, hlt⟩
    exact ⟨n, hn, if_pos hlt⟩

theorem readHeader_eq_tooManyStates_iff : readHeader forced (lines text) = .error (.tooManyStates number n) ↔
    (∃ kind : Kind, kind.NamedBy (lineAt text 1)) ∧ number = 2 ∧ IsNumberLine (lineAt text 2) n ∧ 2 ^ 24 < n := by
  have hkind (line : List Char) : Kind.ofTag line ≠ .error (.tooManyStates number n) := by
    simp [Kind.ofTag_eq_error_iff]
  have hstates (line : List Char) (numStates : Nat) :
      (tokens line).mapM (readState 5 numStates) ≠ .error (.tooManyStates number n) :=
    mapM_ne_error fun _ => readState_ne_tooManyStates
  simp only [readHeader, getD_lines, bind_eq_error_iff, hkind, Kind.ofTag_eq_ok_iff,
    readStateCount_eq_tooManyStates_iff, readAlphabet_ne_tooManyStates, readCount_ne_tooManyStates,
    checkState_ne_tooManyStates, hstates, pure_ne_error, and_false, exists_false, or_false, false_or, exists_and_right]

/-- Too many states are reported for what the second line says, as soon as it has been read. -/
theorem ofLines_eq_tooManyStates_iff : ofLines forced (lines text) = .error (.tooManyStates number n) ↔
    (∃ kind : Kind, kind.NamedBy (lineAt text 1)) ∧ number = 2 ∧ IsNumberLine (lineAt text 2) n ∧ 2 ^ 24 < n := by
  have hreport : ofLines forced (lines text) = .error (.tooManyStates number n) ↔
      readHeader forced (lines text) = .error (.tooManyStates number n) := by
    rw [ofLines, bind_eq_error_iff, or_iff_left_iff_imp]
    rintro ⟨header, hheader, h⟩
    have hle := (readHeader_eq_ok_iff.mp hheader).1.numStates_le
    refine absurd h (bind_ne_error readTransitions_ne_tooManyStates fun numbered => ?_)
    split
    · exact bind_ne_error (checkTable_ne_tooManyStates hle) fun _ => pure_ne_error
    · exact pure_ne_error
  rw [hreport, readHeader_eq_tooManyStates_iff]

/-! ### Where tables are checked -/

/-- Whether reading a text comes to the check of its table as a whole, and with what its lines have said. -/
structure ReachesTable (forced : Option Mode) (text : List Char) (header : Header)
    (numbered : List (Nat × Transition)) : Prop where
  header_eq : readHeader forced (lines text) = .ok header
  transitions_eq : readTransitions header (lines text) = .ok numbered
  mode_eq : header.mode = .strict

namespace ReachesTable

theorem numStates_le (h : ReachesTable forced text header numbered) : header.numStates ≤ 2 ^ 24 :=
  (readHeader_eq_ok_iff.mp h.header_eq).1.numStates_le

theorem tableSize?_eq (h : ReachesTable forced text header numbered) :
    tableSize? header.numStates header.alphabet.size = some (header.numStates * header.alphabet.size) :=
  Description.tableSize?_eq h.numStates_le

end ReachesTable

/-- Reading with another check of strict tables. -/
def ofLinesWith (check : Header → List (Nat × Transition) → Except ParseError Unit) (forced : Option Mode)
    (lines : List (List Char)) : Except ParseError Description := do
  let header ← readHeader forced lines
  let transitions ← readTransitions header lines
  if header.mode = .strict then check header transitions
  return { header with transitions := transitions.map (·.2) }

theorem ofLinesWith_checkTable {lines : List (List Char)} :
    ofLinesWith checkTable forced lines = ofLines forced lines := rfl

variable {check check' : Header → List (Nat × Transition) → Except ParseError Unit}

/-- The check is asked about no table but that of the text. -/
theorem ofLinesWith_congr (h : ∀ header numbered, ReachesTable forced text header numbered →
      check header numbered = check' header numbered) :
    ofLinesWith check forced (lines text) = ofLinesWith check' forced (lines text) := by
  simp only [ofLinesWith]
  cases hheader : readHeader forced (lines text) with
  | error fault => rfl
  | ok header =>
    cases hnumbered : readTransitions header (lines text) with
    | error fault => simp only [bind, Except.bind, hnumbered]
    | ok numbered =>
      by_cases hmode : header.mode = .strict
      · simp only [bind, Except.bind, hnumbered, h header numbered ⟨hheader, hnumbered, hmode⟩]
      · simp only [bind, Except.bind, hnumbered, if_neg hmode]

/-- Any check will do that answers alike for the tables whose cells 64 bits can count. -/
theorem ofLinesWith_eq_of_agree (h : ∀ header numbered, tableSize? header.numStates header.alphabet.size ≠ none →
      check header numbered = checkTable header numbered) :
    ofLinesWith check forced (lines text) = ofLines forced (lines text) := by
  rw [← ofLinesWith_checkTable]
  refine ofLinesWith_congr fun header numbered hreaches => h header numbered ?_
  rw [hreaches.tableSize?_eq]
  exact Option.some_ne_none _

/-- What a reader of texts, in a given mode or in that of the kind tag, keeps to about the sizes of tables. -/
structure BoundsTables (forced : Option Mode) (read : String → Except ParseError Description) : Prop where
  /-- Where a table is checked, 64 bits can count its cells. There are 1112064 characters, the epsilon mark among them. -/
  sizes (text : String) (header : Header) (numbered : List (Nat × Transition)) :
    ReachesTable forced text.toList header numbered →
      header.numStates ≤ 2 ^ 24 ∧ header.alphabet.size ≤ 1112063 ∧
      header.numStates * header.alphabet.size < 2 ^ 64 ∧
      tableSize? header.numStates header.alphabet.size = some (header.numStates * header.alphabet.size)
  /-- So it makes no difference what the check answers for larger ones. -/
  overflow (text : String) (check : Header → List (Nat × Transition) → Except ParseError Unit) :
    (∀ header numbered, tableSize? header.numStates header.alphabet.size ≠ none →
      check header numbered = checkTable header numbered) →
    ofLinesWith check forced (lines text.toList) = read text
  tooManyStates (text : String) (number n : Nat) : read text = .error (.tooManyStates number n) ↔
    (∃ kind : Kind, kind.NamedBy (lineAt text.toList 1)) ∧ number = 2 ∧
      IsNumberLine (lineAt text.toList 2) n ∧ 2 ^ 24 < n

theorem boundsTables_ofLines (forced : Option Mode) :
    BoundsTables forced fun text => ofLines forced (lines text.toList) where
  sizes _ header _ h :=
    ⟨h.numStates_le, Nat.le_of_lt_succ header.alphabet.size_lt, mul_size_lt h.numStates_le, h.tableSize?_eq⟩
  overflow _ _ h := ofLinesWith_eq_of_agree h
  tooManyStates _ _ _ := ofLines_eq_tooManyStates_iff

/-- No table that is checked is too large for 64 bits, whether the kind tag or the caller says in which mode to read. -/
theorem parse_boundsTables : BoundsTables none parse ∧ ∀ mode, BoundsTables (some mode) (parseAs mode) :=
  ⟨boundsTables_ofLines none, fun mode => boundsTables_ofLines (some mode)⟩

/-- A header with as many states as there may be. -/
def largestHeader : Header where
  kind := .dfa
  mode := .strict
  numStates := 16777216
  alphabet := .ofChars ['a', 'b']
  start := 0
  accepting := ∅

/-- As many states as there may be, one more, and so many that with two symbols 64 bits would show no cells. -/
theorem parse_boundsTables_atLimit :
    (ReachesTable none "DFA\n16777216\na b\n0\n\n".toList largestHeader [] ∧
      tableSize? 16777216 2 = some (16777216 * 2)) ∧
    parse "DFA\n16777217\na b\n0\n\n" = .error (.tooManyStates 2 16777217) ∧
    parseAs .strict "\n9223372036854775808\na b\n0\n\n" = .error (.tooManyStates 2 9223372036854775808) ∧
    IsNumberLine (lineAt "\n9223372036854775808\na b\n0\n\n".toList 2) 9223372036854775808 := by
  obtain ⟨hparse, hparseAs⟩ := parse_boundsTables
  have hreaches : ReachesTable none "DFA\n16777216\na b\n0\n\n".toList largestHeader [] :=
    ⟨by decide, by decide, rfl⟩
  have hsymbols : largestHeader.alphabet.size = 2 := by decide
  obtain ⟨-, -, -, hsize⟩ := hparse.sizes _ largestHeader [] hreaches
  rw [hsymbols] at hsize
  have hlarge : parseAs .strict "\n9223372036854775808\na b\n0\n\n" =
      .error (.tooManyStates 2 9223372036854775808) := by decide
  obtain ⟨-, -, hnumber, -⟩ := ((hparseAs .strict).tooManyStates _ 2 9223372036854775808).mp hlarge
  exact ⟨⟨hreaches, hsize⟩, by decide, hlarge, hnumber⟩

end Description

end FiniteAutomata
