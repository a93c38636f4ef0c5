import FiniteAutomata.Description.Basic
import FiniteAutomata.Text.Numeral
import FiniteAutomata.Text.Split

/-!
# Reading descriptions

A text has five header lines (kind tag, number of states, alphabet, start state, accepting states) and then one
transition line `from symbol to` for each transition. Header lines that the text is too short
for count as empty, and blank lines after the header are skipped. The lines are checked from the first to the last and
the first fault is reported; within a transition line the form of its three tokens comes before the range of its states,
and that before its symbol. Only when every line is in order is the transition table as a whole checked.
-/
namespace FiniteAutomata

open Text

/-- The kind that a tag names, in upper or lower case; an empty tag leaves it open. -/
def Kind.ofTag (line : List Char) : Except ParseError Kind :=
  let tag := trim line
  match String.ofList (tag.map Char.toUpper) with
  | "DFA" => .ok .dfa
  | "NFA" => .ok .nfa
  | "ENFA" => .ok .enfa
  | "" | "UNSPECIFIED" => .ok .unspecified
  | _ => .error (.unknownKind (String.ofList tag))

namespace Description

def readNumber (fault : ParseError) (token : List Char) : Except ParseError Nat :=
  match Numeral.read? token with
  | some n => .ok n
  | none => .error fault

def readCount (line : Nat) (content : List Char) : Except ParseError Nat :=
  let fault := ParseError.malformedCount line (String.ofList content)
  match tokens content with
  | [token] => readNumber fault token
  | _ => .error fault

def checkState (line numStates state : Nat) : Except ParseError Unit :=
  if state < numStates then .ok () else .error (.undefinedState line state numStates)

def readSymbol (line : Nat) (token : List Char) : Except ParseError Char :=
  match token with
  | [c] => .ok c
  | _ => .error (.invalidSymbol line (String.ofList token))

/-- A token of the alphabet line; only lenient texts may list the epsilon mark there. -/
def readAlphabetSymbol (mode : Mode) (line : Nat) (token : List Char) : Except ParseError Char := do
  let c ← readSymbol line token
  if c = epsilonMark ∧ mode = .strict then
    .error (.invalidSymbol line (String.ofList token))
  else
    return c

def readAlphabet (mode : Mode) (line : Nat) (content : List Char) : Except ParseError Alphabet := do
  return Alphabet.ofChars (← (tokens content).mapM (readAlphabetSymbol mode line))

def readState (line numStates : Nat) (token : List Char) : Except ParseError Nat := do
  let state ← readNumber (.malformedStateList line (String.ofList token)) token
  checkState line numStates state
  return state

def readStateCount (line : Nat) (content : List Char) : Except ParseError Nat := do
  let numStates ← readCount line content
  if maxStates < numStates then .error (.tooManyStates line numStates) else return numStates

/-- Reads the five header lines; `forced` is the mode to check in whatever the tag says. -/
def readHeader (forced : Option Mode) (lines : List (List Char)) : Except ParseError Header := do
  let kind ← Kind.ofTag (lines.getD 0 [])
  let mode := forced.getD kind.mode
  let numStates ← readStateCount 2 (lines.getD 1 [])
  let alphabet ← readAlphabet mode 3 (lines.getD 2 [])
  let start ← readCount 4 (lines.getD 3 [])
  checkState 4 numStates start
  let accepting ← (tokens (lines.getD 4 [])).mapM (readState 5 numStates)
  return { kind, mode, numStates, alphabet, start, accepting := SortedSet.ofList accepting }

/-- The label that a symbol stands for: the epsilon mark is an epsilon move where those are allowed. -/
def readLabel (header : Header) (line : Nat) (c : Char) : Except ParseError (Option Char) :=
  if c = epsilonMark then
    match header.mode with
    | .strict => .error (.foreignSymbol line c)
    | .lenient => .ok none
  else if c ∈ header.alphabet then .ok (some c)
  else .error (.foreignSymbol line c)

def readTransition (header : Header) (line : Nat) (content : List Char) :
    Except ParseError Transition :=
  let fault := ParseError.malformedTransition line (String.ofList content)
  match tokens content with
  | [first, second, third] => do
    let source ← readNumber fault first
    let c ← readSymbol line second
    let target ← readNumber fault third
    checkState line header.numStates source
    checkState line header.numStates target
    return { source, label := ← readLabel header line c, target }
  | _ => .error fault

/-- The lines after the header that are not blank, with their numbers. -/
def transitionLines (lines : List (List Char)) : List (List Char × Nat) :=
  ((lines.drop 5).zipIdx 6).filter fun l => !l.1.all isBlank

def readTransitions (header : Header) (lines : List (List Char)) :
    Except ParseError (List (Nat × Transition)) :=
  (transitionLines lines).mapM fun l => do return (l.2, ← readTransition header l.2 l.1)

/-- The number of entries of a complete table, if 64 bits can hold it. -/
def tableSize? (numStates symbols : Nat) : Option Nat :=
  if numStates * symbols < Numeral.limit then some (numStates * symbols) else none

/-- Refuses the first transition that leads elsewhere than an earlier one from the same state on the
same symbol; `earlier` holds the transitions seen so far, which agree with each other. -/
def checkConflicts (earlier : List Transition) : List (Nat × Transition) → Except ParseError Unit
  | [] => .ok ()
  | (line, t) :: rest =>
    match t.label, earlier.find? fun e => e.source = t.source ∧ e.label = t.label with
    | some c, some e =>
      if e.target = t.target then checkConflicts (t :: earlier) rest
      else .error (.conflictingTransition line t.source c e.target t.target)
    | _, _ => checkConflicts (t :: earlier) rest

def checkTable (header : Header) (transitions : List (Nat × Transition)) :
    Except ParseError Unit := do
  let symbols := header.alphabet.size
  match tableSize? header.numStates symbols with
  | none => .error (.tooManyStates 2 header.numStates)
  | some expected =>
    checkConflicts [] transitions
    let pairs := (transitions.map fun t => (t.2.source, t.2.label)).eraseDups
    if transitions.length = expected ∧ pairs.length = expected then
      .ok ()
    else
      .error (.incompleteTable header.numStates symbols expected transitions.length)

def ofLines (forced : Option Mode) (lines : List (List Char)) : Except ParseError Description := do
  let header ← readHeader forced lines
  let transitions ← readTransitions header lines
  if header.mode = .strict then checkTable header transitions
  return { header with transitions := transitions.map (·.2) }

/-- Reads a text in the mode that its kind tag asks for. -/
def parse (text : String) : Except ParseError Description :=
  ofLines none (lines text.toList)

/-- Reads a text in a given mode, whatever its kind tag says. -/
def parseAs (mode : Mode) (text : String) : Except ParseError Description :=
  ofLines (some mode) (lines text.toList)

end Description

end FiniteAutomata
