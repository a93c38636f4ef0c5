import FiniteAutomata.Dfa.Decision
import FiniteAutomata.Dfa.Operations
import FiniteAutomata.Session.Command

/-!
# Sessions

A session holds the automata that its commands have loaded and made. Executing a line answers the session after it and
what the line comes to; a line that fails leaves the session as it was.
-/
namespace FiniteAutomata

structure Session where
  automata : Registry Dfa
  deriving DecidableEq

/-- What a line comes to: a text to show, which may be empty, or the end of the session. -/
inductive Outcome
  | output (text : String)
  | exit
  deriving DecidableEq, Repr

namespace Session

def empty : Session := ⟨.empty⟩

def find (s : Session) (i : Invocation) (position : Nat) : Except CommandError Dfa := do
  let id ← i.identifier position
  match s.automata.get? id with
  | some d => return d
  | none => .error (.noAutomaton id)

def inRange {α : Type} (a : Option α) : Except CommandError α :=
  (Fault.inRange a).mapError .fault

def register (s : Session) (d : Dfa) : Identifier × Session :=
  let (id, automata) := s.automata.insert d
  (id, ⟨automata⟩)

def load (read : Reader) (s : Session) (path : String) : Except Fault (Identifier × Session) := do
  return s.register (← Dfa.load read path)

def yesNo (b : Bool) : String := if b then "yes" else "no"

def listing (s : Session) : String :=
  " ".intercalate (s.automata.identifiers.map toString)

def create (s : Session) (d? : Option Dfa) : Except CommandError (Session × Outcome) := do
  let d ← inRange d?
  let (id, s) := s.register d
  return (s, .output s!"created automaton {id} ({d.numStates} states)")

def run (read : Reader) (s : Session) (i : Invocation) :
    Except CommandError (Session × Outcome) := do
  match i.command with
  | .openFile =>
    if i.path = "" then .error (.incomplete .openFile)
    let (id, s) ← (s.load read i.path).mapError .fault
    return (s, .output s!"opened automaton {id}")
  | .list => return (s, .output s.listing)
  | .print =>
    let d ← s.find i 0
    return (s, .output (String.ofList (Text.trimEnd d.renderTransitions.toList)))
  | .saveAs =>
    let d ← s.find i 0
    match i.arguments[1]? with
    | none => .error (.incomplete .saveAs)
    | some path =>
      (d.save (String.ofList (Invocation.unquote path))).mapError .fault
      return (s, .output ("saved to " ++ String.ofList path))
  | .empty => return (s, .output (yesNo (← inRange (← s.find i 0).isLanguageEmpty?)))
  | .infinite => return (s, .output (yesNo (← inRange (← s.find i 0).isLanguageInfinite?)))
  | .recognize =>
    let d ← s.find i 0
    return (s, .output (yesNo (← inRange (d.recognize? (i.arguments.getD 1 [])))))
  | .union => s.create ((← s.find i 0).union? (← s.find i 1))
  | .concat => s.create ((← s.find i 0).concat? (← s.find i 1))
  | .star => s.create (← s.find i 0).star?
  | .plus => s.create (← s.find i 0).plus?
  | .close =>
    let id ← i.identifier 0
    if s.automata.contains id then
      return (⟨s.automata.remove id⟩, .output s!"closed automaton {id}")
    else
      .error (.noAutomaton id)
  | .help => return (s, .output Command.helpText)
  | .exit => return (s, .exit)

/-- Executes one line; `read` answers what the files hold. -/
def execute (read : Reader) (s : Session) (line : String) :
    Session × Except CommandError Outcome :=
  match Invocation.ofLine? line.toList with
  | .error e => (s, .error e)
  | .ok none => (s, .ok (.output ""))
  | .ok (some i) =>
    match s.run read i with
    | .error e => (s, .error e)
    | .ok (s', outcome) => (s', .ok outcome)

/-- The file that a line asks for, if it asks for one. -/
def requestedPath? (line : String) : Option String :=
  match Invocation.ofLine? line.toList with
  | .ok (some i) => if i.command = .openFile ∧ i.path ≠ "" then some i.path else none
  | _ => none

end Session

end FiniteAutomata
