import FiniteAutomata.Dfa.Determinization
import FiniteAutomata.Directory

/-!
# Automata from texts and files

`Fault` is everything that can go wrong on the way from a path to an automaton, and back.
-/
namespace FiniteAutomata

inductive Fault
  | unreadable (path : String) (reason : ReadError)
  | invalid (error : ParseError)
  | notImplemented (what : String)
  /-- A table refers to a state that it does not have; no text leads to such a table. -/
  | outOfRange
  deriving DecidableEq, Repr

def Fault.message : Fault → String
  | .unreadable path reason => s!"could not read {path}: " ++ reason.message
  | .invalid error => error.message
  | .notImplemented what => s!"{what} is not implemented"
  | .outOfRange => "a state is out of range"

/-- The value of an operation that meets no state out of range. -/
def Fault.inRange {α : Type} : Option α → Except Fault α
  | some a => .ok a
  | none => .error .outOfRange

def readText (read : Reader) (path : String) : Except Fault String :=
  (read path).mapError (.unreadable path)

namespace Dfa

def ofDescription (d : Description) : Except Fault Dfa := Fault.inRange (ofDescription? d)

/-- Reads a text as a deterministic automaton: a text with the tag `DFA` is a complete table, and any
other is determinized. -/
def parse (text : String) : Except Fault Dfa := do
  ofDescription (← (Description.parse text).mapError .invalid)

def load (read : Reader) (path : String) : Except Fault Dfa := do
  parse (← readText read path)

/-- Automata are not written to files. -/
def save (_ : Dfa) (_path : String) : Except Fault Unit := .error (.notImplemented "export")

end Dfa

namespace Nfa

def load (read : Reader) (path : String) : Except Fault Nfa := do
  (parse (← readText read path)).mapError .invalid

end Nfa

end FiniteAutomata
