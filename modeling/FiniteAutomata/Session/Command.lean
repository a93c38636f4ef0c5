import FiniteAutomata.Loading
import FiniteAutomata.Registry
import FiniteAutomata.Text.Quoted

/-!
# Commands

The commands of a session, each with its name, what follows the name, and a summary. A line is a
command name and, behind blanks, its arguments; how often and with which blanks they are separated does not matter,
except that the path of `open` is the whole rest of the line.
-/
namespace FiniteAutomata

inductive Command
  | close
  | concat
  | empty
  | exit
  | help
  | infinite
  | list
  | openFile
  | plus
  | print
  | recognize
  | saveAs
  | star
  | union
  deriving DecidableEq, Repr

namespace Command

def all : List Command :=
  [close, concat, empty, exit, help, infinite, list, openFile, plus, print, recognize, saveAs, star,
    union]

def name : Command → String
  | close => "close"
  | concat => "concat"
  | empty => "empty"
  | exit => "exit"
  | help => "help"
  | infinite => "infinite"
  | list => "list"
  | openFile => "open"
  | plus => "plus"
  | print => "print"
  | recognize => "recognize"
  | saveAs => "saveas"
  | star => "star"
  | union => "union"

def ofName? (name : String) : Option Command := all.find? fun c => c.name = name

/-- The most arguments that a command takes; a path may consist of any number of tokens. -/
def maxArguments? : Command → Option Nat
  | openFile => none
  | list | help | exit => some 0
  | close | empty | infinite | plus | print | star => some 1
  | concat | recognize | saveAs | union => some 2

/-- A command and what may follow its name. -/
def synopsis : Command → String
  | close => "close <id>"
  | concat => "concat <id> <id>"
  | empty => "empty <id>"
  | exit => "exit"
  | help => "help"
  | infinite => "infinite <id>"
  | list => "list"
  | openFile => "open <path>"
  | plus => "plus <id>"
  | print => "print <id>"
  | recognize => "recognize <id> [word]"
  | saveAs => "saveas <id> <path>"
  | star => "star <id>"
  | union => "union <id> <id>"

def summary : Command → String
  | close => "forget an automaton"
  | concat => "new automaton for the concatenation"
  | empty => "is the language empty?"
  | exit => "leave the shell"
  | help => "this text"
  | infinite => "is the language infinite?"
  | list => "identifiers of loaded automata"
  | openFile => "load an automaton file"
  | plus => "new automaton for the Kleene plus"
  | print => "show the transition table"
  | recognize => "is the word accepted?"
  | saveAs => "write an automaton to a file"
  | star => "new automaton for the Kleene star"
  | union => "new automaton for the union"

def summaryColumn : Nat := 23

def helpLine (c : Command) : String :=
  "  " ++ c.synopsis ++ String.ofList (List.replicate (summaryColumn - c.synopsis.length) ' ')
    ++ c.summary

def helpText : String := "\n".intercalate (all.map helpLine)

end Command

inductive CommandError
  | unknown (name : String)
  | tooManyArguments (command : Command)
  | incomplete (command : Command)
  /-- An identifier is missing; arguments are counted from 1. -/
  | missingIdentifier (argument : Nat)
  | notIdentifier (token : String) (error : Text.NumeralError)
  | noAutomaton (id : Identifier)
  | fault (fault : Fault)
  deriving DecidableEq, Repr

namespace CommandError

def message : CommandError → String
  | unknown name => "unknown command " ++ Text.quoted name ++ ", try \"help\""
  | tooManyArguments command => "too many arguments, usage: " ++ command.synopsis
  | incomplete command => "usage: " ++ command.synopsis
  | missingIdentifier argument => s!"missing automaton identifier (argument {argument})"
  | notIdentifier token error =>
    Text.quoted token ++ " is not an automaton identifier: " ++ error.message
  | noAutomaton id => s!"no automaton with identifier {id}"
  | fault f => f.message

end CommandError

/-- A command as it was typed: its arguments, and the rest of the line that they were cut from. -/
structure Invocation where
  command : Command
  rest : List Char
  arguments : List (List Char)
  deriving DecidableEq

namespace Invocation
open Text

def unquote (s : List Char) : List Char :=
  let s := trim s
  match s, s.getLast? with
  | '"' :: inner@(_ :: _), some '"' => inner.dropLast
  | _, _ => s

def path (i : Invocation) : String := String.ofList (unquote i.rest)

/-- The invocation on a line; a blank line has none. -/
def ofLine? (line : List Char) : Except CommandError (Option Invocation) :=
  let line := trim line
  let name := line.takeWhile (!isBlank ·)
  let rest := trim (line.dropWhile (!isBlank ·))
  let arguments := tokens rest
  if name = [] then .ok none
  else match Command.ofName? (String.ofList name) with
    | none => .error (.unknown (String.ofList name))
    | some command =>
      if command.maxArguments?.any (· < arguments.length) then .error (.tooManyArguments command)
      else .ok (some { command, rest, arguments })

/-- The automaton identifier among the arguments at a position from 0. -/
def identifier (i : Invocation) (position : Nat) : Except CommandError Identifier :=
  match i.arguments[position]? with
  | none => .error (.missingIdentifier (position + 1))
  | some token => (Identifier.read token).mapError (.notIdentifier (String.ofList token))

end Invocation

end FiniteAutomata
