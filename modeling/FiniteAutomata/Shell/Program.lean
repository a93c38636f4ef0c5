import FiniteAutomata.Session.Execution
import FiniteAutomata.Shell.Arguments
import FiniteAutomata.Shell.Input

/-!
# The shell

The shell opens the files of its arguments, greets, and executes one line after another until the lines end or one of
them is `exit`. What it writes is a list of `Emission`s; `transcript` is all that it writes for given
arguments and input, and `Main` writes the same pieces as it goes along.
-/
namespace FiniteAutomata.Shell

/-- A text for standard output or for standard error. -/
inductive Emission
  | out (text : String)
  | err (text : String)
  deriving DecidableEq, Repr

def version : String := "0.1.0"

def prompt : Emission := .out "fsa> "

def farewell : Emission := .out "Goodbye!\n"

def complaint (message : String) : Emission := .err s!"Error: {message}\n"

def banner : Emission := .out s!"fsa {version}: type 'help' for commands\n"

def helpText : String := "\n".intercalate [
  "Load, combine and query finite automata",
  "",
  UsageError.usage [],
  "",
  "Arguments:",
  "  [FILE]...  Automaton files to open on startup",
  "",
  "Options:",
  "      --log-level <LEVEL>  Log level, overriding RUST_LOG",
  "      --no-banner          Do not print the greeting",
  "  -h, --help               Print help",
  "  -V, --version            Print version",
  ""]

def openFile (read : Reader) (s : Session) (path : String) : Session × Emission :=
  match s.load read path with
  | .ok (id, s) => (s, .out s!"opened {path} as automaton {id}\n")
  | .error e => (s, complaint e.message)

def openFiles (read : Reader) (s : Session) : List String → Session × List Emission
  | [] => (s, [])
  | path :: rest =>
    let (s, first) := openFile read s path
    let (s, others) := openFiles read s rest
    (s, first :: others)

def greeting (o : Options) : List Emission := if o.banner then [banner] else []

/-- The session after a line and what the line makes the shell write; `none` if the line ends the shell. -/
def reply (read : Reader) (s : Session) (line : String) : Option (Session × List Emission) :=
  match s.execute read line with
  | (s, .ok (.output text)) => some (s, if text = "" then [] else [.out (text ++ "\n")])
  | (_, .ok .exit) => none
  | (s, .error e) => some (s, [complaint e.message])

def converse (read : Reader) (s : Session) : List String → List Emission
  | [] => [prompt, farewell]
  | line :: rest =>
    match reply read s line with
    | none => [prompt, farewell]
    | some (s, answer) => prompt :: answer ++ converse read s rest

/-- What a run of the shell comes to: its exit status and what it has written. -/
structure Transcript where
  status : Nat
  emissions : List Emission
  deriving DecidableEq, Repr

namespace Transcript

def stdout (t : Transcript) : String :=
  String.join (t.emissions.map fun | .out text => text | .err _ => "")

def stderr (t : Transcript) : String :=
  String.join (t.emissions.map fun | .out _ => "" | .err text => text)

end Transcript

/-- The answer to arguments that do not start a session. -/
def usageFault (e : UsageError) : Transcript := ⟨2, [.err e.message]⟩

def transcript (read : Reader) (arguments : List String) (input : String) : Transcript :=
  match Arguments.read arguments with
  | .error e => usageFault e
  | .ok .help => ⟨0, [.out helpText]⟩
  | .ok .version => ⟨0, [.out s!"fsa {version}\n"]⟩
  | .ok (.run o) =>
    let (s, opening) := openFiles read .empty o.files
    ⟨0, opening ++ greeting o ++ converse read s (inputLines input)⟩

end FiniteAutomata.Shell
