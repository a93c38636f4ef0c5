import FiniteAutomata.Text.Similarity
import FiniteAutomata.Text.Terminal

/-!
# Command-line arguments

The arguments of the shell are options and file names in any order; behind `--` everything is a file name.
The value of an option may stand in the next argument or behind an equals sign. A value is not checked
before the next option or the end is reached, so an unknown option is reported before a bad value that
stands in front of it. Messages show what was written as a terminal shows it.
-/
namespace FiniteAutomata.Shell

inductive LogLevel
  | off
  | error
  | warn
  | info
  | debug
  | trace
  deriving DecidableEq, Repr

def LogLevel.ofName? (name : String) : Option LogLevel :=
  match String.ofList (name.toList.map Char.toLower) with
  | "off" => some .off
  | "error" => some .error
  | "warn" => some .warn
  | "info" => some .info
  | "debug" => some .debug
  | "trace" => some .trace
  | _ => none

structure Options where
  files : List String
  logLevel : Option LogLevel
  banner : Bool
  deriving DecidableEq, Repr

inductive Request
  | run (options : Options)
  | help
  | version
  deriving DecidableEq, Repr

inductive Parameter
  | files
  | logLevel
  | noBanner
  | help
  | version
  deriving DecidableEq, Repr

namespace Parameter

/-- The parameters that are set by an option, with the long name of the option. -/
def named : List (Parameter × String) :=
  [(logLevel, "log-level"), (noBanner, "no-banner"), (help, "help"), (version, "version")]

def ofLongName? (name : String) : Option Parameter :=
  (named.find? fun p => p.2 = name).map (·.1)

def ofShortName? : Char → Option Parameter
  | 'h' => some help
  | 'V' => some version
  | _ => none

/-- How messages write a parameter that can be given. -/
def render : Parameter → String
  | files => "[FILE]..."
  | logLevel => "--log-level <LEVEL>"
  | noBanner => "--no-banner"
  | help => "--help"
  | version => "--version"

def suggestionThreshold : Float := 0.7

/-- The option whose name is most like an unknown one, if any is like it; of equals the last. -/
def suggestion? (name : String) : Option Parameter :=
  let likeness p := Text.similarity name.toList (Prod.snd p).toList
  let candidates := named.filter fun p => suggestionThreshold < likeness p
  let best := candidates.foldl (fun best p =>
    match best with
    | none => some p
    | some q => if likeness p < likeness q then some q else some p) none
  best.map (·.1)

end Parameter

/-- Why the arguments cannot be followed; `used` are the parameters that the usage line lists, or that have
been set before an unexpected value. -/
inductive UsageError
  | unknownOption (written : String) (suggestion : Option Parameter) (used : List Parameter)
  | missingValue (parameter : Parameter)
  | invalidLevel (value : String)
  | repeated (parameter : Parameter)
  | unexpectedValue (value : String) (parameter : Parameter) (used : List Parameter)
  deriving DecidableEq, Repr

namespace UsageError

def usageOf (parts : List String) : String := " ".intercalate ("Usage: fsa" :: parts)

/-- The usage line that lists parameters. Files that are among them are demanded. -/
def usage (used : List Parameter) : String :=
  let options := if used = [] then ["[OPTIONS]"] else (used.filter (· ≠ .files)).map Parameter.render
  usageOf (options ++ [if .files ∈ used then "<FILE>..." else Parameter.files.render])

/-- The parameters of a session, as a choice. -/
def sessionParameters : String :=
  "<" ++ "|".intercalate ["FILE", Parameter.logLevel.render, Parameter.noBanner.render] ++ ">"

/-- The usage line for a value that `p` does not take. If some parameter of a session has been set, it
offers them all. -/
def usageWithout (p : Parameter) (used : List Parameter) : String :=
  if used = [] then usage [p]
  else match p with
    | .help | .version => usageOf [p.render, sessionParameters]
    | _ => usageOf [sessionParameters]

def shown (written : String) : String := String.ofList (Text.shown written.toList)

def paragraphs : UsageError → List String
  | unknownOption written none used =>
    let written := shown written
    [s!"unexpected argument '{written}' found",
      s!"  tip: to pass '{written}' as a value, use '-- {written}'", usage used]
  | unknownOption written (some p) used =>
    ["unexpected argument '" ++ shown written ++ "' found",
      "  tip: a similar argument exists: '" ++ (Parameter.named.lookup p).elim "" ("--" ++ ·) ++ "'",
      usage used]
  | missingValue p => ["a value is required for '" ++ p.render ++ "' but none was supplied"]
  | invalidLevel value =>
    ["invalid value '" ++ shown value ++ "' for '" ++ Parameter.logLevel.render
      ++ "': attempted to convert a string that doesn't match an existing log level"]
  | repeated p =>
    ["the argument '" ++ p.render ++ "' cannot be used multiple times", usage []]
  | unexpectedValue value p used =>
    ["unexpected value '" ++ shown value ++ "' for '" ++ p.render
      ++ "' found; no more were expected", usageWithout p used]

def message (e : UsageError) : String :=
  "error: " ++ "\n\n".intercalate (e.paragraphs ++ ["For more information, try '--help'.\n"])

end UsageError

/-- Values that have been read and not yet been checked. -/
inductive Pending
  | nothing
  | level (value : Option String)
  | names (names : List String)
  deriving DecidableEq, Repr

/-- The arguments read so far; `used` lists the parameters that have been set, in order. -/
structure Arguments where
  files : List String
  logLevel : Option LogLevel
  used : List Parameter
  pending : Pending
  deriving DecidableEq, Repr

namespace Arguments

def none : Arguments := ⟨[], .none, [], .nothing⟩

def use (a : Arguments) (p : Parameter) : Arguments :=
  if p ∈ a.used then a else { a with used := a.used ++ [p] }

/-- Takes over the pending values; answers also what is wrong with them. -/
def settle (a : Arguments) : Arguments × Option UsageError :=
  let rest := { a with pending := .nothing }
  match a.pending with
  | .nothing => (rest, .none)
  | .level .none => (rest, some (.missingValue .logLevel))
  | .level (some value) =>
    if .logLevel ∈ a.used then
      ({ rest with used := a.used.erase .logLevel }, some (.repeated .logLevel))
    else match LogLevel.ofName? value with
      | .none => (rest.use .logLevel, some (.invalidLevel value))
      | some level => ({ rest.use .logLevel with logLevel := some level }, .none)
  | .names names =>
    let rest := rest.use .files
    if "" ∈ names then (rest, some (.missingValue .files))
    else ({ rest with files := a.files ++ names }, .none)

def settled (a : Arguments) : Except UsageError Arguments :=
  match a.settle with
  | (a, .none) => .ok a
  | (_, some e) => .error e

def addFile (a : Arguments) (name : String) : Except UsageError Arguments :=
  match a.pending with
  | .names names => .ok { a with pending := .names (names ++ [name]) }
  | _ => do return { ← a.settled with pending := .names [name] }

/-- What one argument leads to: more to read, or an answer that ends the reading. -/
abbrev Step := Except UsageError (Sum Arguments Request)

def raise (a : Arguments) (p : Parameter) : Step := do
  let a ← a.settled
  match p with
  | .help => return .inr .help
  | .version => return .inr .version
  | _ => if p ∈ a.used then .error (.repeated p) else return .inl (a.use p)

def unknownLong (a : Arguments) (name : String) : UsageError :=
  let a := a.settle.1
  match Parameter.suggestion? name with
  | .none => .unknownOption ("--" ++ name) .none a.used
  | some p => .unknownOption ("--" ++ name) (some p) (a.use p).used

/-- An argument that begins with two dashes; `value` stands behind an equals sign. -/
def readLong (a : Arguments) (name : String) (value : Option String) : Step :=
  match Parameter.ofLongName? name, value with
  | .none, _ => .error (a.unknownLong name)
  | some .logLevel, .none => do return .inl { ← a.settled with pending := .level .none }
  | some .logLevel, some v => do
    let a ← a.settled
    return .inl (← { a with pending := .level (some v) }.settled)
  | some p, some v => .error (.unexpectedValue v p a.used)
  | some p, .none => a.raise p

/-- The letters behind a single dash; none of them takes a value. -/
def readShort (a : Arguments) : List Char → Step
  | [] => .ok (.inl a)
  | c :: rest =>
    match Parameter.ofShortName? c with
    | .none => .error (.unknownOption (String.ofList ['-', c]) .none [])
    | some p => do
      match ← a.raise p with
      | .inl a => a.readShort rest
      | .inr answer => return .inr answer

def splitAtEquals (s : List Char) : String × Option String :=
  match s.dropWhile (· ≠ '=') with
  | [] => (String.ofList s, .none)
  | _ :: value => (String.ofList (s.takeWhile (· ≠ '=')), some (String.ofList value))

/-- One argument in front of any `--`. -/
def readArgument (a : Arguments) (argument : String) : Step :=
  match argument.toList with
  | '-' :: '-' :: long => let (name, value) := splitAtEquals long; a.readLong name value
  | '-' :: short@(_ :: _) => a.readShort short
  | _ =>
    match a.pending with
    | .level .none => .ok (.inl { a with pending := .level (some argument) })
    | _ => do return .inl (← a.addFile argument)

def finish (a : Arguments) : Except UsageError Request := do
  let a ← a.settled
  return .run { files := a.files, logLevel := a.logLevel, banner := .noBanner ∉ a.used }

def readFrom (a : Arguments) : List String → Except UsageError Request
  | [] => a.finish
  | "--" :: names => do (← names.foldlM addFile a).finish
  | argument :: rest => do
    match ← a.readArgument argument with
    | .inl a => a.readFrom rest
    | .inr answer => return answer

def read (arguments : List String) : Except UsageError Request := none.readFrom arguments

end Arguments

end FiniteAutomata.Shell
