import FiniteAutomata.Shell.Program

/-!
# The program

The shell on the real standard streams and files. Everything it decides is decided in `FiniteAutomata.Shell`.
-/
namespace FiniteAutomata.Shell

def emit : Emission → IO Unit
  | .out text => do
    let stream ← IO.getStdout
    stream.putStr text
    stream.flush
  | .err text => do
    let stream ← IO.getStderr
    stream.putStr text

def readErrorOf : IO.Error → ReadError
  | .noFileOrDirectory .. => .notFound
  | .inappropriateType _ 21 _ => .isDirectory
  | .inappropriateType .. => .notDirectory
  | e => .other (toString e)

/-- The text of a file now, as a reader that knows only this file. -/
def readerFor (path : String) : IO Reader := do
  let content ← (IO.FS.readBinFile path).toBaseIO
  return fun _ =>
    match content with
    | .error e => .error (readErrorOf e)
    | .ok bytes =>
      match String.fromUTF8? bytes with
      | some text => .ok text
      | none => .error .notUtf8

def readerForLine (line : String) : IO Reader :=
  match Session.requestedPath? line with
  | some path => readerFor path
  | none => return fun _ => .error .notFound

/-- Prompts for one line after another. -/
partial def prompting (input : IO.FS.Stream) (s : Session) : IO Unit := do
  emit prompt
  let piece ← input.getLine
  if piece.isEmpty then return
  let line := inputLine piece.toList
  match reply (← readerForLine line) s line with
  | none => return
  | some (s, answer) =>
    answer.forM emit
    prompting input s

def opening (s : Session) (path : String) : IO Session := do
  let (s, emission) := openFile (← readerFor path) s path
  emit emission
  return s

def start (o : Options) : IO Unit := do
  let s ← o.files.foldlM opening .empty
  (greeting o).forM emit
  prompting (← IO.getStdin) s
  emit farewell

end FiniteAutomata.Shell

open FiniteAutomata.Shell in
def main (arguments : List String) : IO UInt32 := do
  match Arguments.read arguments with
  | .ok (.run o) =>
    start o
    return 0
  | _ =>
    let t := transcript (fun _ => .error .notFound) arguments ""
    t.emissions.forM emit
    return UInt32.ofNat t.status
