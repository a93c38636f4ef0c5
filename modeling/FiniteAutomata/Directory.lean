import FiniteAutomata.Text.Split

/-!
# Reading files

`Reader` is what the program knows of files: the text behind a path, or why there is none. `Directory` is a directory
that holds files and nothing else, and `Directory.read` resolves paths in it, component by component, as a
POSIX system does. It lies in the directory for temporary files, and around it there is only what every such
system has.
-/
namespace FiniteAutomata

inductive ReadError
  | notFound
  | isDirectory
  | notDirectory
  | nameTooLong
  | nulInPath
  | notUtf8
  | other (reason : String)
  deriving DecidableEq, Repr

def ReadError.message : ReadError → String
  | .notFound => "No such file or directory (os error 2)"
  | .notDirectory => "Not a directory (os error 20)"
  | .isDirectory => "Is a directory (os error 21)"
  | .nameTooLong => "File name too long (os error 36)"
  | .nulInPath => "file name contained an unexpected NUL byte"
  | .notUtf8 => "stream did not contain valid UTF-8"
  | .other reason => reason

/-- The text of the file at a path. -/
abbrev Reader := String → Except ReadError String

/-- A directory of files, each with its name and its bytes. It has no name itself. -/
structure Directory where
  files : List (String × ByteArray)

namespace Directory

/-- The largest size of a name in a path, in bytes. -/
def maxNameSize : Nat := 255

/-- The size that a path stays below, in bytes. -/
def maxPathSize : Nat := 4096

def find? (d : Directory) (name : String) : Option ByteArray := d.files.lookup name

/-- Where a path has led so far. -/
inductive Place
  | inside
  | root
  | devices
  | temporary
  /-- Another directory in the root; nothing is known to be in it. -/
  | standard
  | file (bytes : ByteArray)

/-- Directories that stand in the root of every system. -/
def standardNames : List String := ["etc", "proc", "sys", "usr", "var"]

def enter (d : Directory) (place : Place) (name : String) : Except ReadError Place :=
  match place, name with
  | .root, "dev" => .ok .devices
  | .root, "tmp" => .ok .temporary
  | .root, _ => if name ∈ standardNames then .ok .standard else .error .notFound
  | .devices, "null" => .ok (.file .empty)
  | .inside, _ =>
    match d.find? name with
    | some bytes => .ok (.file bytes)
    | none => .error .notFound
  | _, _ => .error .notFound

/-- The directory above one; nothing is above the root. -/
def parent : Place → Place
  | .inside => .temporary
  | _ => .root

/-- Where one component of a path leads. Nothing follows a file. -/
def step (d : Directory) (place : Place) (component : List Char) : Except ReadError Place :=
  let name := String.ofList component
  match place with
  | .file _ => .error .notDirectory
  | _ =>
    if name = "" ∨ name = "." then .ok place
    else if name = ".." then .ok (parent place)
    else if maxNameSize < name.utf8ByteSize then .error .nameTooLong
    else d.enter place name

def resolve (d : Directory) (place : Place) (components : List (List Char)) :
    Except ReadError ByteArray := do
  match ← components.foldlM d.step place with
  | .file bytes => return bytes
  | _ => .error .isDirectory

def readBytes (d : Directory) (path : String) : Except ReadError ByteArray :=
  if '\x00' ∈ path.toList then .error .nulInPath
  else if path = "" then .error .notFound
  else if maxPathSize ≤ path.utf8ByteSize then .error .nameTooLong
  else d.resolve (if path.toList.head? = some '/' then .root else .inside) (path.toList.splitOn '/')

def read (d : Directory) : Reader := fun path => do
  match String.fromUTF8? (← d.readBytes path) with
  | some text => .ok text
  | none => .error .notUtf8

end Directory

end FiniteAutomata
