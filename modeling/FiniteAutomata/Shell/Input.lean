import FiniteAutomata.Text.Grapheme.Cluster

/-!
# Input lines

The lines that the shell executes. A line ends at a line feed, with or without a carriage return in front of it, and
a backspace erases what was typed before it: one grapheme cluster, the way a typist sees characters.
-/
namespace FiniteAutomata.Shell

/-- What has been typed, as a stack of characters, and the sizes in bytes of its clusters. -/
structure Typed where
  characters : List Char
  sizes : List UInt8
  deriving DecidableEq, Repr

namespace Typed

def nothing : Typed := ⟨[], []⟩

/-- Takes characters of at least `size` bytes off a stack. -/
def takeOff (size : Nat) : List Char → List Char
  | [] => []
  | c :: rest => if size = 0 then c :: rest else takeOff (size - c.utf8Size) rest

/-- Erases the last cluster. Its size is known by the lowest byte, so of a cluster that is larger only
the end is erased. -/
def erase (t : Typed) : Typed :=
  match t.sizes with
  | [] => t
  | size :: sizes => ⟨takeOff size.toNat t.characters, sizes⟩

def enter (t : Typed) (cluster : List Char) : Typed :=
  if cluster = ['\x08'] then t.erase
  else ⟨cluster.reverse ++ t.characters, (String.ofList cluster).utf8ByteSize.toUInt8 :: t.sizes⟩

end Typed

def typed (s : List Char) : List Char :=
  ((Text.clusters s).foldl Typed.enter .nothing).characters.reverse

/-- Drops a line feed at the end, and with it a carriage return in front of it. -/
def dropLineEnd (s : List Char) : List Char :=
  if s.getLast? = some '\n' then
    let s := s.dropLast
    if s.getLast? = some '\r' then s.dropLast else s
  else s

/-- The line that a piece of the input with its end stands for. -/
def inputLine (piece : List Char) : String :=
  let s := dropLineEnd piece
  String.ofList (if '\x08' ∈ s then typed s else s)

/-- The lines of an input; what follows the last line feed is a line only if it is not empty. -/
def inputLines (input : String) : List String :=
  (input.toList.splitBy fun c _ => c ≠ '\n').map inputLine

end FiniteAutomata.Shell
