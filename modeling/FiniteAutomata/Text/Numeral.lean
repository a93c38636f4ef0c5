/-!
# Unsigned numerals

A numeral is an optional plus sign and at least one ASCII digit; leading zeros do not count. Its value
must fit into 64 bits.
-/
namespace FiniteAutomata.Text

inductive NumeralError
  | empty
  | invalidDigit
  | tooLarge
  deriving DecidableEq, Repr

def NumeralError.message : NumeralError → String
  | .empty => "cannot parse integer from empty string"
  | .invalidDigit => "invalid digit found in string"
  | .tooLarge => "number too large to fit in target type"

namespace Numeral

def digit? (c : Char) : Option Nat :=
  if c.isDigit then some (c.toNat - '0'.toNat) else none

def limit : Nat := UInt64.size

/-- Reads on from the value of the digits read so far; the first fault from the left decides. -/
def readDigits (value : Nat) : List Char → Except NumeralError Nat
  | [] => .ok value
  | c :: rest =>
    match digit? c with
    | none => .error .invalidDigit
    | some d => if 10 * value + d < limit then readDigits (10 * value + d) rest else .error .tooLarge

/-- The value of a numeral; a sign with nothing behind it counts as a bad digit. -/
def read : List Char → Except NumeralError Nat
  | [] => .error .empty
  | ['+'] => .error .invalidDigit
  | '+' :: digits => readDigits 0 digits
  | digits => readDigits 0 digits

def read? (s : List Char) : Option Nat := (read s).toOption

end Numeral

end FiniteAutomata.Text
