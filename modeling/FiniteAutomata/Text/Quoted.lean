import FiniteAutomata.Text.Invisible

/-!
# Quoted text

Messages quote what they found so that every character of it can be seen: quotes and backslashes get a backslash,
the usual control characters a letter, and what has no visible form of its own its code point in
hexadecimal digits.
-/
namespace FiniteAutomata.Text

def hexDigits (n : Nat) : List Char := Nat.toDigits 16 n

/-- One character as it stands between two quotes `quote`. -/
def escape (quote c : Char) : List Char :=
  if c = quote ∨ c = '\\' then ['\\', c]
  else if c = '\x00' then ['\\', '0']
  else if c = '\t' then ['\\', 't']
  else if c = '\n' then ['\\', 'n']
  else if c = '\r' then ['\\', 'r']
  else if isInvisible c then
    ['\\', 'u', '\x7b'] ++ hexDigits c.toNat ++ ['\x7d']
  else [c]

def quoted (s : String) : String :=
  String.ofList ('"' :: s.toList.flatMap (escape '"') ++ ['"'])

def quotedChar (c : Char) : String :=
  String.ofList ('\'' :: escape '\'' c ++ ['\''])

end FiniteAutomata.Text
