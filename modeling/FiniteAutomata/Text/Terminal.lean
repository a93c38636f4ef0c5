/-!
# What a terminal shows

A terminal takes some of what is written to it as instructions: control characters, and sequences that an escape
character begins. `shown` is a text without them, so that it can be put into a message. Tabs, line feeds, form feeds and
carriage returns are kept, except in the strings that some sequences contain.
-/
namespace FiniteAutomata.Text

namespace Terminal

/-- What the next character of a text may belong to. -/
inductive Place
  | text
  /-- The character that says what kind of sequence begins. -/
  | escape
  | escapeIntermediate
  | controlSequence
  /-- The header of a device control string: its beginning, its parameters, and what may follow them. -/
  | deviceEntry
  | deviceParameter
  | deviceIntermediate
  /-- A string up to its terminator, or what follows a malformed header. -/
  | stringBody
  | systemCommand
  deriving DecidableEq, Repr

def escapeChar : Char := '\x1b'

/-- These two characters end any sequence. -/
def isCancel (c : Char) : Bool := c == '\x18' || c == '\x1a'

/-- The controls that a terminal shows as space. -/
def isLayout (c : Char) : Bool := c == '\t' || c == '\n' || c == '\x0c' || c == '\r'

def isAscii (c : Char) : Bool := c.toNat < 0x80

/-- Whether a character of plain text is shown. -/
def isShownInText (c : Char) : Bool := isLayout c || !isAscii c || (' ' ≤ c && c ≤ '~')

/-- Whether a layout control is shown within a sequence. -/
def Place.showsLayout : Place → Bool
  | .escape | .escapeIntermediate | .controlSequence => true
  | _ => false

/-- One of the bytes of a character in UTF-8 is 9c, which by itself ends a string. -/
def hasTerminatorByte (c : Char) : Bool := (String.utf8EncodeChar c).contains 0x9c

/-- The place behind a character within a sequence. -/
def Place.next (p : Place) (c : Char) : Place :=
  if isCancel c then .text
  else if c = escapeChar then .escape
  else match p with
    | .text => .text
    | .escape =>
      if ' ' ≤ c ∧ c ≤ '/' then .escapeIntermediate
      else if c = '[' then .controlSequence
      else if c = ']' then .systemCommand
      else if c = 'P' then .deviceEntry
      else if c = 'X' ∨ c = '^' ∨ c = '_' then .stringBody
      else if '0' ≤ c ∧ c ≤ '~' then .text
      else .escape
    | .escapeIntermediate => if '0' ≤ c ∧ c ≤ '~' then .text else .escapeIntermediate
    | .controlSequence => if '@' ≤ c ∧ c ≤ '~' then .text else .controlSequence
    | .deviceEntry =>
      if ' ' ≤ c ∧ c ≤ '/' then .deviceIntermediate
      else if '0' ≤ c ∧ c ≤ '?' then .deviceParameter
      else if '@' ≤ c ∧ c ≤ '~' then .stringBody
      else .deviceEntry
    | .deviceParameter =>
      if ' ' ≤ c ∧ c ≤ '/' then .deviceIntermediate
      else if '<' ≤ c ∧ c ≤ '~' then .stringBody
      else .deviceParameter
    | .deviceIntermediate => if '0' ≤ c ∧ c ≤ '~' then .stringBody else .deviceIntermediate
    | .stringBody => if hasTerminatorByte c then .text else .stringBody
    | .systemCommand => if c = '\x07' then .text else .systemCommand

/-- What is shown of a text from some place on. A layout control that is shown within a sequence interrupts it: what
follows is shown like plain text up to the next control, which is where the sequence goes on. Characters
beyond ASCII in between end the sequence. -/
def shownFrom (place : Place) (interrupted : Bool) : List Char → List Char
  | [] => []
  | c :: rest =>
    if interrupted ∨ place = .text then
      if isShownInText c then
        c :: shownFrom (if isAscii c then place else .text) interrupted rest
      else
        shownFrom (place.next c) false rest
    else if isLayout c ∧ place.showsLayout then
      c :: shownFrom place true rest
    else
      shownFrom (place.next c) false rest

end Terminal

def shown (s : List Char) : List Char := Terminal.shownFrom .text false s

end FiniteAutomata.Text
