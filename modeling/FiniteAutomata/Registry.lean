import FiniteAutomata.Text.Numeral

/-!
# Registries

A registry holds values under identifiers that it hands out itself, counting up from 1. An identifier is never handed
out twice, also when its value has been removed.
-/
namespace FiniteAutomata

/-- A 64-bit name for a registered value. -/
structure Identifier where
  value : UInt64
  deriving DecidableEq, Repr

namespace Identifier

instance : Ord Identifier := ⟨compareOn value⟩

instance : ToString Identifier := ⟨fun id => toString id.value.toNat⟩

def read (token : List Char) : Except Text.NumeralError Identifier :=
  (Text.Numeral.read token).map fun n => ⟨n.toUInt64⟩

end Identifier

/-- The counter behind identifiers: the one that was handed out last. -/
structure IdentifierSupply where
  last : UInt64
  deriving DecidableEq, Repr

namespace IdentifierSupply

def fresh : IdentifierSupply := ⟨0⟩

/-- The next identifier, and the counter behind it. -/
def next (s : IdentifierSupply) : Identifier × IdentifierSupply :=
  (⟨s.last + 1⟩, ⟨s.last + 1⟩)

end IdentifierSupply

/-- The values that are held now, in ascending order of their identifiers. -/
structure Registry (α : Type) where
  supply : IdentifierSupply
  entries : List (Identifier × α)
  deriving DecidableEq

namespace Registry

variable {α : Type}

def empty : Registry α := ⟨.fresh, []⟩

/-- Puts an entry in its place, instead of one with the same identifier if there is one. -/
def insertEntry (id : Identifier) (a : α) : List (Identifier × α) → List (Identifier × α)
  | [] => [(id, a)]
  | e :: rest =>
    match compare id e.1 with
    | .lt => (id, a) :: e :: rest
    | .eq => (id, a) :: rest
    | .gt => e :: insertEntry id a rest

/-- Registers a value; the answer begins with its identifier. -/
def insert (a : α) (r : Registry α) : Identifier × Registry α :=
  let (id, supply) := r.supply.next
  (id, ⟨supply, insertEntry id a r.entries⟩)

def get? (r : Registry α) (id : Identifier) : Option α := r.entries.lookup id

def contains (r : Registry α) (id : Identifier) : Bool := (r.get? id).isSome

def remove (r : Registry α) (id : Identifier) : Registry α :=
  { r with entries := r.entries.filter fun e => e.1 ≠ id }

def identifiers (r : Registry α) : List Identifier := r.entries.map (·.1)

def size (r : Registry α) : Nat := r.entries.length

def isEmpty (r : Registry α) : Bool := r.entries.isEmpty

end Registry

end FiniteAutomata
