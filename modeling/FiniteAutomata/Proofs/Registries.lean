import FiniteAutomata.Proofs.Tokens
import FiniteAutomata.Registry

/-!
# Registered values stay

Inserting a value makes it the value of its identifier, and removing one takes the value of its identifier away. The
values of all other identifiers stay as they are. An identifier reads as itself in decimal digits.
-/
namespace FiniteAutomata

open Text

namespace Identifier

theorem compare_eq_iff {a b : Identifier} : compare a b = .eq ↔ a = b := by
  obtain ⟨a⟩ := a
  obtain ⟨b⟩ := b
  rw [mk.injEq]
  exact Std.compare_eq_iff_eq (a := a) (b := b)

/-- Whether a text names an identifier: it is a numeral of its value. -/
def IsNamedBy (id : Identifier) (operand : String) : Prop :=
  Numeral.IsNumeral operand.toList id.value.toNat

/-- An identifier can be typed as it is shown. -/
theorem isNamedBy_repr (id : Identifier) : id.IsNamedBy (Nat.repr id.value.toNat) := by
  rw [IsNamedBy, Nat.toList_repr]
  exact Numeral.isNumeral_toDigits id.value.toNat_lt

theorem isWord_repr (id : Identifier) : IsWord (Nat.repr id.value.toNat).toList := by
  rw [Nat.toList_repr]
  exact Numeral.isWord_toDigits _

theorem read_eq_ok_iff {id : Identifier} {token : List Char} :
    read token = .ok id ↔ Numeral.IsNumeral token id.value.toNat := by
  obtain ⟨value⟩ := id
  rw [read, ← Numeral.read_eq_ok_iff]
  cases htoken : Numeral.read token with
  | error e => simp [Except.map]
  | ok n =>
    obtain ⟨-, -, -, -, -, hlt⟩ := Numeral.read_eq_ok_iff.mp htoken
    simp only [Except.map, Except.ok.injEq, mk.injEq]
    rw [← UInt64.toNat_inj, Nat.toUInt64_eq, UInt64.toNat_ofNat_of_lt' hlt]

instance {id : Identifier} {operand : String} : Decidable (id.IsNamedBy operand) :=
  decidable_of_iff (read operand.toList = .ok id) read_eq_ok_iff

end Identifier

namespace Registry

variable {α : Type} {r : Registry α} {id other : Identifier} {a : α}

theorem lookup_insertEntry {entries : List (Identifier × α)} :
    (insertEntry id a entries).lookup other = if other = id then some a else entries.lookup other := by
  induction entries with
  | nil =>
    rw [insertEntry, List.lookup_cons]
    by_cases hid : other = id
    · rw [beq_iff_eq.mpr hid, if_pos hid]
    · rw [beq_eq_false_iff_ne.mpr hid, if_neg hid]
  | cons e rest ih =>
    obtain ⟨key, b⟩ := e
    by_cases hid : other = id
    · subst hid
      rw [if_pos rfl] at ih ⊢
      unfold insertEntry
      split
      · exact List.lookup_cons_self
      · exact List.lookup_cons_self
      · next hgt =>
        have hne : other ≠ key := fun h => by
          rw [Identifier.compare_eq_iff.mpr h] at hgt
          cases hgt
        rw [List.lookup_cons, beq_eq_false_iff_ne.mpr hne]
        exact ih
    · rw [if_neg hid] at ih ⊢
      unfold insertEntry
      split
      · rw [List.lookup_cons, beq_eq_false_iff_ne.mpr hid]
      · next heq =>
        obtain rfl : id = key := Identifier.compare_eq_iff.mp heq
        rw [List.lookup_cons, List.lookup_cons, beq_eq_false_iff_ne.mpr hid]
      · rw [List.lookup_cons, List.lookup_cons, ih]

theorem get?_insert : (r.insert a).2.get? other =
    if other = (r.insert a).1 then some a else r.get? other := lookup_insertEntry

theorem get?_remove : (r.remove id).get? other = if other = id then none else r.get? other := by
  rw [get?, get?, remove]
  induction r.entries with
  | nil => simp
  | cons e rest ih =>
    by_cases he : e.1 = id
    · rw [List.filter_cons_of_neg (by simpa using he), ih, List.lookup_cons, he]
      by_cases hid : other = id
      · rw [if_pos hid, if_pos hid]
      · rw [if_neg hid, if_neg hid, beq_eq_false_iff_ne.mpr hid]
    · rw [List.filter_cons_of_pos (by simpa using he), List.lookup_cons, List.lookup_cons, ih]
      by_cases hid : other = id
      · rw [if_pos hid, if_pos hid, hid, beq_eq_false_iff_ne.mpr (Ne.symm he)]
      · rw [if_neg hid, if_neg hid]

theorem get?_of_get?_remove (h : (r.remove id).get? other = some a) : r.get? other = some a := by
  rw [get?_remove] at h
  split at h
  · cases h
  · exact h

theorem mem_identifiers_iff : id ∈ r.identifiers ↔ ∃ a, r.get? id = some a := by
  rw [← Option.isSome_iff_exists, get?, List.lookup_isSome_iff, identifiers, List.mem_map]
  refine exists_congr fun e => and_congr_right fun _ => ?_
  rw [beq_iff_eq, eq_comm]

theorem filter_eq_self_of_not_mem {entries : List (Identifier × α)} (h : id ∉ entries.map (·.1)) :
    entries.filter (·.1 ≠ id) = entries := by
  apply List.filter_eq_self.mpr
  intro e he
  have hne : e.1 ≠ id := fun heq => h (List.mem_map.mpr ⟨e, he, heq⟩)
  simpa using hne

/-- Nothing is removed under an identifier that is not in use. -/
theorem remove_eq_self (h : r.get? id = none) : r.remove id = r := by
  have hid : id ∉ r.identifiers := by
    rw [mem_identifiers_iff, h]
    simp
  rw [remove, filter_eq_self_of_not_mem hid]

/-- A value gets the number behind that of the last one, as long as the identifiers do not run out. -/
theorem value_insert {count : Nat} (hlast : r.supply.last.toNat = count) (hcount : count + 1 < 2 ^ 64) (a : α) :
    (r.insert a).1.value.toNat = count + 1 := by
  simp only [insert, IdentifierSupply.next, UInt64.toNat_add, UInt64.toNat_one]
  omega

end Registry

end FiniteAutomata
