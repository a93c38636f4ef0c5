import FiniteAutomata.Proofs.Registries
import Mathlib.Data.List.Induction
import Mathlib.Data.List.Infix
import Mathlib.Data.List.Nodup

/-!
# What a registry remembers

A registry gives its identifiers in turn, so the identifier with number `k` belongs to the value that was inserted as the
`k`-th. The calls made so far determine everything that a registry answers and holds (`Registry.followsHistory`): a
value is there from the call that inserts it to the next one that removes it, and it never comes back. The entries
stay in ascending order and the identifiers in use never exceed the number of insertions (`Registry.Numbered`), so a
new identifier meets none that is in use.
-/
namespace FiniteAutomata

namespace Identifier

theorem compare_eq_gt_iff {a b : Identifier} : compare a b = .gt ↔ b.value < a.value :=
  Std.compare_eq_gt (a := a.value) (b := b.value)

end Identifier

namespace Registry

variable {α : Type}

/-- Takes the first entry with an identifier out of a list; the answer begins with its value, if there is one. -/
def takeEntry (id : Identifier) : List (Identifier × α) → Option α × List (Identifier × α)
  | [] => (none, [])
  | e :: rest =>
    if e.1 = id then (some e.2, rest)
    else ((takeEntry id rest).1, e :: (takeEntry id rest).2)

/-- Removes a value and answers it, in one pass over the entries. -/
def take (id : Identifier) (r : Registry α) : Option α × Registry α :=
  ((takeEntry id r.entries).1, { r with entries := (takeEntry id r.entries).2 })

/-- The entries stand in ascending order, and no identifier is used before its turn: so many values have been
inserted. -/
structure Numbered (r : Registry α) (count : Nat) : Prop where
  last_eq : r.supply.last.toNat = count
  ascending : r.identifiers.Pairwise (·.value < ·.value)
  le_count : ∀ id ∈ r.identifiers, id.value.toNat ≤ count

theorem numbered_empty : (empty : Registry α).Numbered 0 := by
  constructor
  · rfl
  · exact .nil
  · intro id hid
    cases hid

theorem takeEntry_eq {id : Identifier} {entries : List (Identifier × α)} (h : (entries.map (·.1)).Nodup) :
    takeEntry id entries = (entries.lookup id, entries.filter (·.1 ≠ id)) := by
  induction entries with
  | nil => rfl
  | cons e rest ih =>
    obtain ⟨key, a⟩ := e
    rw [List.map_cons, List.nodup_cons] at h
    unfold takeEntry
    by_cases hkey : key = id
    · subst hkey
      rw [if_pos rfl, List.lookup_cons_self, List.filter_cons_of_neg (by simp), filter_eq_self_of_not_mem h.1]
    · have hlookup : List.lookup id ((key, a) :: rest) = List.lookup id rest := by
        rw [List.lookup_cons, beq_eq_false_iff_ne.mpr (Ne.symm hkey)]
      rw [if_neg hkey, ih h.2, hlookup, List.filter_cons_of_pos (by simpa using hkey)]

/-- A greater identifier goes behind all others. -/
theorem insertEntry_eq_append {id : Identifier} {a : α} {entries : List (Identifier × α)}
    (h : ∀ e ∈ entries, e.1.value < id.value) : insertEntry id a entries = entries ++ [(id, a)] := by
  induction entries with
  | nil => rfl
  | cons e rest ih =>
    obtain ⟨he, hrest⟩ := List.forall_mem_cons.mp h
    unfold insertEntry
    rw [Identifier.compare_eq_gt_iff.mpr he, ih hrest]
    rfl

namespace Numbered

variable {r : Registry α} {count : Nat} {id : Identifier} {a : α}

theorem nodup (h : r.Numbered count) : r.identifiers.Nodup := by
  refine h.ascending.imp fun {id other} hlt heq => ?_
  rw [heq] at hlt
  exact UInt64.lt_irrefl _ hlt

theorem take_eq (h : r.Numbered count) (id : Identifier) : r.take id = (r.get? id, r.remove id) := by
  unfold take
  rw [takeEntry_eq h.nodup]
  rfl

theorem value_insert (h : r.Numbered count) (hcount : count + 1 < 2 ^ 64) (a : α) :
    (r.insert a).1.value.toNat = count + 1 := Registry.value_insert h.last_eq hcount a

/-- A new value goes behind all that are there. -/
theorem entries_insert (h : r.Numbered count) (hcount : count + 1 < 2 ^ 64) (a : α) :
    (r.insert a).2.entries = r.entries ++ [((r.insert a).1, a)] := by
  refine insertEntry_eq_append fun e he => UInt64.lt_iff_toNat_lt.mpr ?_
  have hle := h.le_count e.1 (List.mem_map_of_mem he)
  exact (Nat.lt_succ_of_le hle).trans_eq (h.value_insert hcount a).symm

theorem insert (h : r.Numbered count) (hcount : count + 1 < 2 ^ 64) (a : α) :
    (r.insert a).2.Numbered (count + 1) := by
  have hvalue := h.value_insert hcount a
  have hidentifiers : (r.insert a).2.identifiers = r.identifiers ++ [(r.insert a).1] := by
    rw [identifiers, h.entries_insert hcount a, List.map_append]
    rfl
  constructor
  · exact hvalue
  · rw [hidentifiers, List.pairwise_append]
    refine ⟨h.ascending, List.pairwise_singleton _ _, fun id hid other hother => ?_⟩
    obtain rfl := List.mem_singleton.mp hother
    have hle := h.le_count id hid
    exact UInt64.lt_iff_toNat_lt.mpr (by omega)
  · intro id hid
    rw [hidentifiers, List.mem_append, List.mem_singleton] at hid
    rcases hid with hid | rfl
    · have hle := h.le_count id hid
      omega
    · omega

/-- Removing a value that is there cuts its entry out and leaves all others in their places. -/
theorem exists_entries_remove (h : r.Numbered count) (hid : r.get? id = some a) :
    ∃ before later, r.entries = before ++ (id, a) :: later ∧ (r.remove id).entries = before ++ later := by
  obtain ⟨before, later, hentries, hbefore⟩ := List.lookup_eq_some_iff.mp hid
  refine ⟨before, later, hentries, ?_⟩
  have hnodup := h.nodup
  rw [identifiers, hentries, List.map_append, List.map_cons, List.nodup_middle, List.nodup_cons,
    ← List.map_append] at hnodup
  rw [remove, hentries, List.filter_append, List.filter_cons_of_neg (by simp), ← List.filter_append,
    filter_eq_self_of_not_mem hnodup.1]

theorem remove (h : r.Numbered count) (id : Identifier) : (r.remove id).Numbered count := by
  have hsublist : (r.remove id).identifiers.Sublist r.identifiers := List.filter_sublist.map _
  constructor
  · exact h.last_eq
  · exact h.ascending.sublist hsublist
  · exact fun other hother => h.le_count other (hsublist.subset hother)

end Numbered

/-- A call of a registry. -/
inductive Call (α : Type)
  | insert (a : α)
  | get (id : Identifier)
  | contains (id : Identifier)
  | remove (id : Identifier)
  deriving DecidableEq

/-- What a registry answers to a call. -/
inductive Answer (α : Type)
  | identifier (id : Identifier)
  | value (a? : Option α)
  | live (yes : Bool)
  deriving DecidableEq

def call (r : Registry α) : Call α → Answer α × Registry α
  | .insert a => (.identifier (r.insert a).1, (r.insert a).2)
  | .get id => (.value (r.get? id), r)
  | .contains id => (.live (r.contains id), r)
  | .remove id => (.value (r.take id).1, (r.take id).2)

/-- The registry that calls make of an empty one. -/
def ofCalls (calls : List (Call α)) : Registry α := calls.foldl (fun r c => (r.call c).2) empty

/-- The values that calls insert, in order. -/
def inserted (calls : List (Call α)) : List α :=
  calls.filterMap fun
    | .insert a => some a
    | _ => none

/-- The calls insert a value as the one with the number of an identifier, and do not remove it afterwards. -/
def Keeps (calls : List (Call α)) (id : Identifier) (a : α) : Prop :=
  ∃ before later, calls = before ++ .insert a :: later ∧
    id.value.toNat = (inserted before).length + 1 ∧ .remove id ∉ later

section Calls

variable {calls before later : List (Call α)} {c : Call α} {id : Identifier} {a : α}

theorem ofCalls_concat : ofCalls (calls ++ [c]) = ((ofCalls calls).call c).2 := by
  simp [ofCalls, List.foldl_append]

theorem inserted_append : inserted (calls ++ later) = inserted calls ++ inserted later :=
  List.filterMap_append ..

theorem length_inserted_le (h : before <+: calls) : (inserted before).length ≤ (inserted calls).length := by
  obtain ⟨later, rfl⟩ := h
  rw [inserted_append, List.length_append]
  omega

/-- A value is kept if it was kept before and is not removed now, or if it is inserted now. -/
theorem keeps_concat_iff : Keeps (calls ++ [c]) id a ↔
    Keeps calls id a ∧ c ≠ .remove id ∨ c = .insert a ∧ id.value.toNat = (inserted calls).length + 1 := by
  constructor
  · rintro ⟨before, later, heq, hid, hremove⟩
    rcases List.eq_nil_or_concat later with rfl | ⟨later, d, rfl⟩
    · obtain ⟨rfl, hc⟩ := List.append_inj' heq rfl
      exact .inr ⟨List.singleton_inj.mp hc, hid⟩
    · have heq : calls ++ [c] = (before ++ .insert a :: later) ++ [d] := by simpa using heq
      obtain ⟨rfl, hc⟩ := List.append_inj' heq rfl
      obtain rfl := List.singleton_inj.mp hc
      rw [List.concat_eq_append, List.mem_append, List.mem_singleton, not_or] at hremove
      exact .inl ⟨⟨before, later, rfl, hid, hremove.1⟩, Ne.symm hremove.2⟩
  · rintro (⟨⟨before, later, rfl, hid, hremove⟩, hc⟩ | ⟨rfl, hid⟩)
    · exact ⟨before, later ++ [c], by simp, hid, by simp [hremove, Ne.symm hc]⟩
    · exact ⟨calls, [], rfl, hid, List.not_mem_nil⟩

theorem Numbered.call {r : Registry α} {count : Nat} (h : r.Numbered count)
    (hcount : count + (inserted [c]).length < 2 ^ 64) :
    (r.call c).2.Numbered (count + (inserted [c]).length) := by
  cases c with
  | insert a => exact h.insert hcount a
  | get id => exact h
  | contains id => exact h
  | remove id =>
    rw [Registry.call, h.take_eq]
    exact h.remove id

theorem numbered_ofCalls (hcount : (inserted calls).length < 2 ^ 64) :
    (ofCalls calls).Numbered (inserted calls).length := by
  induction calls using List.reverseRecOn with
  | nil => exact numbered_empty
  | append_singleton calls c ih =>
    rw [inserted_append, List.length_append] at hcount ⊢
    rw [ofCalls_concat]
    exact (ih (by omega)).call hcount

/-- The registry holds what the calls have kept. -/
theorem get?_ofCalls (hcount : (inserted calls).length < 2 ^ 64) :
    (ofCalls calls).get? id = some a ↔ Keeps calls id a := by
  induction calls using List.reverseRecOn with
  | nil =>
    refine iff_of_false (fun h => by cases h) ?_
    rintro ⟨before, later, heq, -⟩
    simp at heq
  | append_singleton calls c ih =>
    rw [inserted_append, List.length_append] at hcount
    have hcalls : (inserted calls).length < 2 ^ 64 := by omega
    have hnumbered := numbered_ofCalls hcalls
    rw [keeps_concat_iff, ← ih hcalls, ofCalls_concat]
    cases c with
    | insert b =>
      have hvalue := hnumbered.value_insert hcount b
      change ((ofCalls calls).insert b).2.get? id = some a ↔ _
      rw [get?_insert]
      split
      · next hid =>
        subst hid
        -- The new identifier is greater than all that are in use.
        have hfresh : (ofCalls calls).get? ((ofCalls calls).insert b).1 ≠ some a := fun hget => by
          have hle := hnumbered.le_count _ (mem_identifiers_iff.mpr ⟨a, hget⟩)
          omega
        simp [hfresh, hvalue]
      · next hid =>
        have hother : id.value.toNat ≠ (inserted calls).length + 1 := fun heq => by
          refine hid ?_
          cases id
          exact congrArg Identifier.mk (UInt64.toNat_inj.mp (heq.trans hvalue.symm))
        simp [hother]
    | get other => simp [Registry.call]
    | contains other => simp [Registry.call]
    | remove other =>
      rw [Registry.call, hnumbered.take_eq, get?_remove]
      by_cases hid : id = other
      · simp [hid]
      · simp [hid, Ne.symm hid]

/-- What has been removed after its turn is never kept again. -/
theorem not_keeps_of_removed (hid : id.value.toNat ≤ (inserted before).length) :
    ¬ Keeps (before ++ .remove id :: later) id a := by
  induction later using List.reverseRecOn with
  | nil =>
    rw [keeps_concat_iff]
    simp
  | append_singleton later c ih =>
    have hle := length_inserted_le (List.prefix_append before (.remove id :: later))
    have heq : before ++ .remove id :: (later ++ [c]) = (before ++ .remove id :: later) ++ [c] := by simp
    rw [heq, keeps_concat_iff]
    rintro (⟨hkeeps, -⟩ | ⟨-, hid'⟩)
    · exact ih hkeeps
    · omega

end Calls

/-- How the calls before a call determine its answer. -/
def Answers (before : List (Call α)) : Call α → Answer α → Prop
  | .insert _, answer => ∃ id, answer = .identifier id ∧ id.value.toNat = (inserted before).length + 1
  | .get id, answer => ∃ a?, answer = .value a? ∧ ∀ a, a? = some a ↔ Keeps before id a
  | .contains id, answer => ∃ yes, answer = .live yes ∧ (yes = true ↔ ∃ a, Keeps before id a)
  | .remove id, answer => ∃ a?, answer = .value a? ∧ ∀ a, a? = some a ↔ Keeps before id a

/-- At every point of a sequence of calls the registry answers and lists what the calls up to there have kept. -/
structure FollowsHistory (calls : List (Call α)) : Prop where
  answers : ∀ before c, before ++ [c] <+: calls → Answers before c ((ofCalls before).call c).1
  ascending : ∀ before, before <+: calls → (ofCalls before).identifiers.Pairwise (·.value < ·.value)
  mem_identifiers_iff : ∀ before, before <+: calls →
    ∀ id, id ∈ (ofCalls before).identifiers ↔ ∃ a, (ofCalls before).get? id = some a
  size_eq : ∀ before, before <+: calls → (ofCalls before).size = (ofCalls before).identifiers.length
  isEmpty_iff : ∀ before, before <+: calls →
    ((ofCalls before).isEmpty = true ↔ ∀ id, (ofCalls before).get? id = none)
  not_revived : ∀ before id later, before ++ .remove id :: later <+: calls →
    id.value.toNat ≤ (inserted before).length → (ofCalls (before ++ .remove id :: later)).get? id = none

theorem answers_call {before : List (Call α)} {c : Call α} (hcount : (inserted (before ++ [c])).length < 2 ^ 64) :
    Answers before c ((ofCalls before).call c).1 := by
  rw [inserted_append, List.length_append] at hcount
  have hbefore : (inserted before).length < 2 ^ 64 := by omega
  have hnumbered := numbered_ofCalls hbefore
  cases c with
  | insert a => exact ⟨_, rfl, hnumbered.value_insert hcount a⟩
  | get id => exact ⟨_, rfl, fun a => get?_ofCalls hbefore⟩
  | contains id =>
    refine ⟨_, rfl, Option.isSome_iff_exists.trans (exists_congr fun a => get?_ofCalls hbefore)⟩
  | remove id =>
    rw [call, hnumbered.take_eq]
    exact ⟨_, rfl, fun a => get?_ofCalls hbefore⟩

/-- Over any sequence of calls in which the identifiers do not run out, a registry follows the history of the calls. -/
theorem followsHistory (calls : List (Call α)) (hcount : (inserted calls).length < 2 ^ 64) :
    FollowsHistory calls := by
  have hfits {before : List (Call α)} (h : before <+: calls) : (inserted before).length < 2 ^ 64 :=
    (length_inserted_le h).trans_lt hcount
  constructor
  case answers => exact fun before c h => answers_call (hfits h)
  case ascending => exact fun before h => (numbered_ofCalls (hfits h)).ascending
  case mem_identifiers_iff => exact fun before _ id => Registry.mem_identifiers_iff
  case size_eq => exact fun before _ => (List.length_map ..).symm
  case isEmpty_iff =>
    intro before _
    rw [isEmpty, List.isEmpty_iff]
    constructor
    · intro hentries id
      rw [get?, hentries]
      rfl
    · intro hnone
      rw [List.eq_nil_iff_forall_not_mem]
      intro e he
      obtain ⟨a, ha⟩ := Registry.mem_identifiers_iff.mp (List.mem_map_of_mem he)
      rw [hnone] at ha
      cases ha
  case not_revived =>
    intro before id later h hid
    refine Option.eq_none_iff_forall_ne_some.mpr fun a ha => ?_
    exact not_keeps_of_removed hid ((get?_ofCalls (hfits h)).mp ha)

/-- A value is removed too early, one in time, and one more is inserted behind. -/
def removals : List (Call Char) :=
  [.insert 'a', .remove ⟨2⟩, .insert 'b', .remove ⟨1⟩, .insert 'c', .get ⟨1⟩]

theorem followsHistory_removals : (inserted removals).length < 2 ^ 64 ∧ FollowsHistory removals := by
  have hcount : (inserted removals).length < 2 ^ 64 := by decide
  exact ⟨hcount, followsHistory removals hcount⟩

end Registry

end FiniteAutomata
