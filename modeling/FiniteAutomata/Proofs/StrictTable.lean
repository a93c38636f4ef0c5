import FiniteAutomata.Proofs.Parsing
import Mathlib.Data.Fintype.Card

/-!
# Strict tables and whole texts

The check of a strict table first looks for transitions that contradict an earlier one (`checkConflicts_cases`). Then it
compares two numbers with the size of a complete table: that of the transitions, and that of their pairs of source and
symbol without repetitions. If both agree, each cell of the table is written exactly once. With this, reading a
text succeeds if and only if the grammar has a description for it, and gives that description (`parse_eq_ok_iff`,
`parseAs_eq_ok_iff`).
-/
namespace FiniteAutomata

open Text

theorem nodup_eraseDups {α : Type} [BEq α] [LawfulBEq α] (l : List α) : l.eraseDups.Nodup := by
  induction hn : l.length using Nat.strong_induction_on generalizing l with
  | _ n ih =>
    cases l with
    | nil => simp
    | cons a l =>
      have hfilter := List.length_filter_le (fun b => !b == a) l
      rw [List.length_cons] at hn
      rw [List.eraseDups_cons, List.nodup_cons]
      exact ⟨by simp, ih _ (by omega) _ rfl⟩

/-- Nothing goes missing when repetitions are erased only if there are none. -/
theorem length_eraseDups_eq_iff {α : Type} [BEq α] [LawfulBEq α] (l : List α) :
    l.eraseDups.length = l.length ↔ l.Nodup := by
  constructor
  · intro h
    have hsub : l.eraseDups ⊆ l := fun a ha => List.mem_eraseDups.mp ha
    have hperm := ((nodup_eraseDups l).subperm hsub).perm_of_length_le h.ge
    exact hperm.nodup_iff.mp (nodup_eraseDups l)
  · intro h
    have hperm := (List.perm_ext_iff_of_nodup (nodup_eraseDups l) h).mpr fun a => List.mem_eraseDups
    exact hperm.length_eq

/-- The epsilon mark is a character that no alphabet has. -/
theorem Alphabet.size_lt (a : Alphabet) : a.size < Char.numCodePoints := by
  have hnodup : ((epsilonMark :: a.toList).map Char.ordinal).Nodup :=
    (List.nodup_cons.mpr ⟨a.epsilonMark_not_mem, SortedSet.nodup a.symbols⟩).map fun _ _ => Char.ordinal_inj.mp
  simpa [size, Nat.succ_le_iff] using hnodup.length_le_card

namespace Description

variable {header : Header} {numbered : List (Nat × Transition)} {transitions earlier : List Transition}
  {t : Transition} {numStates : Nat} {alphabet : Alphabet}

/-- The pair of source and symbol of a transition, where an epsilon move has no symbol. -/
def key (t : Transition) : Nat × Option Char := (t.source, t.label)

/-- The cells of a complete table. -/
def cells (numStates : Nat) (alphabet : Alphabet) : List (Nat × Option Char) :=
  List.range numStates ×ˢ alphabet.toList.map some

theorem mem_cells {s : Nat} {label : Option Char} :
    (s, label) ∈ cells numStates alphabet ↔ s < numStates ∧ ∃ c ∈ alphabet, label = some c := by
  rw [cells, List.mem_product, List.mem_range, List.mem_map]
  refine and_congr_right fun _ => exists_congr fun c => and_congr_right fun _ => eq_comm

theorem nodup_cells : (cells numStates alphabet).Nodup :=
  List.nodup_range.product ((SortedSet.nodup alphabet.symbols).map (Option.some_injective _))

theorem length_cells : (cells numStates alphabet).length = numStates * alphabet.size := by
  rw [cells, List.length_product, List.length_range, List.length_map, Alphabet.size]

theorem mul_size_lt (h : numStates ≤ 2 ^ 24) : numStates * alphabet.size < 2 ^ 64 :=
  calc numStates * alphabet.size
      ≤ 2 ^ 24 * Char.numCodePoints := Nat.mul_le_mul h alphabet.size_lt.le
    _ < 2 ^ 64 := by decide

theorem tableSize?_eq (h : numStates ≤ 2 ^ 24) :
    tableSize? numStates alphabet.size = some (numStates * alphabet.size) :=
  if_pos (mul_size_lt h)

/-- Whether no two transitions lead from the same state on the same label to different states. -/
def Deterministic (transitions : List Transition) : Prop :=
  ∀ e ∈ transitions, ∀ t ∈ transitions, key e = key t → e.target = t.target

theorem deterministic_nil : Deterministic [] := by simp [Deterministic]

theorem Deterministic.cons (h : Deterministic earlier)
    (ht : ∀ e ∈ earlier, key e = key t → e.target = t.target) : Deterministic (t :: earlier) := by
  unfold Deterministic
  grind [Deterministic]

theorem Deterministic.mono {l : List Transition} (h : Deterministic earlier) (hsub : l ⊆ earlier) :
    Deterministic l :=
  fun e he t ht => h e (hsub he) t (hsub ht)

/-- A transition joins the earlier ones, or it is refused because one of them leads elsewhere. -/
theorem checkConflicts_cons (hearlier : Deterministic earlier) (number source : Nat) (c : Char) (second : Nat)
    (rest : List (Nat × Transition)) :
    (Deterministic (⟨source, some c, second⟩ :: earlier) ∧
      checkConflicts earlier ((number, ⟨source, some c, second⟩) :: rest) =
        checkConflicts (⟨source, some c, second⟩ :: earlier) rest) ∨
    ∃ first, ⟨source, some c, first⟩ ∈ earlier ∧ first ≠ second ∧
      checkConflicts earlier ((number, ⟨source, some c, second⟩) :: rest) =
        .error (.conflictingTransition number source c first second) := by
  rw [checkConflicts]
  cases hfind : earlier.find? fun e => e.source = source ∧ e.label = some c with
  | none =>
    refine .inl ⟨hearlier.cons fun e he hkey => ?_, rfl⟩
    have hne := List.find?_eq_none.mp hfind e he
    rw [decide_eq_true_eq] at hne
    exact absurd (Prod.mk.inj hkey) hne
  | some e =>
    have he := List.mem_of_find?_eq_some hfind
    have hkey := List.find?_some hfind
    rw [decide_eq_true_eq] at hkey
    obtain ⟨_, _, first⟩ := e
    obtain ⟨rfl, rfl⟩ := hkey
    by_cases htarget : first = second
    · subst htarget
      exact .inl ⟨hearlier.cons fun e' he' hkey' => hearlier e' he' _ he hkey', if_pos rfl⟩
    · exact .inr ⟨first, he, htarget, if_neg htarget⟩

/-- All transitions agree with each other, or those before some transition do, and this one is refused. -/
theorem checkConflicts_cases (hearlier : Deterministic earlier) (hlabels : ∀ p ∈ numbered, p.2.label ≠ none) :
    (checkConflicts earlier numbered = .ok () ∧ Deterministic (earlier ++ numbered.map (·.2))) ∨
    ∃ before number source c first second after,
      numbered = before ++ (number, ⟨source, some c, second⟩) :: after ∧
      Deterministic (earlier ++ before.map (·.2)) ∧ ⟨source, some c, first⟩ ∈ earlier ++ before.map (·.2) ∧
      first ≠ second ∧
      checkConflicts earlier numbered = .error (.conflictingTransition number source c first second) := by
  -- What the induction carries is that the transitions seen so far agree with each other.
  induction numbered generalizing earlier with
  | nil => exact .inl ⟨rfl, by simpa⟩
  | cons p rest ih =>
    obtain ⟨number, source, label, second⟩ := p
    obtain ⟨hlabel, hrest⟩ := List.forall_mem_cons.mp hlabels
    obtain ⟨c, rfl⟩ := Option.ne_none_iff_exists'.mp hlabel
    have hmove (t : Transition) (l : List Transition) : earlier ++ t :: l ⊆ t :: earlier ++ l := by
      intro u hu
      simpa [or_left_comm] using hu
    obtain ⟨hcons, hstep⟩ | ⟨first, hfirst, htarget, hstep⟩ :=
      checkConflicts_cons hearlier number source c second rest
    · rw [hstep]
      obtain ⟨hok, hdet⟩ | ⟨before, number', source', c', first, second', after, rfl, hdet, hfirst, htarget, herror⟩ :=
        ih hcons hrest
      · exact .inl ⟨hok, hdet.mono (hmove _ _)⟩
      · refine .inr ⟨(number, _) :: before, number', source', c', first, second', after, rfl,
          hdet.mono (hmove _ _), ?_, htarget, herror⟩
        simpa [or_left_comm] using hfirst
    · exact .inr ⟨[], number, source, c, first, second, rest, rfl, by simpa, by simpa, htarget, hstep⟩

/-- No conflict is found where no pair of source and symbol comes twice. -/
theorem checkConflicts_of_nodup (hlabels : ∀ p ∈ numbered, p.2.label ≠ none)
    (hnodup : (numbered.map fun t => key t.2).Nodup) : checkConflicts [] numbered = .ok () := by
  obtain ⟨hok, -⟩ | ⟨before, number, source, c, first, second, after, rfl, -, hfirst, -⟩ :=
    checkConflicts_cases deterministic_nil hlabels
  · exact hok
  · -- The transition that is refused has the key of an earlier one.
    obtain ⟨p, hp, hfirst⟩ := List.mem_map.mp hfirst
    rw [List.map_append, List.nodup_append] at hnodup
    have hkey : key p.2 = (source, some c) := by rw [hfirst, key]
    exact absurd hkey (hnodup.2.2 _ (List.mem_map_of_mem hp) _ List.mem_cons_self)

/-- A table is complete if its transitions are its cells in some order. -/
theorem isComplete_iff_perm (hmem : ∀ t ∈ transitions, key t ∈ cells numStates alphabet) :
    IsComplete numStates alphabet transitions ↔
      (transitions.map key).Perm (cells numStates alphabet) := by
  have hcount (s : Nat) (label : Option Char) : (transitions.map key).count (s, label) =
      transitions.countP fun t => t.source = s ∧ t.label = label := by
    rw [List.count, List.countP_map]
    refine List.countP_congr fun t _ => ?_
    simp [key]
  rw [List.perm_iff_count]
  constructor
  · rintro h ⟨s, label⟩
    by_cases hcell : (s, label) ∈ cells numStates alphabet
    · rw [List.count_eq_one_of_mem nodup_cells hcell, hcount]
      obtain ⟨hs, c, hc, rfl⟩ := mem_cells.mp hcell
      exact h s hs c hc
    · rw [List.count_eq_zero_of_not_mem hcell, List.count_eq_zero]
      intro hkey
      obtain ⟨t, ht, htkey⟩ := List.mem_map.mp hkey
      exact hcell (htkey ▸ hmem t ht)
  · intro h s hs c hc
    rw [← hcount, h]
    exact List.count_eq_one_of_mem nodup_cells (mem_cells.mpr ⟨hs, c, hc, rfl⟩)

theorem checkTable_eq_ok_iff (hle : header.numStates ≤ 2 ^ 24)
    (hmem : ∀ t ∈ numbered.map (·.2), key t ∈ cells header.numStates header.alphabet) :
    checkTable header numbered = .ok () ↔
      IsComplete header.numStates header.alphabet (numbered.map (·.2)) := by
  have hkeys : (numbered.map fun t => (t.2.source, t.2.label)) = (numbered.map (·.2)).map key := by
    rw [List.map_map]
    rfl
  rw [isComplete_iff_perm hmem]
  simp only [checkTable, tableSize?_eq hle, bind_eq_ok_iff, hkeys, ← length_cells]
  constructor
  · rintro ⟨-, -, h⟩
    split at h
    · next hcounts =>
      have hlength : ((numbered.map (·.2)).map key).length = numbered.length := by simp
      -- No cell comes twice, all are cells of the table, and there are as many of them as it has.
      have hnodup : ((numbered.map (·.2)).map key).Nodup := by
        rw [← length_eraseDups_eq_iff, hcounts.2, hlength, hcounts.1]
      have hsub : (numbered.map (·.2)).map key ⊆ cells header.numStates header.alphabet := by
        intro k hk
        obtain ⟨t, ht, rfl⟩ := List.mem_map.mp hk
        exact hmem t ht
      exact (hnodup.subperm hsub).perm_of_length_le (by rw [hlength, hcounts.1])
    · cases h
  · intro hperm
    have hnodup := hperm.nodup_iff.mpr nodup_cells
    have hlength : numbered.length = (cells header.numStates header.alphabet).length := by
      simpa using hperm.length_eq
    have hlabels : ∀ p ∈ numbered, p.2.label ≠ none := by
      intro p hp hnone
      obtain ⟨-, c, -, hc⟩ := mem_cells.mp (hmem p.2 (List.mem_map_of_mem hp))
      rw [hnone] at hc
      cases hc
    refine ⟨(), checkConflicts_of_nodup hlabels ?_, ?_⟩
    · rw [List.map_map] at hnodup
      exact hnodup
    · rw [if_pos]
      rw [(length_eraseDups_eq_iff _).mpr hnodup, hperm.length_eq]
      exact ⟨hlength, rfl⟩

/-- No epsilon move stands in a strict text, so each of its transition lines fills a cell. -/
theorem key_mem_cells {content : List (List Char)}
    (h : List.Forall₂ (IsTransitionLine .strict numStates alphabet) content transitions) :
    ∀ t ∈ transitions, key t ∈ cells numStates alphabet := by
  intro t ht
  obtain ⟨line, -, first, c, third, -, -, hsource, hlabel, -, -⟩ := exists_of_forall₂_right h t ht
  obtain ⟨hc, hlabel⟩ | ⟨hmode, -⟩ := hlabel
  · exact mem_cells.mpr ⟨hsource, c, hc, hlabel⟩
  · cases hmode

theorem checkTable_eq_ok_iff_of_lines {content : List (List Char)} (hle : header.numStates ≤ 2 ^ 24)
    (hmode : header.mode = .strict)
    (h : List.Forall₂ (IsTransitionLine header.mode header.numStates header.alphabet) content
      (numbered.map (·.2))) :
    checkTable header numbered = .ok () ↔
      IsComplete header.numStates header.alphabet (numbered.map (·.2)) := by
  rw [hmode] at h
  exact checkTable_eq_ok_iff hle (key_mem_cells h)

theorem ofLines_eq_ok_iff {forced : Option Mode} {text : List Char} {d : Description} :
    ofLines forced (lines text) = .ok d ↔
      Describes text d ∧ d.mode = forced.getD d.kind.mode := by
  have hcheck (header : Header) (numbered : List (Nat × Transition)) :
      (do
        if header.mode = .strict then checkTable header numbered
        return { header with transitions := numbered.map (·.2) }) = Except.ok d ↔
      (header.mode = .strict → checkTable header numbered = .ok ()) ∧
        { header with transitions := numbered.map (·.2) } = d := by
    by_cases hmode : header.mode = .strict
    · simp only [hmode, if_true, true_imp_iff, bind_eq_ok_iff, pure_eq_ok_iff, exists_and_right]
      exact and_congr_left fun _ => ⟨fun ⟨(), h⟩ => h, fun h => ⟨(), h⟩⟩
    · simp only [hmode, if_false, false_imp_iff, true_and, pure_eq_ok_iff]
  simp only [ofLines, bind_eq_ok_iff, readHeader_eq_ok_iff, hcheck]
  constructor
  · rintro ⟨header, ⟨hheader, hmode⟩, numbered, hnumbered, htable, rfl⟩
    have hlines := readTransitions_eq_ok_iff.mp ⟨numbered, hnumbered, rfl⟩
    exact ⟨⟨hheader, hlines, fun hstrict =>
      (checkTable_eq_ok_iff_of_lines hheader.numStates_le hstrict hlines).mp (htable hstrict)⟩, hmode⟩
  · rintro ⟨⟨hheader, hlines, hcomplete⟩, hmode⟩
    obtain ⟨numbered, hnumbered, htransitions⟩ := readTransitions_eq_ok_iff.mpr hlines
    refine ⟨d.toHeader, ⟨hheader, hmode⟩, numbered, hnumbered, fun hstrict => ?_, ?_⟩
    · rw [← htransitions] at hlines hcomplete
      exact (checkTable_eq_ok_iff_of_lines hheader.numStates_le hstrict hlines).mpr
        (hcomplete hstrict)
    · rw [htransitions]

/-- A text reads as a description if and only if it describes it, in the mode that its tag asks for. -/
theorem parse_eq_ok_iff (text : String) (d : Description) :
    parse text = .ok d ↔ Describes text.toList d ∧ d.mode = d.kind.mode :=
  ofLines_eq_ok_iff

/-- A text reads as a description in a given mode if and only if it describes it in that mode. -/
theorem parseAs_eq_ok_iff (mode : Mode) (text : String) (d : Description) :
    parseAs mode text = .ok d ↔ Describes text.toList d ∧ d.mode = mode :=
  ofLines_eq_ok_iff

end Description

end FiniteAutomata
