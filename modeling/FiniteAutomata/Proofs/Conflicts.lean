import FiniteAutomata.Proofs.LineReading
import FiniteAutomata.Proofs.StrictTable

/-!
# Conflicts between lines

A strict table must not lead from one state on one symbol to two states. Its check goes through the transitions in the
order of their lines and finds the first line with a conflict (`Description.checkTable_cases`): its transition leads
elsewhere than an earlier one from the same state on the same symbol. As those agree with each other up to
there, the one on the earliest line stands for all of them.
-/
namespace FiniteAutomata

open Text

namespace Description

variable {forced : Option Mode} {text : List Char} {draft : Draft} {header : Header} {last number : Nat}
  {t u : Transition} {numbered before : List (Nat × Transition)}

/-- Whether a text has a transition in the line of a number. -/
def TransitionAt (text : List Char) (header : Header) (number : Nat) (t : Transition) : Prop :=
  6 ≤ number ∧ IsTransitionLine header.mode header.numStates header.alphabet (lineAt text number) t

/-- Whether the transition of a line leads elsewhere than an earlier one from the same state on the same symbol. -/
def ConflictAt (text : List Char) (header : Header) (number : Nat) : Prop :=
  ∃ t earlier e, TransitionAt text header number t ∧ earlier < number ∧ TransitionAt text header earlier e ∧
    key e = key t ∧ e.target ≠ t.target

/-- The first line with a conflict, and where the first transition from its state on its symbol leads. -/
structure FirstConflict (text : List Char) (header : Header) (number source : Nat) (symbol : Char)
    (first second : Nat) : Prop where
  transition : TransitionAt text header number ⟨source, some symbol, second⟩
  first_ne : first ≠ second
  earliest : ∃ earlier < number, TransitionAt text header earlier ⟨source, some symbol, first⟩ ∧
    ∀ before < earlier, ∀ target, ¬ TransitionAt text header before ⟨source, some symbol, target⟩
  minimal : ∀ before < number, ¬ ConflictAt text header before

theorem TransitionAt.unique (h : TransitionAt text header number t) (h' : TransitionAt text header number u) :
    t = u :=
  h.2.unique h'.2

theorem TransitionAt.le_length (h : TransitionAt text header number t) : number ≤ (lines text).length := by
  by_contra hlt
  have hline := h.2.not_isBlank
  rw [lineAt_of_length_lt (by omega)] at hline
  exact hline (by simp [IsBlank])

theorem FirstConflict.conflictAt {source first second : Nat} {c : Char}
    (h : FirstConflict text header number source c first second) : ConflictAt text header number := by
  obtain ⟨earlier, hlt, hearlier, -⟩ := h.earliest
  exact ⟨_, earlier, _, h.transition, hlt, hearlier, rfl, h.first_ne⟩

theorem FirstConflict.unique {number' source source' first first' second second' : Nat} {c c' : Char}
    (h : FirstConflict text header number source c first second)
    (h' : FirstConflict text header number' source' c' first' second') :
    number = number' ∧ source = source' ∧ c = c' ∧ first = first' ∧ second = second' := by
  obtain rfl : number = number' := by
    by_contra hne
    rcases Nat.lt_or_gt_of_ne hne with hlt | hlt
    · exact h'.minimal number hlt h.conflictAt
    · exact h.minimal number' hlt h'.conflictAt
  have hsecond := h.transition.unique h'.transition
  simp only [Transition.mk.injEq, Option.some_inj] at hsecond
  obtain ⟨rfl, rfl, rfl⟩ := hsecond
  obtain ⟨m, -, hm, hmin⟩ := h.earliest
  obtain ⟨m', -, hm', hmin'⟩ := h'.earliest
  obtain rfl : m = m' := by
    by_contra hne
    rcases Nat.lt_or_gt_of_ne hne with hlt | hlt
    · exact hmin' m hlt first hm
    · exact hmin m' hlt first' hm'
  have hfirst := hm.unique hm'
  simp only [Transition.mk.injEq, true_and] at hfirst
  exact ⟨rfl, rfl, rfl, hfirst, rfl⟩

/-- The transitions that have been read are those of the lines so far, in the order of the lines. -/
theorem transitions_readTo (h : readTo forced text (last + 5) = .ok draft) :
    (∀ number t, (number, t) ∈ draft.transitions ↔
      number ≤ last + 5 ∧ TransitionAt text draft.toHeader number t) ∧
    draft.transitions.Pairwise (·.1 < ·.1) := by
  induction last generalizing draft with
  | zero =>
    have hnil : draft.transitions = [] := by
      rw [readTo_eq, Nat.zero_add] at h
      simp only [readTransitions_take_five, bind_eq_ok_iff, pure_eq_ok_iff] at h
      obtain ⟨_, -, _, rfl, rfl⟩ := h
      rfl
    rw [hnil]
    refine ⟨fun number t => iff_of_false List.not_mem_nil ?_, .nil⟩
    rintro ⟨hle, hge, -⟩
    omega
  | succ last ih =>
    rw [show last + 1 + 5 = last + 5 + 1 by omega, readTo, bind_eq_ok_iff] at h
    obtain ⟨draft', hdraft', hline⟩ := h
    obtain ⟨hmem, hpairwise⟩ := ih hdraft'
    obtain ⟨hblank, rfl⟩ | ⟨-, t, ht, rfl⟩ := readLine_later_eq_ok_iff.mp hline
    · refine ⟨fun number t => ?_, hpairwise⟩
      rw [hmem]
      refine and_congr_left fun ht => ?_
      have hne : number ≠ last + 6 := by
        rintro rfl
        exact ht.2.not_isBlank hblank
      omega
    · have ht : TransitionAt text draft'.toHeader (last + 6) t := ⟨by omega, ht⟩
      refine ⟨fun number u => ?_, List.pairwise_append.mpr ⟨hpairwise, List.pairwise_singleton _ _, ?_⟩⟩
      · rw [List.mem_append, List.mem_singleton, Prod.mk.injEq, hmem]
        constructor
        · rintro (⟨hle, hu⟩ | ⟨rfl, rfl⟩)
          · exact ⟨by omega, hu⟩
          · exact ⟨by omega, ht⟩
        · rintro ⟨hle, hu⟩
          by_cases hnumber : number = last + 6
          · subst hnumber
            exact .inr ⟨rfl, hu.unique ht⟩
          · exact .inl ⟨by omega, hu⟩
      · rintro ⟨number, u⟩ hu p hp
        have hle := ((hmem number u).mp hu).1
        rw [List.mem_singleton.mp hp]
        exact Nat.lt_succ_of_le hle

theorem not_conflictAt (hdet : Deterministic (before.map (·.2)))
    (hmem : ∀ m ≤ number, ∀ t, TransitionAt text header m t → (m, t) ∈ before) :
    ¬ ConflictAt text header number := by
  rintro ⟨t, earlier, e, ht, hlt, he, hkey, htarget⟩
  have he := List.mem_map_of_mem (f := (·.2)) (hmem earlier (by omega) e he)
  have ht := List.mem_map_of_mem (f := (·.2)) (hmem number le_rfl t ht)
  exact htarget (hdet e he t ht hkey)

/-- A transition that is refused stands in the first line with a conflict. -/
theorem firstConflict_of_split {after : List (Nat × Transition)} {m source first second : Nat} {c : Char}
    (hmem : ∀ m u, (m, u) ∈ before ++ (number, ⟨source, some c, second⟩) :: after ↔ TransitionAt text header m u)
    (hpairwise : (before ++ (number, ⟨source, some c, second⟩) :: after).Pairwise (·.1 < ·.1))
    (hdet : Deterministic (before.map (·.2))) (hfirst : (m, ⟨source, some c, first⟩) ∈ before)
    (htarget : first ≠ second) : FirstConflict text header number source c first second := by
  classical
  obtain ⟨-, hafter, hlt⟩ := List.pairwise_append.mp hpairwise
  have hbefore (m : Nat) (u : Transition) : (m, u) ∈ before ↔ m < number ∧ TransitionAt text header m u := by
    rw [← hmem, List.mem_append, List.mem_cons]
    constructor
    · intro hu
      exact ⟨hlt _ hu _ List.mem_cons_self, .inl hu⟩
    · rintro ⟨hm, hu | hu | hu⟩
      · exact hu
      · cases hu
        omega
      · exact absurd ((List.pairwise_cons.mp hafter).1 _ hu) (Nat.lt_asymm hm)
  obtain ⟨hm, hearlier⟩ := (hbefore _ _).mp hfirst
  have hex : ∃ k target, TransitionAt text header k ⟨source, some c, target⟩ := ⟨m, first, hearlier⟩
  have hlt : Nat.find hex < number := (Nat.find_min' hex ⟨first, hearlier⟩).trans_lt hm
  obtain ⟨target, hearliest⟩ := Nat.find_spec hex
  obtain rfl : target = first := by
    have hfirst' := List.mem_map_of_mem (f := (·.2)) hfirst
    have hearliest' := List.mem_map_of_mem (f := (·.2)) ((hbefore _ _).mpr ⟨hlt, hearliest⟩)
    exact hdet _ hearliest' _ hfirst' rfl
  have hmin : ∀ k < Nat.find hex, ∀ target, ¬ TransitionAt text header k ⟨source, some c, target⟩ :=
    fun k hk target ht => Nat.find_min hex hk ⟨target, ht⟩
  have hnone : ∀ k < number, ¬ ConflictAt text header k := fun k hk =>
    not_conflictAt hdet fun k' hle u hu => (hbefore k' u).mpr ⟨by omega, hu⟩
  exact ⟨(hmem _ _).mp (by simp), htarget, ⟨_, hlt, hearliest, hmin⟩, hnone⟩

/-- Once all lines have been read, the check of a strict table finds the first conflict, or the table is without
conflicts and only transitions can be missing. -/
theorem checkTable_cases (h : readTo forced text last = .ok draft) (hlast : 5 ≤ last)
    (hlength : (lines text).length ≤ last) (hmode : draft.mode = .strict) :
    (∃ number source c first second, FirstConflict text draft.toHeader number source c first second ∧
      checkTable draft.toHeader draft.transitions =
        .error (.conflictingTransition number source c first second)) ∨
    ((∀ number, ¬ ConflictAt text draft.toHeader number) ∧
      (checkTable draft.toHeader draft.transitions = .ok () ∨ checkTable draft.toHeader draft.transitions =
        .error (.incompleteTable draft.numStates draft.alphabet.size (draft.numStates * draft.alphabet.size)
          (laterLines text).length))) := by
  have hfound := length_transitions_readTo h hlast hlength
  have hle : draft.numStates ≤ 2 ^ 24 := ((inOrderTo_of_readTo h).fits 2 (by omega) (by omega)).2
  obtain ⟨last, rfl⟩ := Nat.exists_eq_add_of_le' hlast
  obtain ⟨hmem, hpairwise⟩ := transitions_readTo h
  have hmem (m : Nat) (u : Transition) : (m, u) ∈ draft.transitions ↔ TransitionAt text draft.toHeader m u := by
    rw [hmem]
    exact and_iff_right_of_imp fun hu => hu.le_length.trans hlength
  have hlabels : ∀ p ∈ draft.transitions, p.2.label ≠ none := by
    intro p hp
    have hline := ((hmem p.1 p.2).mp hp).2
    rw [hmode] at hline
    exact (isTransitionLine_strict_iff.mp hline).2
  obtain ⟨hok, hdet⟩ | ⟨before, number, source, c, first, second, after, hsplit, hdet, hfirst, htarget, herror⟩ :=
    checkConflicts_cases deterministic_nil hlabels
  · refine .inr ⟨fun number => not_conflictAt hdet fun m _ u hu => (hmem m u).mpr hu, ?_⟩
    simp only [checkTable, tableSize?_eq hle, hok, ← hfound, bind, Except.bind]
    split
    · exact .inl rfl
    · exact .inr rfl
  · refine .inl ⟨number, source, c, first, second, ?_, ?_⟩
    · rw [hsplit] at hmem hpairwise
      obtain ⟨⟨m, e⟩, he, rfl⟩ := List.mem_map.mp hfirst
      exact firstConflict_of_split hmem hpairwise hdet he htarget
    · simp only [checkTable, tableSize?_eq hle, herror, bind, Except.bind]

end Description

end FiniteAutomata
