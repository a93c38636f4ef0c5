import FiniteAutomata.Proofs.CheckedAccess

/-!
# Copies of operands

The regular operations copy their operands. A copy adds the moves of its original between the states of one block and
leaves everything else as it is (`Nfa.Constructible.copiesExactly`). The copier finds the transitions of the
original label by label; it misses none since no move has a label outside the alphabet, and comes upon none twice.
-/
namespace FiniteAutomata.Nfa

variable {a m n t : Nfa} {s k : Nat} {label : Option Char}

theorem targets_ascending (n : Nfa) (s : Nat) (label : Option Char) :
    (n.targets s label).Pairwise fun x y => compare x y = .lt := by
  refine (List.pairwise_map.mp (n.map_targets_ascending s label)).imp fun {x y} hlt => ?_
  have hthen : (compare label label).then (compare x y) = .lt := hlt
  rwa [Std.ReflOrd.compare_self, Ordering.eq_then] at hthen

/-- The targets are determined by their members, since they ascend. -/
theorem targets_eq_ofList {l : List Nat} (h : ∀ y, n.Moves s label y ↔ y ∈ l) :
    n.targets s label = (SortedSet.ofList l).toList :=
  SortedSet.eq_of_ascending (n.targets_ascending s label) (SortedSet.ofList l).ascending fun y =>
    (h y).trans SortedSet.mem_ofList.symm

theorem targets_congr (h : ∀ y, m.Moves s label y ↔ n.Moves s label y) :
    m.targets s label = n.targets s label :=
  SortedSet.eq_of_ascending (m.targets_ascending s label) (n.targets_ascending s label) h

theorem moves_iff_targets? {y : Nat} : n.Moves s label y ↔ ∃ ys, n.targets? s label = some ys ∧ y ∈ ys := by
  constructor
  · exact fun h => ⟨_, if_pos h.source_lt, h⟩
  · rintro ⟨ys, hys, hy⟩
    obtain ⟨-, heq⟩ := Option.ite_none_right_eq_some.mp hys
    cases heq
    exact hy

theorem moves_iff_stored {y : Nat} :
    n.Moves s label y ↔ ∃ moves, n.moves[s]? = some moves ∧ ⟨label, y⟩ ∈ moves := by
  rw [moves_iff_mem, movesFrom]
  cases n.moves[s]? with
  | none => simpa using SortedSet.mem_def.not.mp (SortedSet.not_mem_empty (Move.mk label y))
  | some moves => simp [SortedSet.mem_def]

/-- A list has every stored transition once, and nothing else. -/
structure ListsOnce (n : Nfa) (ts : List Transition) : Prop where
  nodup : ts.Nodup
  mem_iff : ∀ r, r ∈ ts ↔ ∃ moves, n.moves[r.source]? = some moves ∧ ⟨r.label, r.target⟩ ∈ moves

theorem nodup_transitions (n : Nfa) : n.transitions.Nodup := by
  refine List.nodup_flatMap.mpr ⟨fun s _ => ?_, List.nodup_range.imp fun {s s'} hne => ?_⟩
  · refine (n.moves[s]?.getD ∅).nodup.map fun m m' heq => ?_
    cases m
    cases m'
    simpa using heq
  · -- transitions of different states have different sources
    intro r hr hr'
    obtain ⟨m, -, rfl⟩ := List.mem_map.mp hr
    obtain ⟨m', -, heq⟩ := List.mem_map.mp hr'
    exact hne (congrArg Transition.source heq).symm

theorem listsOnce_transitions (n : Nfa) : n.ListsOnce n.transitions where
  nodup := n.nodup_transitions
  mem_iff _ := mem_transitions.trans moves_iff_stored

/-- `n` is `t` with a copy of `a` in the states from `k` on, and is otherwise as `t` is. -/
structure AddsCopy (t a : Nfa) (k : Nat) (n : Nfa) : Prop where
  numStates_eq : n.numStates = t.numStates
  alphabet_eq : n.alphabet = t.alphabet
  start_eq : n.start = t.start
  accepting_eq : n.accepting = t.accepting
  inside : ∀ s label, k ≤ s → s < k + a.numStates → ∃ before copied,
    t.targets? s label = some before ∧ a.targets? (s - k) label = some copied ∧
      n.targets? s label = some (SortedSet.ofList (before ++ copied.map (· + k))).toList
  outside : ∀ s label, ¬ (k ≤ s ∧ s < k + a.numStates) → n.targets? s label = t.targets? s label

theorem moves_copyShifted_inside (hfits : k + a.numStates ≤ t.numStates) (hs : s < a.numStates) {y : Nat} :
    (t.copyShifted a k).Moves (s + k) label y ↔
      y ∈ t.targets (s + k) label ++ (a.targets s label).map (· + k) := by
  have hlt : s + k < t.numStates := by omega
  rw [moves_copyShifted, and_iff_right hlt, shifted_add, List.mem_append, List.mem_map]
  refine or_congr_right (exists_congr fun y' => ?_)
  rw [and_comm, eq_comm]
  rfl

theorem moves_copyShifted_outside (hs : ¬ (k ≤ s ∧ s < k + a.numStates)) {y : Nat} :
    (t.copyShifted a k).Moves s label y ↔ t.Moves s label y := by
  rw [moves_copyShifted, or_iff_left_of_imp]
  rintro ⟨-, hshifted⟩
  have := hshifted.source_range
  omega

theorem addsCopy_copyShifted (hfits : k + a.numStates ≤ t.numStates) :
    t.AddsCopy a k (t.copyShifted a k) := by
  obtain ⟨hsize, halphabet, hstart, haccepting⟩ := copyShifted_frame t a k
  refine ⟨hsize, halphabet, hstart, haccepting, fun s label hle hlt => ?_, fun s label hs => ?_⟩
  · obtain ⟨s, rfl⟩ := Nat.exists_eq_add_of_le' hle
    have hs : s < a.numStates := by omega
    have hs' : s + k < t.numStates := by omega
    refine ⟨t.targets (s + k) label, a.targets s label, if_pos hs', ?_, ?_⟩
    · rw [Nat.add_sub_cancel]
      exact if_pos hs
    · rw [targets?, if_pos (by omega), targets_eq_ofList fun y => moves_copyShifted_inside hfits hs]
  · rw [targets?, targets?, hsize, targets_congr fun y => moves_copyShifted_outside hs]

/-- Nothing else has been added: there is only one automaton with the copy. -/
theorem AddsCopy.unique {n' : Nfa} (h : t.AddsCopy a k n) (h' : t.AddsCopy a k n') : n = n' := by
  have htargets (s : Nat) (label : Option Char) : n.targets? s label = n'.targets? s label := by
    by_cases hs : k ≤ s ∧ s < k + a.numStates
    · obtain ⟨before, copied, hbefore, hcopied, heq⟩ := h.inside s label hs.1 hs.2
      obtain ⟨before', copied', hbefore', hcopied', heq'⟩ := h'.inside s label hs.1 hs.2
      rw [hbefore, Option.some_inj] at hbefore'
      rw [hcopied, Option.some_inj] at hcopied'
      rw [heq, heq', hbefore', hcopied']
    · rw [h.outside s label hs, h'.outside s label hs]
  refine eq_of_moves (h.alphabet_eq.trans h'.alphabet_eq.symm) (h.start_eq.trans h'.start_eq.symm)
    (h.numStates_eq.trans h'.numStates_eq.symm) (fun s label y => ?_) ?_ fun s => ?_
  · rw [moves_iff_targets?, moves_iff_targets?, htargets]
  · rw [h.accepting_eq, h'.accepting_eq]
  · rw [isAccepting, isAccepting, h.accepting_eq, h'.accepting_eq]

/-- An automaton that can be built is copied, with its transitions listed once each, wherever its states fit, and the copy
is added exactly. -/
theorem Constructible.copiesExactly (ha : a.Constructible) (hfits : k + a.numStates ≤ t.numStates) :
    t.copyShifted? a k = some (t.copyShifted a k) ∧ t.AddsCopy a k (t.copyShifted a k) ∧
      a.transitions? = some a.transitions ∧ a.ListsOnce a.transitions :=
  ⟨ha.wellFormed.copyShifted?_eq (by omega), addsCopy_copyShifted hfits, ha.wellFormed.transitions?_eq,
    a.listsOnce_transitions⟩

/-- A copy into states that have a move already. -/
theorem copiesExactly_star_endsInB :
    let a := (ofDescription .endsInB).star
    let t := (withStates 5 (.ofChars ['c']) 4).addMove 2 none 0
    a.Constructible ∧ 1 + a.numStates ≤ t.numStates ∧ t.AddsCopy a 1 (t.copyShifted a 1) ∧
      (t.copyShifted a 1).targets? 2 none = some [0, 1, 3] := by
  intro a t
  have ha : a.Constructible := .star constructible_endsInB
  have hfits : 1 + a.numStates ≤ t.numStates := by decide
  exact ⟨ha, hfits, (ha.copiesExactly hfits).2.1, by decide⟩

end FiniteAutomata.Nfa
