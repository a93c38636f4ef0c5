import FiniteAutomata.Nfa.Operations
import FiniteAutomata.Proofs.Runs

/-!
# The moves of a table

What the operations that build tables do to the moves and to the accepting states, each as one equivalence. The
regular operations and the readers of descriptions are compositions of these, so nothing behind this module looks at
the arrays of an automaton.
-/
namespace FiniteAutomata

/-- The transition between the copies of its states at an offset. -/
def Transition.shift (offset : Nat) (t : Transition) : Transition :=
  ⟨t.source + offset, t.label, t.target + offset⟩

namespace Nfa

variable {m n source : Nfa} {s t k : Nat} {label : Option Char}

theorem moves_iff_mem : n.Moves s label t ↔ ⟨label, t⟩ ∈ n.movesFrom s := by
  simp only [Moves, targets, List.mem_filterMap]
  constructor
  · rintro ⟨m, hm, h⟩
    split at h
    · next hl =>
      cases h
      simpa [← hl] using hm
    · cases h
  · exact fun h => ⟨⟨label, t⟩, h, by simp⟩

/-- The moves and the accepting states determine an automaton. -/
theorem eq_of_moves (halphabet : m.alphabet = n.alphabet) (hstart : m.start = n.start)
    (hsize : m.numStates = n.numStates) (hmoves : ∀ s label t, m.Moves s label t ↔ n.Moves s label t)
    (hsize' : m.accepting.size = n.accepting.size)
    (hflags : ∀ s, m.isAccepting s = true ↔ n.isAccepting s = true) : m = n := by
  have htables : m.moves = n.moves := by
    refine Array.ext hsize fun s hs hs' => SortedSet.ext fun move => ?_
    have hiff := hmoves s move.label move.target
    simp only [moves_iff_mem, movesFrom, Array.getElem?_eq_getElem hs, Array.getElem?_eq_getElem hs'] at hiff
    exact hiff
  have haccepting : m.accepting = n.accepting := by
    refine Array.ext hsize' fun s hs hs' => Bool.eq_iff_iff.mpr ?_
    simpa only [isAccepting, Array.getElem?_eq_getElem hs, Array.getElem?_eq_getElem hs', Option.getD_some] using
      hflags s
  obtain ⟨_, _, _, _⟩ := m
  obtain ⟨_, _, _, _⟩ := n
  simp_all

theorem Moves.source_lt (h : n.Moves s label t) : s < n.numStates := by
  rw [moves_iff_mem, movesFrom] at h
  by_contra hs
  rw [Array.getElem?_eq_none (by simpa [numStates] using hs)] at h
  exact SortedSet.not_mem_empty _ h

@[simp] theorem not_moves_withStates {alphabet : Alphabet} {start : Nat} :
    ¬ (withStates k alphabet start).Moves s label t := by
  intro h
  have hs := h.source_lt
  rw [moves_iff_mem] at h
  simp only [numStates, withStates, Array.size_replicate] at hs
  simp only [movesFrom, withStates, Array.getElem?_replicate, hs, ↓reduceIte, Option.getD_some] at h
  exact SortedSet.not_mem_empty _ h

@[simp] theorem numStates_withStates {alphabet : Alphabet} {start : Nat} :
    (withStates k alphabet start).numStates = k := by simp [numStates, withStates]

@[simp] theorem accepting_size_withStates {alphabet : Alphabet} {start : Nat} :
    (withStates k alphabet start).accepting.size = k := by simp [withStates]

@[simp] theorem not_isAccepting_withStates {alphabet : Alphabet} {start : Nat} :
    ¬ (withStates k alphabet start).isAccepting s = true := by
  simp only [isAccepting, withStates, Array.getElem?_replicate]
  split <;> simp

theorem moves_addMove {s' t' : Nat} {label' : Option Char} :
    (n.addMove s' label' t').Moves s label t ↔
      n.Moves s label t ∨ s < n.numStates ∧ s = s' ∧ label = label' ∧ t = t' := by
  simp only [moves_iff_mem, movesFrom, addMove, Array.getElem?_modify, numStates]
  by_cases hs : s' = s
  · subst hs
    rcases Nat.lt_or_ge s' n.moves.size with hlt | hge
    · rw [if_pos rfl, Array.getElem?_eq_getElem hlt]
      simp only [Option.map_some, Option.getD_some, ← SortedSet.mem_def, SortedSet.mem_insert,
        Move.mk.injEq, hlt, true_and]
      exact or_comm
    · simp [Nat.not_lt.mpr hge]
  · simp [hs, Ne.symm hs]

@[simp] theorem numStates_addMove {s' t' : Nat} {label' : Option Char} :
    (n.addMove s' label' t').numStates = n.numStates := by simp [numStates, addMove]

theorem isAccepting_addMove {s' t' : Nat} {label' : Option Char} :
    (n.addMove s' label' t').isAccepting s = n.isAccepting s := rfl

/-- Adding transitions leaves everything else as it is. -/
theorem foldl_addTransition (ts : List Transition) (n : Nfa) :
    (ts.foldl addTransition n).numStates = n.numStates ∧
      (ts.foldl addTransition n).alphabet = n.alphabet ∧
      (ts.foldl addTransition n).start = n.start ∧
      (ts.foldl addTransition n).accepting = n.accepting := by
  induction ts generalizing n with
  | nil => exact ⟨rfl, rfl, rfl, rfl⟩
  | cons t ts ih => simpa [addTransition, addMove, numStates] using ih (n.addTransition t)

theorem moves_foldl_addTransition {ts : List Transition} :
    (ts.foldl addTransition n).Moves s label t ↔
      n.Moves s label t ∨ s < n.numStates ∧ ⟨s, label, t⟩ ∈ ts := by
  induction ts generalizing n with
  | nil => simp
  | cons r ts ih =>
    obtain ⟨rs, rl, rt⟩ := r
    rw [List.foldl_cons, ih, addTransition, moves_addMove, numStates_addMove, List.mem_cons,
      Transition.mk.injEq]
    tauto

theorem mem_transitions {r : Transition} : r ∈ n.transitions ↔ n.Moves r.source r.label r.target := by
  simp only [transitions, states, List.mem_flatMap, List.mem_range, List.mem_map]
  constructor
  · rintro ⟨s, _, m, hm, rfl⟩
    exact moves_iff_mem.mpr hm
  · exact fun h => ⟨r.source, h.source_lt, ⟨r.label, r.target⟩, moves_iff_mem.mp h, rfl⟩

theorem copyShifted_eq : n.copyShifted source k =
    (source.transitions.map (·.shift k)).foldl addTransition n := by
  rw [List.foldl_map]
  rfl

theorem copyShifted_frame (n source : Nfa) (k : Nat) :
    (n.copyShifted source k).numStates = n.numStates ∧
      (n.copyShifted source k).alphabet = n.alphabet ∧
      (n.copyShifted source k).start = n.start ∧
      (n.copyShifted source k).accepting = n.accepting := by
  rw [copyShifted_eq]
  exact foldl_addTransition _ _

theorem isAccepting_copyShifted : (n.copyShifted source k).isAccepting s = n.isAccepting s := by
  rw [isAccepting, (copyShifted_frame n source k).2.2.2, isAccepting]

/-- The moves of an automaton, between states moved up by an offset. -/
def Shifted (n : Nfa) (k s : Nat) (label : Option Char) (t : Nat) : Prop :=
  ∃ s' t', s = s' + k ∧ t = t' + k ∧ n.Moves s' label t'

theorem shifted_add : n.Shifted k (s + k) label t ↔ ∃ t', t = t' + k ∧ n.Moves s label t' := by
  constructor
  · rintro ⟨s', t', hs, rfl, h⟩
    obtain rfl := Nat.add_right_cancel hs
    exact ⟨t', rfl, h⟩
  · rintro ⟨t', rfl, h⟩
    exact ⟨s, t', rfl, rfl, h⟩

theorem shifted_zero : n.Shifted 0 s label t ↔ n.Moves s label t :=
  shifted_add.trans exists_eq_left'

theorem Shifted.source_range (h : n.Shifted k s label t) : k ≤ s ∧ s < n.numStates + k := by
  obtain ⟨s', _, rfl, _, hmove⟩ := h
  have := hmove.source_lt
  omega

/-- A copy of an automaton has its moves, between states moved up by the offset. -/
theorem moves_copyShifted : (n.copyShifted source k).Moves s label t ↔
    n.Moves s label t ∨ s < n.numStates ∧ source.Shifted k s label t := by
  rw [copyShifted_eq, moves_foldl_addTransition]
  refine or_congr_right (and_congr_right fun _ => ?_)
  constructor
  · intro h
    obtain ⟨r, hr, heq⟩ := List.mem_map.mp h
    rw [Transition.shift, Transition.mk.injEq] at heq
    obtain ⟨rfl, rfl, rfl⟩ := heq
    exact ⟨r.source, r.target, rfl, rfl, mem_transitions.mp hr⟩
  · rintro ⟨s', t', rfl, rfl, h⟩
    exact List.mem_map.mpr ⟨⟨s', label, t'⟩, mem_transitions.mpr h, rfl⟩

theorem mem_acceptingStates : s ∈ n.acceptingStates ↔ n.isAccepting s = true := by
  simp only [acceptingStates, List.mem_filter, List.mem_range, and_iff_right_iff_imp, isAccepting]
  intro h
  by_contra hs
  rw [Array.getElem?_eq_none (by omega)] at h
  simp at h

theorem linkAccepting_eq {hub : Nat} : n.linkAccepting source hub =
    (source.acceptingStates.map fun a => ⟨a, none, hub⟩).foldl addTransition n := by
  rw [List.foldl_map]
  rfl

theorem linkAccepting_frame (n source : Nfa) (hub : Nat) :
    (n.linkAccepting source hub).numStates = n.numStates ∧
      (n.linkAccepting source hub).alphabet = n.alphabet ∧
      (n.linkAccepting source hub).start = n.start ∧
      (n.linkAccepting source hub).accepting = n.accepting := by
  rw [linkAccepting_eq]
  exact foldl_addTransition _ _

theorem isAccepting_linkAccepting {hub : Nat} :
    (n.linkAccepting source hub).isAccepting s = n.isAccepting s := by
  rw [isAccepting, (linkAccepting_frame n source hub).2.2.2, isAccepting]

theorem moves_linkAccepting {hub : Nat} :
    (n.linkAccepting source hub).Moves s label t ↔ n.Moves s label t ∨
      s < n.numStates ∧ source.isAccepting s = true ∧ label = none ∧ t = hub := by
  rw [linkAccepting_eq, moves_foldl_addTransition]
  simp only [List.mem_map, Transition.mk.injEq, ← mem_acceptingStates]
  refine or_congr_right (and_congr_right fun _ => ?_)
  constructor
  · rintro ⟨a, ha, rfl, rfl, rfl⟩
    exact ⟨ha, rfl, rfl⟩
  · rintro ⟨ha, rfl, rfl⟩
    exact ⟨s, ha, rfl, rfl, rfl⟩

theorem isAccepting_markAccepting {s' : Nat} :
    (n.markAccepting s').isAccepting s = true ↔
      n.isAccepting s = true ∨ s < n.accepting.size ∧ s = s' := by
  simp only [isAccepting, markAccepting, Array.getElem?_modify]
  by_cases hs : s' = s
  · subst hs
    rcases Nat.lt_or_ge s' n.accepting.size with hlt | hge
    · simp [hlt]
    · simp [Nat.not_lt.mpr hge]
  · simp [hs, Ne.symm hs]

theorem moves_markAccepting {s' : Nat} :
    (n.markAccepting s').Moves s label t ↔ n.Moves s label t := Iff.rfl

/-- Marking states leaves everything else as it is. -/
theorem foldl_markAccepting (marked : List Nat) (n : Nfa) :
    (marked.foldl markAccepting n).numStates = n.numStates ∧
      (marked.foldl markAccepting n).alphabet = n.alphabet ∧
      (marked.foldl markAccepting n).start = n.start ∧
      (marked.foldl markAccepting n).accepting.size = n.accepting.size := by
  induction marked generalizing n with
  | nil => exact ⟨rfl, rfl, rfl, rfl⟩
  | cons a marked ih => simpa [markAccepting, numStates] using ih (n.markAccepting a)

theorem moves_foldl_markAccepting {marked : List Nat} :
    (marked.foldl markAccepting n).Moves s label t ↔ n.Moves s label t := by
  induction marked generalizing n with
  | nil => rfl
  | cons a marked ih => rw [List.foldl_cons, ih, moves_markAccepting]

theorem isAccepting_foldl_markAccepting {marked : List Nat} :
    (marked.foldl markAccepting n).isAccepting s = true ↔
      n.isAccepting s = true ∨ s < n.accepting.size ∧ s ∈ marked := by
  induction marked generalizing n with
  | nil => simp
  | cons a marked ih =>
    have hsize : (n.markAccepting a).accepting.size = n.accepting.size := by simp [markAccepting]
    rw [List.foldl_cons, ih, isAccepting_markAccepting, hsize, List.mem_cons]
    tauto

theorem markShifted_eq : n.markShifted source k =
    (source.acceptingStates.map (· + k)).foldl markAccepting n := by
  rw [List.foldl_map]
  rfl

theorem markShifted_frame (n source : Nfa) (k : Nat) :
    (n.markShifted source k).numStates = n.numStates ∧
      (n.markShifted source k).alphabet = n.alphabet ∧
      (n.markShifted source k).start = n.start ∧
      (n.markShifted source k).accepting.size = n.accepting.size := by
  rw [markShifted_eq]
  exact foldl_markAccepting _ _

theorem moves_markShifted : (n.markShifted source k).Moves s label t ↔ n.Moves s label t := by
  rw [markShifted_eq, moves_foldl_markAccepting]

theorem isAccepting_markShifted : (n.markShifted source k).isAccepting s = true ↔
    n.isAccepting s = true ∨
      s < n.accepting.size ∧ ∃ s', s = s' + k ∧ source.isAccepting s' = true := by
  simp only [markShifted_eq, isAccepting_foldl_markAccepting, List.mem_map, mem_acceptingStates]
  refine or_congr_right (and_congr_right fun _ => exists_congr fun s' => ?_)
  rw [and_comm, eq_comm]

end Nfa

end FiniteAutomata
