import FiniteAutomata.Proofs.RegularLaws
import FiniteAutomata.Proofs.Renumbering

/-!
# The order of the operands of a union

The two unions of the same operands hold the same two copies, behind the same start and in exchanged places. Each is
therefore a renumbering of the other (`Nfa.isRenumbering_exchange`), and since determinization does not depend on
the numbers of the states, both become the same deterministic automaton.
-/
namespace FiniteAutomata

namespace Nfa

variable {a b : Nfa} {s t k l : Nat} {label : Option Char}

/-- Exchanges a block of `k` states with the block of `l` states behind it; state 0 stands in front of both. -/
def exchange (k l s : Nat) : Nat :=
  if s = 0 then 0 else if s ≤ k then s + l else s - k

@[simp] theorem exchange_zero : exchange k l 0 = 0 := by simp [exchange]

theorem exchange_first (hs : s < k) : exchange k l (s + 1) = s + (1 + l) := by
  rw [exchange, if_neg (by omega), if_pos (by omega)]
  omega

@[simp] theorem exchange_second : exchange k l (s + (1 + k)) = s + 1 := by
  rw [exchange, if_neg (by omega), if_neg (by omega)]
  omega

/-- A state is the one in front, or in the first block, or in the second. -/
theorem eq_zero_or_first_or_second (hs : s < 1 + k + l) :
    s = 0 ∨ (∃ s' < k, s = s' + 1) ∨ ∃ s' < l, s = s' + (1 + k) := by
  by_cases hzero : s = 0
  · exact .inl hzero
  · by_cases hk : s ≤ k
    · exact .inr (.inl ⟨s - 1, by omega, by omega⟩)
    · exact .inr (.inr ⟨s - (1 + k), by omega, by omega⟩)

theorem exchange_exchange (hs : s < 1 + k + l) : exchange l k (exchange k l s) = s := by
  rcases eq_zero_or_first_or_second hs with rfl | ⟨s, hlt, rfl⟩ | ⟨s, hlt, rfl⟩
  · simp
  · rw [exchange_first hlt, exchange_second]
  · rw [exchange_second, exchange_first hlt]

/-- A map that takes one copy of an automaton to another takes the targets of its moves to those of the other. -/
theorem WellFormed.exists_shifted_iff (ha : a.WellFormed) {f : Nat → Nat}
    (hf : ∀ t < a.numStates, f (t + k) = t + l) :
    (∃ t', a.Shifted k (s + k) label t' ∧ f t' = t) ↔ a.Shifted l (s + l) label t := by
  simp only [shifted_add]
  constructor
  · rintro ⟨_, ⟨t', rfl, hmove⟩, rfl⟩
    exact ⟨t', hf t' (ha.target_lt _ _ _ hmove), hmove⟩
  · rintro ⟨t', rfl, hmove⟩
    exact ⟨t' + k, ⟨t', rfl, hmove⟩, hf t' (ha.target_lt _ _ _ hmove)⟩

theorem isAccepting_exchange (ha : a.WellFormed) (hb : b.WellFormed)
    (hs : s < 1 + a.numStates + b.numStates) :
    (b.union a).isAccepting (exchange a.numStates b.numStates s) = (a.union b).isAccepting s := by
  rcases eq_zero_or_first_or_second hs with rfl | ⟨s, hlt, rfl⟩ | ⟨s, hlt, rfl⟩
  · rw [exchange_zero, isAccepting_union_start hb ha, isAccepting_union_start ha hb]
  · rw [exchange_first hlt, isAccepting_union_second hb ha, isAccepting_union_first ha hb hlt]
  · rw [exchange_second, isAccepting_union_first hb ha hlt, isAccepting_union_second ha hb]

theorem moves_exchange_iff (ha : a.WellFormed) (hb : b.WellFormed)
    (hs : s < 1 + a.numStates + b.numStates) :
    (b.union a).Moves (exchange a.numStates b.numStates s) label t ↔
      ∃ t', (a.union b).Moves s label t' ∧ exchange a.numStates b.numStates t' = t := by
  rcases eq_zero_or_first_or_second hs with rfl | ⟨s, hlt, rfl⟩ | ⟨s, hlt, rfl⟩
  · simp only [exchange_zero, moves_union_start, and_assoc, exists_and_left, or_and_right, exists_or,
      exists_eq_left, exchange_first ha.start_lt, exchange_second, eq_comm (b := t), or_comm]
  · simp only [exchange_first hlt, moves_union_second, moves_union_first hlt]
    exact (ha.exists_shifted_iff fun _ => exchange_first).symm
  · simp only [exchange_second, moves_union_second, moves_union_first hlt]
    exact (hb.exists_shifted_iff fun _ _ => exchange_second).symm

/-- The union of the operands in the other order has the same states under other numbers. -/
theorem isRenumbering_exchange (ha : a.WellFormed) (hb : b.WellFormed) :
    IsRenumbering (exchange a.numStates b.numStates) (a.union b) (b.union a) := by
  have hstates {s : Nat} (hs : s ∈ {s | s < (a.union b).numStates}) :
      s < 1 + a.numStates + b.numStates := numStates_union (a := a) ▸ hs
  constructor
  · constructor
    · rw [alphabet_union, alphabet_union, Alphabet.union_comm]
    · rw [start_union, start_union, exchange_zero]
    · intro s hs
      exact isAccepting_exchange ha hb (hstates hs)
    · intro s hs label _
      rw [targets_eq_image_iff]
      exact fun t => moves_exchange_iff ha hb (hstates hs)
  · intro s hs t ht heq
    rw [← exchange_exchange (hstates hs), heq, exchange_exchange (hstates ht)]

theorem WellFormed.exists_determinize?_union (ha : a.WellFormed) (hb : b.WellFormed) :
    ∃ d, (a.union b).determinize? = some d ∧ (b.union a).determinize? = some d := by
  have hiso := (isRenumbering_exchange ha hb).isIsomorphism (ha.union hb) (hb.union ha)
  exact hiso.exists_determinize? (ha.union hb) (hb.union ha)

end Nfa

/-- The deterministic automaton of a union does not depend on the order of the operands, not even in the numbers of
its states. -/
theorem determinize?_union_comm :
    (∀ a b : Nfa, a.Constructible → b.Constructible →
      ∃ d, (a.union b).determinize? = some d ∧ (b.union a).determinize? = some d) ∧
    ∀ a b : Dfa, a.Constructible → b.Constructible → ∃ d, a.union? b = some d ∧ b.union? a = some d := by
  constructor
  · intro a b ha hb
    exact ha.wellFormed.exists_determinize?_union hb.wellFormed
  · intro a b ha hb
    exact ha.wellFormed.toNfa.exists_determinize?_union hb.wellFormed.toNfa

/-- Operands with different alphabets. -/
theorem determinize?_union_comm_endsInB_oddBs :
    let three := Nfa.ofDescription .endsInBRenumbered
    (∃ d, (three.union Dfa.evenAs.toNfa).determinize? = some d ∧
      (Dfa.evenAs.toNfa.union three).determinize? = some d) ∧
    ∃ d, Dfa.evenAs.union? Dfa.oddBs = some d ∧ Dfa.oddBs.union? Dfa.evenAs = some d := by
  intro three
  have hthree : three.Constructible := .ofDescription Description.parsed_endsInBRenumbered
  have heven := Dfa.constructible_evenAs
  exact ⟨determinize?_union_comm.1 three Dfa.evenAs.toNfa hthree (.toNfa heven),
    determinize?_union_comm.2 Dfa.evenAs Dfa.oddBs heven Dfa.constructible_oddBs⟩

end FiniteAutomata
