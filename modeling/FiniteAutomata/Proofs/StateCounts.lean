import FiniteAutomata.Proofs.Trimming
import Mathlib.Data.Finset.NAry

/-!
# How many states a composed automaton has

The states of a determinized automaton stand for different sets, and a set that is not empty holds the states where the
runs of some word end. A family of sets that contains the ends of all words therefore bounds the number of states
(`Nfa.WellFormed.numStates_le_card`). In a union of two tables the runs of a word end in at most one state of each
operand, and in a concatenation in at most one state of the first. In a star they end in the hub exactly if they
end in an accepting state of the operand, unless the word is empty.
-/
namespace FiniteAutomata

namespace Nfa

variable {n a b : Nfa} {d : Dfa} {sets : Numbering (SortedSet Nat)} {set : SortedSet Nat} {s t : Nat}
  {w : Word} {ends : Finset Nat} {family : Finset (Finset Nat)}

/-- The runs of a word from the start end in these states. -/
def EndsIn (n : Nfa) (w : Word) (ends : Finset Nat) : Prop := ∀ t, t ∈ ends ↔ Run n.Moves n.start w t

theorem EndsIn.lt (h : n.EndsIn w ends) (hn : n.WellFormed) (ht : t ∈ ends) : t < n.numStates :=
  hn.lt_of_run hn.start_lt ((h t).mp ht)

theorem Explored.eq_empty_or_endsIn (hn : n.WellFormed) (h : n.Explored sets) (hset : set ∈ sets.values) :
    set = ∅ ∨ ∃ w, (∀ c ∈ w, c ∈ n.alphabet) ∧ n.EndsIn w set.toList.toFinset := by
  obtain ⟨i, hi⟩ := Array.mem_iff_getElem?.mp hset
  rcases Nat.eq_zero_or_pos i with rfl | hpos
  · rw [h.sink, Option.some_inj] at hi
    exact .inl hi.symm
  · obtain ⟨w, hrun⟩ := h.exists_run hpos (Array.getElem?_eq_some_iff.mp hi).1
    refine .inr ⟨w, Dfa.mem_alphabet_of_run hrun, fun t => ?_⟩
    rw [List.mem_toFinset]
    exact h.mem_iff_run_start hn hi hrun t

/-- A determinized automaton has no more states than a family has members that contains the ends of all words. -/
theorem WellFormed.numStates_le_card (hn : n.WellFormed) (hd : n.determinize? = some d)
    (hempty : ∅ ∈ family)
    (hends : ∀ w ends, (∀ c ∈ w, c ∈ n.alphabet) → n.EndsIn w ends → ends ∈ family) :
    d.numStates ≤ family.card := by
  obtain ⟨sets, hsets, hexplored⟩ := hn.exists_explored
  obtain rfl : n.powerAutomaton sets = d := Option.some_inj.mp (hsets.symm.trans hd)
  rw [numStates_powerAutomaton]
  apply Numbering.size_values_le_card
  intro set hset
  rcases hexplored.eq_empty_or_endsIn hn hset with rfl | ⟨w, hw, hset⟩
  · exact hempty
  · exact hends w _ hw hset

/-- The empty word may add one more set. -/
theorem WellFormed.numStates_le_succ_card (hn : n.WellFormed) (hd : n.determinize? = some d)
    (hempty : ∅ ∈ family)
    (hends : ∀ w ends, w ≠ [] → (∀ c ∈ w, c ∈ n.alphabet) → n.EndsIn w ends → ends ∈ family) :
    d.numStates ≤ 1 + family.card := by
  obtain ⟨closure, -, -, hmem⟩ := hn.start_closure
  have hle : d.numStates ≤ (insert closure.toList.toFinset family).card := by
    apply hn.numStates_le_card hd (Finset.mem_insert_of_mem hempty)
    intro w ends hw hends'
    by_cases hnil : w = []
    · subst hnil
      have : ends = closure.toList.toFinset := by
        ext t
        rw [hends' t, List.mem_toFinset]
        exact (hmem t).symm
      simp [this]
    · exact Finset.mem_insert_of_mem (hends w ends hnil hw hends')
  have := Finset.card_insert_le closure.toList.toFinset family
  omega

/-- The sets that have one member, a number below `k`. -/
def singletons (k : Nat) : Finset (Finset Nat) := (Finset.range k).image fun s => {s}

theorem card_singletons_le (k : Nat) : (singletons k).card ≤ k :=
  Finset.card_image_le.trans_eq (Finset.card_range k)

theorem card_insert_singletons_le (k : Nat) : (insert ∅ (singletons k)).card ≤ k + 1 :=
  (Finset.card_insert_le _ _).trans (Nat.add_le_add_right (card_singletons_le k) 1)

/-- The empty set and the sets that are made of two parts, moved up by two offsets; each part comes from a family. -/
def joined (j k : Nat) (first second : Finset (Finset Nat)) : Finset (Finset Nat) :=
  insert ∅ (Finset.image₂ (fun x y => x.image (· + j) ∪ y.image (· + k)) first second)

variable {j k : Nat} {first second : Finset (Finset Nat)}

theorem mem_joined {x y : Finset Nat} (hx : x ∈ first) (hy : y ∈ second) :
    x.image (· + j) ∪ y.image (· + k) ∈ joined j k first second :=
  Finset.mem_insert_of_mem (Finset.mem_image₂_of_mem hx hy)

theorem card_joined_le : (joined j k first second).card ≤ 1 + first.card * second.card := by
  rw [Nat.add_comm]
  exact (Finset.card_insert_le _ _).trans (Nat.add_le_add_right (Finset.card_image₂_le _ _ _) 1)

/-- If both parts may be empty, the empty set is nothing new. -/
theorem card_joined_le_of_empty_mem (hfirst : ∅ ∈ first) (hsecond : ∅ ∈ second) :
    (joined j k first second).card ≤ first.card * second.card := by
  have hempty : ∅ ∈ Finset.image₂ (fun x y : Finset Nat => x.image (· + j) ∪ y.image (· + k)) first second :=
    Finset.mem_image₂.mpr ⟨∅, hfirst, ∅, hsecond, by simp⟩
  rw [joined, Finset.insert_eq_of_mem hempty]
  exact Finset.card_image₂_le _ _ _

/-- Where the runs of a nonempty word end in a union is made up of where they end in the operands. -/
theorem WellFormed.numStates_union_le (ha : a.WellFormed) (hb : b.WellFormed)
    (hd : (a.union b).determinize? = some d)
    (hfirst : ∀ w, (∀ c ∈ w, c ∈ a.alphabet.union b.alphabet) → ∃ x ∈ first, a.EndsIn w x)
    (hsecond : ∀ w, (∀ c ∈ w, c ∈ a.alphabet.union b.alphabet) → ∃ y ∈ second, b.EndsIn w y) :
    d.numStates ≤ 1 + (joined 1 (1 + a.numStates) first second).card := by
  apply (ha.union hb).numStates_le_succ_card hd (Finset.mem_insert_self _ _)
  intro w ends hne hw hends
  rw [alphabet_union] at hw
  obtain ⟨x, hx, hxends⟩ := hfirst w hw
  obtain ⟨y, hy, hyends⟩ := hsecond w hw
  have heq : ends = x.image (· + 1) ∪ y.image (· + (1 + a.numStates)) := by
    ext t
    rw [hends t, start_union, run_union_start_iff ha hb]
    simp [hne, hxends _, hyends _, and_comm, eq_comm]
  rw [heq]
  exact mem_joined hx hy

/-- No move leads back to the first copy of a concatenation. -/
theorem moves_concat_first_iff (ha : a.WellFormed) {label : Option Char} (ht : t < a.numStates) :
    (a.concat b).Moves s label t ↔ a.Moves s label t := by
  rw [moves_concat ha]
  apply or_iff_left
  rintro (⟨_, t', -, rfl, -⟩ | ⟨-, -, rfl⟩) <;> omega

/-- A run that ends in the first copy of a concatenation has stayed there. -/
theorem run_concat_first_iff (ha : a.WellFormed) (ht : t < a.numStates) :
    Run (a.concat b).Moves s w t ↔ Run a.Moves s w t := by
  have hsource {s : Nat} {w : Word} (hrun : Run a.Moves s w t) : s < a.numStates := by
    cases hrun with
    | refl => exact ht
    | silent move _ => exact move.source_lt
    | read move _ => exact move.source_lt
  constructor
  · intro hrun
    -- The first move leads to where a run of the operand begins, so to the first copy.
    induction hrun with
    | refl s => exact .refl s
    | silent move _ ih =>
      have hrest := ih ht hsource
      exact .silent ((moves_concat_first_iff ha (hsource hrest)).mp move) hrest
    | read move _ ih =>
      have hrest := ih ht hsource
      exact .read ((moves_concat_first_iff ha (hsource hrest)).mp move) hrest
  · exact Run.mono fun s label t hmove => (moves_concat ha).mpr (.inl hmove)

/-- Where the runs of a word end in the first copy of a concatenation is where they end in the first operand. -/
theorem WellFormed.numStates_concat_le (ha : a.WellFormed) (hb : b.WellFormed)
    (hd : (a.concat b).determinize? = some d)
    (hfirst : ∀ w, (∀ c ∈ w, c ∈ a.alphabet.union b.alphabet) → ∃ x ∈ first, a.EndsIn w x) :
    d.numStates ≤ (joined 0 a.numStates first (Finset.range b.numStates).powerset).card := by
  apply (ha.concat hb).numStates_le_card hd (Finset.mem_insert_self _ _)
  intro w ends hw hends
  rw [alphabet_concat] at hw
  obtain ⟨x, hx, hxends⟩ := hfirst w hw
  have heq : ends = x.image (· + 0) ∪
      ((Finset.range b.numStates).filter (· + a.numStates ∈ ends)).image (· + a.numStates) := by
    ext t
    simp only [Finset.mem_union, Finset.mem_image, Finset.mem_filter, Finset.mem_range, Nat.add_zero,
      exists_eq_right]
    by_cases ht : t < a.numStates
    · rw [hends t, start_concat, run_concat_first_iff ha ht, hxends t]
      apply (or_iff_left _).symm
      rintro ⟨t', -, rfl⟩
      omega
    · obtain ⟨t, rfl⟩ := Nat.exists_eq_add_of_le' (Nat.not_lt.mp ht)
      have hx : t + a.numStates ∉ x := fun hmem => ht (hxends.lt ha hmem)
      have hlt : t + a.numStates ∈ ends → t < b.numStates := fun hmem => by
        have := hends.lt (ha.concat hb) hmem
        rw [numStates_concat] at this
        omega
      simpa [hx] using hlt
  rw [heq]
  exact mem_joined hx (Finset.mem_powerset.mpr (Finset.filter_subset _ _))

/-- A run enters the hub of a star from an accepting state of the operand, if it does not begin there. -/
theorem exists_accepting_of_run_star (ha : a.WellFormed) (hrun : Run a.star.Moves s w a.numStates) :
    (s = a.numStates ∧ w = []) ∨ ∃ t, a.isAccepting t = true ∧ Run a.star.Moves s w t := by
  have henter {s : Nat} {label : Option Char} (hmove : a.star.Moves s label a.numStates) :
      a.isAccepting s = true ∧ label = none := by
    rcases (moves_star ha).mp hmove with h | ⟨-, -, h⟩ | ⟨hacc, hlabel, -⟩
    · exact absurd (ha.target_lt _ _ _ h) (Nat.lt_irrefl _)
    · exact absurd (h ▸ ha.start_lt) (Nat.lt_irrefl _)
    · exact ⟨hacc, hlabel⟩
  generalize hhub : a.numStates = hub at hrun henter
  induction hrun with
  | refl s => exact .inl ⟨rfl, rfl⟩
  | @silent s m _ _ move _ ih =>
    rcases ih hhub henter with ⟨rfl, rfl⟩ | ⟨t, hacc, hrest⟩
    · exact .inr ⟨s, (henter move).1, .refl s⟩
    · exact .inr ⟨t, hacc, .silent move hrest⟩
  | read move _ ih =>
    rcases ih hhub henter with ⟨rfl, rfl⟩ | ⟨t, hacc, hrest⟩
    · cases (henter move).2
    · exact .inr ⟨t, hacc, .read move hrest⟩

/-- Adds the hub to a set of states of the operand, if one of them accepts. -/
def withHub (a : Nfa) (x : Finset Nat) : Finset Nat :=
  if ∃ s ∈ x, a.isAccepting s = true then insert a.numStates x else x

theorem mem_withHub {x : Finset Nat} :
    t ∈ a.withHub x ↔ t ∈ x ∨ t = a.numStates ∧ ∃ s ∈ x, a.isAccepting s = true := by
  unfold withHub
  split_ifs with h <;> simp [h, or_comm]

/-- The runs of a nonempty word end in the hub of a star exactly if they end in an accepting state of the operand. -/
theorem EndsIn.eq_withHub (ha : a.WellFormed) (hne : w ≠ []) (hends : a.star.EndsIn w ends) :
    ends = a.withHub (ends.filter (· < a.numStates)) := by
  have hlt {t : Nat} (hmem : t ∈ ends) : t < a.numStates ∨ t = a.numStates := by
    have := hends.lt ha.star hmem
    rw [numStates_star] at this
    omega
  have hhub : a.numStates ∈ ends ↔ ∃ s ∈ ends.filter (· < a.numStates), a.isAccepting s = true := by
    constructor
    · intro hmem
      rcases exists_accepting_of_run_star ha ((hends _).mp hmem) with ⟨-, hnil⟩ | ⟨s, hacc, hrun⟩
      · exact absurd hnil hne
      · exact ⟨s, Finset.mem_filter.mpr ⟨(hends s).mpr hrun, ha.lt_of_isAccepting hacc⟩, hacc⟩
    · rintro ⟨s, hs, hacc⟩
      have hlink : a.star.Moves s none a.numStates := (moves_star ha).mpr (.inr (.inr ⟨hacc, rfl, rfl⟩))
      have hrun := ((hends s).mp (Finset.mem_filter.mp hs).1).append (.silent hlink (.refl a.numStates))
      exact (hends _).mpr (List.append_nil w ▸ hrun)
  ext t
  rw [mem_withHub, ← hhub, Finset.mem_filter]
  constructor
  · intro hmem
    rcases hlt hmem with hlt | rfl
    · exact .inl ⟨hmem, hlt⟩
    · exact .inr ⟨rfl, hmem⟩
  · rintro (⟨hmem, -⟩ | ⟨rfl, hmem⟩) <;> exact hmem

theorem WellFormed.numStates_star_le (ha : a.WellFormed) (hd : a.star.determinize? = some d) :
    d.numStates ≤ 1 + 2 ^ a.numStates := by
  have hle : d.numStates ≤ 1 + ((Finset.range a.numStates).powerset.image a.withHub).card := by
    apply ha.star.numStates_le_succ_card hd
    · exact Finset.mem_image.mpr ⟨∅, Finset.empty_mem_powerset _, by simp [withHub]⟩
    · intro w ends hne _ hends
      rw [hends.eq_withHub ha hne]
      apply Finset.mem_image_of_mem
      rw [Finset.mem_powerset]
      intro s hs
      exact Finset.mem_range.mpr (Finset.mem_filter.mp hs).2
  have hcard := Finset.card_image_le (s := (Finset.range a.numStates).powerset) (f := a.withHub)
  rw [Finset.card_powerset, Finset.card_range] at hcard
  omega

end Nfa

namespace Dfa

open Nfa

variable {a b d : Dfa} {w : Word}

/-- The runs of a word of symbols end in one state of a table. -/
theorem WellFormed.exists_endsIn_of_symbols (h : d.WellFormed) (hw : ∀ c ∈ w, c ∈ d.alphabet) :
    ∃ x ∈ singletons d.numStates, d.toNfa.EndsIn w x := by
  obtain ⟨s, hs⟩ := h.exists_run h.start_lt hw
  refine ⟨{s}, Finset.mem_image_of_mem _ (Finset.mem_range.mpr (h.lt_of_run h.start_lt hs)), fun t => ?_⟩
  rw [Finset.mem_singleton, run_toNfa, start_toNfa]
  constructor
  · rintro rfl
    exact hs
  · exact fun ht => run_unique ht hs

/-- The runs of any word end in at most one state of a table. -/
theorem WellFormed.exists_endsIn (h : d.WellFormed) (w : Word) :
    ∃ x ∈ insert ∅ (singletons d.numStates), d.toNfa.EndsIn w x := by
  by_cases hw : ∀ c ∈ w, c ∈ d.alphabet
  · obtain ⟨x, hx, hends⟩ := h.exists_endsIn_of_symbols hw
    exact ⟨x, Finset.mem_insert_of_mem hx, hends⟩
  · refine ⟨∅, Finset.mem_insert_self _ _, fun t => ?_⟩
    rw [run_toNfa, start_toNfa]
    simpa using fun hrun => hw (mem_alphabet_of_run hrun)

theorem WellFormed.numStates_union?_le (ha : a.WellFormed) (hb : b.WellFormed) (hd : a.union? b = some d) :
    d.numStates ≤ 1 + (a.numStates + 1) * (b.numStates + 1) := by
  calc d.numStates
    _ ≤ 1 + (joined 1 (1 + a.toNfa.numStates) (insert ∅ (singletons a.numStates))
          (insert ∅ (singletons b.numStates))).card :=
      ha.toNfa.numStates_union_le hb.toNfa hd (fun w _ => ha.exists_endsIn w) (fun w _ => hb.exists_endsIn w)
    _ ≤ 1 + (insert ∅ (singletons a.numStates)).card * (insert ∅ (singletons b.numStates)).card := by
      gcongr
      exact card_joined_le_of_empty_mem (Finset.mem_insert_self _ _) (Finset.mem_insert_self _ _)
    _ ≤ 1 + (a.numStates + 1) * (b.numStates + 1) := by
      gcongr <;> exact card_insert_singletons_le _

theorem WellFormed.numStates_union?_le_of_alphabet_eq (ha : a.WellFormed) (hb : b.WellFormed)
    (heq : a.alphabet = b.alphabet) (hd : a.union? b = some d) : d.numStates ≤ 2 + a.numStates * b.numStates := by
  have halphabet : a.toNfa.alphabet.union b.toNfa.alphabet = a.alphabet := by
    rw [alphabet_toNfa, alphabet_toNfa, ← heq, Alphabet.union_self]
  calc d.numStates
    _ ≤ 1 + (joined 1 (1 + a.toNfa.numStates) (singletons a.numStates) (singletons b.numStates)).card := by
      apply ha.toNfa.numStates_union_le hb.toNfa hd
      · rw [halphabet]
        exact fun w hw => ha.exists_endsIn_of_symbols hw
      · rw [halphabet, heq]
        exact fun w hw => hb.exists_endsIn_of_symbols hw
    _ ≤ 1 + (1 + (singletons a.numStates).card * (singletons b.numStates).card) := by
      gcongr
      exact card_joined_le
    _ ≤ 1 + (1 + a.numStates * b.numStates) := by
      gcongr <;> exact card_singletons_le _
    _ = 2 + a.numStates * b.numStates := by omega

theorem WellFormed.numStates_concat?_le (ha : a.WellFormed) (hb : b.WellFormed) (hd : a.concat? b = some d) :
    d.numStates ≤ (a.numStates + 1) * 2 ^ b.numStates := by
  calc d.numStates
    _ ≤ (joined 0 a.toNfa.numStates (insert ∅ (singletons a.numStates))
          (Finset.range b.toNfa.numStates).powerset).card :=
      ha.toNfa.numStates_concat_le hb.toNfa hd fun w _ => ha.exists_endsIn w
    _ ≤ (insert ∅ (singletons a.numStates)).card * (Finset.range b.toNfa.numStates).powerset.card :=
      card_joined_le_of_empty_mem (Finset.mem_insert_self _ _) (Finset.empty_mem_powerset _)
    _ ≤ (a.numStates + 1) * 2 ^ b.numStates := by
      rw [Finset.card_powerset, Finset.card_range, numStates_toNfa]
      gcongr
      exact card_insert_singletons_le _

theorem WellFormed.numStates_concat?_le_of_alphabet_eq (ha : a.WellFormed) (hb : b.WellFormed)
    (heq : a.alphabet = b.alphabet) (hd : a.concat? b = some d) : d.numStates ≤ 1 + a.numStates * 2 ^ b.numStates := by
  have halphabet : a.toNfa.alphabet.union b.toNfa.alphabet = a.alphabet := by
    rw [alphabet_toNfa, alphabet_toNfa, ← heq, Alphabet.union_self]
  calc d.numStates
    _ ≤ (joined 0 a.toNfa.numStates (singletons a.numStates)
          (Finset.range b.toNfa.numStates).powerset).card := by
      apply ha.toNfa.numStates_concat_le hb.toNfa hd
      rw [halphabet]
      exact fun w hw => ha.exists_endsIn_of_symbols hw
    _ ≤ 1 + (singletons a.numStates).card * (Finset.range b.toNfa.numStates).powerset.card := card_joined_le
    _ ≤ 1 + a.numStates * 2 ^ b.numStates := by
      rw [Finset.card_powerset, Finset.card_range, numStates_toNfa]
      gcongr
      exact card_singletons_le _

theorem WellFormed.numStates_star?_le (ha : a.WellFormed) (hd : a.star? = some d) :
    d.numStates ≤ 1 + 2 ^ a.numStates := by
  have hle := ha.toNfa.numStates_star_le hd
  rwa [numStates_toNfa] at hle

/-- Bounds on the numbers of states of the regular operations on tables. They are lower where both operands have the
same alphabet, since no word then gets lost in one of them only. -/
theorem Constructible.numStates_operations_le (ha : a.Constructible) (hb : b.Constructible) :
    ∃ union concat star, a.union? b = some union ∧ a.concat? b = some concat ∧ a.star? = some star ∧
      union.numStates ≤ 1 + (a.numStates + 1) * (b.numStates + 1) ∧
      concat.numStates ≤ (a.numStates + 1) * 2 ^ b.numStates ∧
      star.numStates ≤ 1 + 2 ^ a.numStates ∧
      (a.alphabet = b.alphabet → union.numStates ≤ 2 + a.numStates * b.numStates ∧
        concat.numStates ≤ 1 + a.numStates * 2 ^ b.numStates) := by
  have ha := ha.wellFormed
  have hb := hb.wellFormed
  obtain ⟨union, hunion, -⟩ := ha.exists_union? hb
  obtain ⟨concat, hconcat, -⟩ := ha.exists_concat? hb
  obtain ⟨star, hstar, -⟩ := ha.exists_star?
  refine ⟨union, concat, star, hunion, hconcat, hstar, ha.numStates_union?_le hb hunion,
    ha.numStates_concat?_le hb hconcat, ha.numStates_star?_le hstar, fun heq => ⟨?_, ?_⟩⟩
  · exact ha.numStates_union?_le_of_alphabet_eq hb heq hunion
  · exact ha.numStates_concat?_le_of_alphabet_eq hb heq hconcat

/-- Operands with the same alphabet, of two and of four states. -/
theorem numStates_operations_le_evenAsSpare :
    evenAs.Constructible ∧ evenAsSpare.Constructible ∧ evenAs.alphabet = evenAsSpare.alphabet ∧
      ∃ union concat star, evenAs.union? evenAsSpare = some union ∧
        evenAs.concat? evenAsSpare = some concat ∧ evenAs.star? = some star ∧
        union.numStates ≤ 10 ∧ concat.numStates ≤ 33 ∧ star.numStates ≤ 5 := by
  have ha : evenAs.Constructible := constructible_evenAs
  have hb : evenAsSpare.Constructible := .ofDescription Description.parsed_evenAsSpare rfl
  have heq : evenAs.alphabet = evenAsSpare.alphabet := rfl
  obtain ⟨union, concat, star, hunion, hconcat, hstar, -, -, hstarle, hle⟩ :=
    Constructible.numStates_operations_le ha hb
  exact ⟨ha, hb, heq, union, concat, star, hunion, hconcat, hstar, (hle heq).1, (hle heq).2, hstarle⟩

end Dfa

end FiniteAutomata
