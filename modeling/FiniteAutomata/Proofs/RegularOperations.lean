import FiniteAutomata.Proofs.WellFormed

/-!
# The languages of the regular operations

Union, concatenation, star and plus of well-formed automata are well-formed and accept the union, the product, the
Kleene star and the positive closure of the languages of their operands. Each proof has three parts: the moves of
the result as one equivalence, what a run does that starts in the copy of an operand, and what a run
does from the start.
-/
namespace FiniteAutomata.Nfa

variable {a b : Nfa} {s t k : Nat} {label : Option Char} {w : Word}

theorem WellFormed.target_range (h : a.WellFormed) (hs : a.Shifted k s label t) :
    t < a.numStates + k := by
  obtain ⟨s', t', -, rfl, hmove⟩ := hs
  have := h.target_lt _ _ _ hmove
  omega

theorem WellFormed.mem_alphabet_of_shifted {c : Char} (h : a.WellFormed)
    (hs : a.Shifted k s (some c) t) : c ∈ a.alphabet := by
  obtain ⟨s', t', -, -, hmove⟩ := hs
  exact h.label_mem _ _ _ hmove

/-- The words that runs from a state to an accepting one spell. -/
def languageAt (n : Nfa) (s : Nat) : Language Char := languageFrom n.Moves (n.isAccepting ·) s

theorem mem_languageAt {n : Nfa} :
    w ∈ n.languageAt s ↔ ∃ t, n.isAccepting t = true ∧ Run n.Moves s w t := Iff.rfl

theorem nil_mem_languageAt {n : Nfa} (h : n.isAccepting s = true) : [] ∈ n.languageAt s :=
  ⟨s, h, .refl s⟩

theorem mem_languageAt_of_silent {n : Nfa} (hmove : n.Moves s none t) (h : w ∈ n.languageAt t) :
    w ∈ n.languageAt s := by
  obtain ⟨u, hacc, hrun⟩ := h
  exact ⟨u, hacc, .silent hmove hrun⟩

theorem mem_languageAt_of_read {n : Nfa} {c : Char} (hmove : n.Moves s (some c) t)
    (h : w ∈ n.languageAt t) : c :: w ∈ n.languageAt s := by
  obtain ⟨u, hacc, hrun⟩ := h
  exact ⟨u, hacc, .read hmove hrun⟩

/-- What holds at accepting states and backwards along moves holds of all words that are accepted. -/
theorem languageAt_induction {n : Nfa} {motive : ∀ s w, w ∈ n.languageAt s → Prop}
    (nil : ∀ s (hacc : n.isAccepting s = true), motive s [] (nil_mem_languageAt hacc))
    (silent : ∀ s t w (hmove : n.Moves s none t) (hrest : w ∈ n.languageAt t), motive t w hrest →
      motive s w (mem_languageAt_of_silent hmove hrest))
    (read : ∀ s c t w (hmove : n.Moves s (some c) t) (hrest : w ∈ n.languageAt t),
      motive t w hrest → motive s (c :: w) (mem_languageAt_of_read hmove hrest))
    (h : w ∈ n.languageAt s) : motive s w h := by
  obtain ⟨t, hacc, hrun⟩ := h
  induction hrun with
  | refl s => exact nil s hacc
  | silent hmove hrest ih => exact silent _ _ _ hmove ⟨_, hacc, hrest⟩ (ih hacc)
  | read hmove hrest ih => exact read _ _ _ _ hmove ⟨_, hacc, hrest⟩ (ih hacc)

/-- The runs from a copy that no move leaves are those of its original. -/
theorem WellFormed.run_copy_iff {n : Nfa} (ha : a.WellFormed)
    (hcopy : ∀ s < a.numStates, ∀ label t, n.Moves (s + k) label t ↔ a.Shifted k (s + k) label t)
    (hs : s < a.numStates) : Run n.Moves (s + k) w t ↔ ∃ t', t = t' + k ∧ Run a.Moves s w t' := by
  constructor
  · intro hrun
    obtain ⟨t', -, rfl, hrun'⟩ := hrun.of_map (f := (· + k)) (S := {s | s < a.numStates})
      (fun s hs label t hmove => by
        obtain ⟨t', rfl, hmove'⟩ := shifted_add.mp ((hcopy s hs label t).mp hmove)
        exact ⟨t', ha.target_lt _ _ _ hmove', rfl, hmove'⟩) hs
    exact ⟨t', rfl, hrun'⟩
  · rintro ⟨t', rfl, hrun⟩
    exact hrun.map_of_mem (f := (· + k)) (S := {s | s < a.numStates})
      (fun s _ label t hmove => ha.target_lt s label t hmove)
      (fun s hs label t hmove => (hcopy s hs label (t + k)).mpr ⟨s, t, rfl, rfl, hmove⟩) hs

/-- A copy that no move leaves, and that accepts as its original does, has its original's languages. -/
theorem WellFormed.languageAt_copy {n : Nfa} (ha : a.WellFormed)
    (hcopy : ∀ s < a.numStates, ∀ label t, n.Moves (s + k) label t ↔ a.Shifted k (s + k) label t)
    (hacc : ∀ s < a.numStates, n.isAccepting (s + k) = a.isAccepting s) (hs : s < a.numStates) :
    n.languageAt (s + k) = a.languageAt s := by
  ext w
  simp only [mem_languageAt, ha.run_copy_iff hcopy hs]
  constructor
  · rintro ⟨_, ht, t, rfl, hrun⟩
    exact ⟨t, (hacc t (ha.lt_of_run hs hrun)).symm.trans ht, hrun⟩
  · rintro ⟨t, ht, hrun⟩
    exact ⟨t + k, (hacc t (ha.lt_of_run hs hrun)).trans ht, t, rfl, hrun⟩

section Union

theorem numStates_union : (a.union b).numStates = 1 + a.numStates + b.numStates := by
  simp only [union, markShifted_frame, copyShifted_frame, numStates_addMove, numStates_withStates]

theorem alphabet_union : (a.union b).alphabet = a.alphabet.union b.alphabet := by
  simp only [union, markShifted_frame, copyShifted_frame, addMove, withStates]

theorem start_union : (a.union b).start = 0 := by
  simp only [union, markShifted_frame, copyShifted_frame, addMove, withStates]

theorem accepting_size_union : (a.union b).accepting.size = 1 + a.numStates + b.numStates := by
  simp only [union, markShifted_frame, copyShifted_frame, addMove, withStates, Array.size_replicate]

theorem moves_union : (a.union b).Moves s label t ↔
    s = 0 ∧ label = none ∧ (t = a.start + 1 ∨ t = b.start + (1 + a.numStates)) ∨
      a.Shifted 1 s label t ∨ b.Shifted (1 + a.numStates) s label t := by
  have hfirst : a.Shifted 1 s label t → s < 1 + a.numStates + b.numStates := fun h => by
    have := h.source_range
    omega
  have hsecond : b.Shifted (1 + a.numStates) s label t → s < 1 + a.numStates + b.numStates :=
    fun h => by
      have := h.source_range
      omega
  have hstart {p : Prop} : s < 1 + a.numStates + b.numStates ∧ s = 0 ∧ p ↔ s = 0 ∧ p :=
    and_iff_right_of_imp fun h => by omega
  simp only [union, moves_markShifted, moves_copyShifted, moves_addMove, not_moves_withStates,
    copyShifted_frame, numStates_addMove, numStates_withStates]
  simp only [and_iff_right_of_imp hfirst, and_iff_right_of_imp hsecond, hstart, false_or, or_assoc,
    and_or_left]

theorem isAccepting_union (ha : a.WellFormed) (hb : b.WellFormed) :
    (a.union b).isAccepting s = true ↔ (∃ s', s = s' + 1 ∧ a.isAccepting s' = true) ∨
      ∃ s', s = s' + (1 + a.numStates) ∧ b.isAccepting s' = true := by
  have hfirst : (∃ s', s = s' + 1 ∧ a.isAccepting s' = true) → s < 1 + a.numStates + b.numStates := by
    rintro ⟨s', rfl, hs⟩
    have := ha.lt_of_isAccepting hs
    omega
  have hsecond : (∃ s', s = s' + (1 + a.numStates) ∧ b.isAccepting s' = true) →
      s < 1 + a.numStates + b.numStates := by
    rintro ⟨s', rfl, hs⟩
    have := hb.lt_of_isAccepting hs
    omega
  simp only [union, isAccepting_markShifted, isAccepting_copyShifted, isAccepting_addMove,
    not_isAccepting_withStates, markShifted_frame, copyShifted_frame]
  simp only [addMove, withStates, Array.size_replicate, Bool.false_eq_true, false_or]
  rw [and_iff_right_of_imp hfirst, and_iff_right_of_imp hsecond]

theorem WellFormed.union (ha : a.WellFormed) (hb : b.WellFormed) : (a.union b).WellFormed where
  start_lt := by
    rw [start_union, numStates_union]
    omega
  accepting_size := by rw [accepting_size_union, numStates_union]
  target_lt s label t hmove := by
    have hstarta := ha.start_lt
    have hstartb := hb.start_lt
    rw [numStates_union]
    rcases moves_union.mp hmove with ⟨-, -, rfl | rfl⟩ | h | h
    · omega
    · omega
    · have := ha.target_range h
      omega
    · have := hb.target_range h
      omega
  label_mem s c t hmove := by
    rw [alphabet_union, Alphabet.mem_union]
    rcases moves_union.mp hmove with ⟨-, hlabel, -⟩ | h | h
    · cases hlabel
    · exact .inl (ha.mem_alphabet_of_shifted h)
    · exact .inr (hb.mem_alphabet_of_shifted h)

theorem moves_union_start : (a.union b).Moves 0 label t ↔
    label = none ∧ (t = a.start + 1 ∨ t = b.start + (1 + a.numStates)) := by
  have hfirst : ¬ a.Shifted 1 0 label t := fun h => by
    have := h.source_range
    omega
  have hsecond : ¬ b.Shifted (1 + a.numStates) 0 label t := fun h => by
    have := h.source_range
    omega
  simp [moves_union, hfirst, hsecond]

theorem moves_union_first (hs : s < a.numStates) :
    (a.union b).Moves (s + 1) label t ↔ a.Shifted 1 (s + 1) label t := by
  have hsecond : ¬ b.Shifted (1 + a.numStates) (s + 1) label t := fun h => by
    have := h.source_range
    omega
  simp [moves_union, hsecond]

theorem moves_union_second : (a.union b).Moves (s + (1 + a.numStates)) label t ↔
    b.Shifted (1 + a.numStates) (s + (1 + a.numStates)) label t := by
  have hfirst : ¬ a.Shifted 1 (s + (1 + a.numStates)) label t := fun h => by
    have := h.source_range
    omega
  rw [moves_union, or_iff_right (by omega), or_iff_right hfirst]

theorem isAccepting_union_start (ha : a.WellFormed) (hb : b.WellFormed) :
    (a.union b).isAccepting 0 = false := by
  rw [Bool.eq_false_iff, ne_eq, isAccepting_union ha hb]
  rintro (⟨s', hs', -⟩ | ⟨s', hs', -⟩) <;> omega

theorem isAccepting_union_first (ha : a.WellFormed) (hb : b.WellFormed) (hs : s < a.numStates) :
    (a.union b).isAccepting (s + 1) = a.isAccepting s := by
  rw [Bool.eq_iff_iff, isAccepting_union ha hb]
  constructor
  · rintro (⟨s', hs', hacc⟩ | ⟨s', hs', -⟩)
    · obtain rfl : s = s' := by omega
      exact hacc
    · omega
  · exact fun hacc => .inl ⟨s, rfl, hacc⟩

theorem isAccepting_union_second (ha : a.WellFormed) (hb : b.WellFormed) :
    (a.union b).isAccepting (s + (1 + a.numStates)) = b.isAccepting s := by
  rw [Bool.eq_iff_iff, isAccepting_union ha hb]
  constructor
  · rintro (⟨s', hs', hacc⟩ | ⟨s', hs', hacc⟩)
    · have := ha.lt_of_isAccepting hacc
      omega
    · obtain rfl : s = s' := by omega
      exact hacc
  · exact fun hacc => .inr ⟨s, rfl, hacc⟩

/-- A run from the start stays there, or goes on into one of the copies. -/
theorem run_union_start_iff (ha : a.WellFormed) (hb : b.WellFormed) : Run (a.union b).Moves 0 w t ↔
    (w = [] ∧ t = 0) ∨ (∃ t', t = t' + 1 ∧ Run a.Moves a.start w t') ∨
      ∃ t', t = t' + (1 + a.numStates) ∧ Run b.Moves b.start w t' := by
  have hfirst : Run (a.union b).Moves (a.start + 1) w t ↔
      ∃ t', t = t' + 1 ∧ Run a.Moves a.start w t' :=
    ha.run_copy_iff (fun _ hs _ _ => moves_union_first hs) ha.start_lt
  have hsecond : Run (a.union b).Moves (b.start + (1 + a.numStates)) w t ↔
      ∃ t', t = t' + (1 + a.numStates) ∧ Run b.Moves b.start w t' :=
    hb.run_copy_iff (fun _ _ _ _ => moves_union_second) hb.start_lt
  rw [← hfirst, ← hsecond]
  constructor
  · intro hrun
    cases hrun with
    | refl => exact .inl ⟨rfl, rfl⟩
    | silent move rest =>
      obtain ⟨-, rfl | rfl⟩ := moves_union_start.mp move
      · exact .inr (.inl rest)
      · exact .inr (.inr rest)
    | read move rest =>
      cases (moves_union_start.mp move).1
  · rintro (⟨rfl, rfl⟩ | hrun | hrun)
    · exact .refl 0
    · exact .silent (moves_union_start.mpr ⟨rfl, .inl rfl⟩) hrun
    · exact .silent (moves_union_start.mpr ⟨rfl, .inr rfl⟩) hrun

/-- The start state accepts nothing itself, so a run that accepts ends in one of the copies. -/
theorem language_union (ha : a.WellFormed) (hb : b.WellFormed) :
    (a.union b).language = a.language + b.language := by
  ext w
  simp only [Language.mem_add, language, start_union, mem_languageFrom, run_union_start_iff ha hb]
  constructor
  · rintro ⟨_, hacc, ⟨-, rfl⟩ | ⟨t, rfl, hrun⟩ | ⟨t, rfl, hrun⟩⟩
    · rw [isAccepting_union_start ha hb] at hacc
      cases hacc
    · rw [isAccepting_union_first ha hb (ha.lt_of_run ha.start_lt hrun)] at hacc
      exact .inl ⟨t, hacc, hrun⟩
    · rw [isAccepting_union_second ha hb] at hacc
      exact .inr ⟨t, hacc, hrun⟩
  · rintro (⟨t, hacc, hrun⟩ | ⟨t, hacc, hrun⟩)
    · rw [← isAccepting_union_first ha hb (ha.lt_of_run ha.start_lt hrun)] at hacc
      exact ⟨t + 1, hacc, .inr (.inl ⟨t, rfl, hrun⟩)⟩
    · rw [← isAccepting_union_second ha hb] at hacc
      exact ⟨t + (1 + a.numStates), hacc, .inr (.inr ⟨t, rfl, hrun⟩)⟩

end Union

section Concat

theorem numStates_concat : (a.concat b).numStates = a.numStates + b.numStates := by
  simp only [concat, markShifted_frame, linkAccepting_frame, copyShifted_frame, numStates_withStates]

theorem alphabet_concat : (a.concat b).alphabet = a.alphabet.union b.alphabet := by
  simp only [concat, markShifted_frame, linkAccepting_frame, copyShifted_frame, withStates]

theorem start_concat : (a.concat b).start = a.start := by
  simp only [concat, markShifted_frame, linkAccepting_frame, copyShifted_frame, withStates]

theorem accepting_size_concat : (a.concat b).accepting.size = a.numStates + b.numStates := by
  simp only [concat, markShifted_frame, linkAccepting_frame, copyShifted_frame, withStates,
    Array.size_replicate]

theorem moves_concat (ha : a.WellFormed) : (a.concat b).Moves s label t ↔
    a.Moves s label t ∨ b.Shifted a.numStates s label t ∨
      a.isAccepting s = true ∧ label = none ∧ t = b.start + a.numStates := by
  have hfirst : a.Moves s label t → s < a.numStates + b.numStates := fun h => by
    have := h.source_lt
    omega
  have hsecond : b.Shifted a.numStates s label t → s < a.numStates + b.numStates := fun h => by
    have := h.source_range
    omega
  have hlink : a.isAccepting s = true ∧ label = none ∧ t = b.start + a.numStates →
      s < a.numStates + b.numStates := fun h => by
    have := ha.lt_of_isAccepting h.1
    omega
  simp only [concat, moves_markShifted, moves_linkAccepting, moves_copyShifted,
    not_moves_withStates, copyShifted_frame, numStates_withStates, shifted_zero, false_or]
  rw [and_iff_right_of_imp hfirst, and_iff_right_of_imp hsecond, and_iff_right_of_imp hlink,
    or_assoc]

theorem isAccepting_concat (hb : b.WellFormed) : (a.concat b).isAccepting s = true ↔
    ∃ s', s = s' + a.numStates ∧ b.isAccepting s' = true := by
  have hsecond : (∃ s', s = s' + a.numStates ∧ b.isAccepting s' = true) →
      s < a.numStates + b.numStates := by
    rintro ⟨s', rfl, hs⟩
    have := hb.lt_of_isAccepting hs
    omega
  simp only [concat, isAccepting_markShifted, isAccepting_linkAccepting, isAccepting_copyShifted,
    not_isAccepting_withStates, linkAccepting_frame, copyShifted_frame]
  simp only [withStates, Array.size_replicate, Bool.false_eq_true, false_or]
  rw [and_iff_right_of_imp hsecond]

theorem WellFormed.concat (ha : a.WellFormed) (hb : b.WellFormed) : (a.concat b).WellFormed where
  start_lt := by
    have := ha.start_lt
    rw [start_concat, numStates_concat]
    omega
  accepting_size := by rw [accepting_size_concat, numStates_concat]
  target_lt s label t hmove := by
    rw [numStates_concat]
    rcases (moves_concat ha).mp hmove with h | h | ⟨-, -, rfl⟩
    · have := ha.target_lt _ _ _ h
      omega
    · have := hb.target_range h
      omega
    · have := hb.start_lt
      omega
  label_mem s c t hmove := by
    rw [alphabet_concat, Alphabet.mem_union]
    rcases (moves_concat ha).mp hmove with h | h | ⟨-, hlabel, -⟩
    · exact .inl (ha.label_mem _ _ _ h)
    · exact .inr (hb.mem_alphabet_of_shifted h)
    · cases hlabel

theorem moves_concat_second (ha : a.WellFormed) : (a.concat b).Moves (s + a.numStates) label t ↔
    b.Shifted a.numStates (s + a.numStates) label t := by
  have hfirst : ¬ a.Moves (s + a.numStates) label t := fun h => by
    have := h.source_lt
    omega
  have hlink : ¬ a.isAccepting (s + a.numStates) = true := fun h => by
    have := ha.lt_of_isAccepting h
    omega
  simp [moves_concat ha, hfirst, hlink]

theorem isAccepting_concat_second (hb : b.WellFormed) :
    (a.concat b).isAccepting (s + a.numStates) = b.isAccepting s := by
  rw [Bool.eq_iff_iff, isAccepting_concat hb]
  constructor
  · rintro ⟨s', hs', hacc⟩
    obtain rfl : s = s' := by omega
    exact hacc
  · exact fun hacc => ⟨s, rfl, hacc⟩

theorem languageAt_concat_second (ha : a.WellFormed) (hb : b.WellFormed) (hs : s < b.numStates) :
    (a.concat b).languageAt (s + a.numStates) = b.languageAt s :=
  hb.languageAt_copy (fun _ _ _ _ => moves_concat_second ha)
    (fun _ _ => isAccepting_concat_second hb) hs

/-- A run from the first copy reads a word of the first operand there, and the rest behind the link. -/
theorem languageAt_concat_first (ha : a.WellFormed) (hb : b.WellFormed) (hs : s < a.numStates) :
    (a.concat b).languageAt s = a.languageAt s * b.language := by
  have hsecond : (a.concat b).languageAt (b.start + a.numStates) = b.language :=
    languageAt_concat_second ha hb hb.start_lt
  ext w
  rw [Language.mem_mul]
  constructor
  · intro h
    -- The run starts in the first copy, and the only way out of it is the link.
    induction h using languageAt_induction with
    | nil s hacc =>
      obtain ⟨s', rfl, -⟩ := (isAccepting_concat hb).mp hacc
      omega
    | silent s t w hmove hrest ih =>
      rcases (moves_concat ha).mp hmove with h | h | ⟨hacc, -, rfl⟩
      · obtain ⟨u, hu, v, hv, rfl⟩ := ih (ha.target_lt _ _ _ h)
        exact ⟨u, mem_languageAt_of_silent h hu, v, hv, rfl⟩
      · have := h.source_range
        omega
      · exact ⟨[], nil_mem_languageAt hacc, w, hsecond ▸ hrest, rfl⟩
    | read s c t w hmove hrest ih =>
      rcases (moves_concat ha).mp hmove with h | h | ⟨-, hlabel, -⟩
      · obtain ⟨u, hu, v, hv, rfl⟩ := ih (ha.target_lt _ _ _ h)
        exact ⟨c :: u, mem_languageAt_of_read h hu, v, hv, rfl⟩
      · have := h.source_range
        omega
      · cases hlabel
  · rintro ⟨u, ⟨m, hacc, hrun⟩, v, hv, rfl⟩
    have hlink : (a.concat b).Moves m none (b.start + a.numStates) :=
      (moves_concat ha).mpr (.inr (.inr ⟨hacc, rfl, rfl⟩))
    rw [← hsecond] at hv
    obtain ⟨t, hacct, hrest⟩ := mem_languageAt_of_silent hlink hv
    have hfirst : Run (a.concat b).Moves s u m :=
      hrun.mono fun s label t h => (moves_concat ha).mpr (.inl h)
    exact ⟨t, hacct, hfirst.append hrest⟩

theorem language_concat (ha : a.WellFormed) (hb : b.WellFormed) :
    (a.concat b).language = a.language * b.language := by
  rw [language, start_concat]
  exact languageAt_concat_first ha hb ha.start_lt

end Concat

section Star

theorem numStates_star : a.star.numStates = a.numStates + 1 := by
  change ((((withStates (a.numStates + 1) a.alphabet a.numStates).copyShifted a 0).addMove
    a.numStates none a.start).linkAccepting a a.numStates).numStates = a.numStates + 1
  simp only [linkAccepting_frame, numStates_addMove, copyShifted_frame, numStates_withStates]

theorem alphabet_star : a.star.alphabet = a.alphabet := by
  simp only [star, markAccepting, linkAccepting_frame, addMove, copyShifted_frame, withStates]

theorem start_star : a.star.start = a.numStates := by
  simp only [star, markAccepting, linkAccepting_frame, addMove, copyShifted_frame, withStates]

theorem accepting_size_star : a.star.accepting.size = a.numStates + 1 := by
  simp only [star, markAccepting, linkAccepting_frame, addMove, copyShifted_frame, withStates,
    Array.size_modify, Array.size_replicate]

theorem moves_star (ha : a.WellFormed) : a.star.Moves s label t ↔
    a.Moves s label t ∨ (s = a.numStates ∧ label = none ∧ t = a.start) ∨
      a.isAccepting s = true ∧ label = none ∧ t = a.numStates := by
  have hcopy : a.Moves s label t → s < a.numStates + 1 := fun h => by
    have := h.source_lt
    omega
  have hstart : (s = a.numStates ∧ label = none ∧ t = a.start) → s < a.numStates + 1 := by omega
  have hlink : a.isAccepting s = true ∧ label = none ∧ t = a.numStates → s < a.numStates + 1 :=
    fun h => by
      have := ha.lt_of_isAccepting h.1
      omega
  simp only [star, moves_markAccepting, moves_linkAccepting, moves_addMove, moves_copyShifted,
    not_moves_withStates, copyShifted_frame, numStates_addMove, numStates_withStates,
    shifted_zero, false_or]
  rw [and_iff_right_of_imp hcopy, and_iff_right_of_imp hstart, and_iff_right_of_imp hlink, or_assoc]

theorem isAccepting_star : a.star.isAccepting s = true ↔ s = a.numStates := by
  simp only [star, isAccepting_markAccepting, isAccepting_linkAccepting, isAccepting_addMove,
    isAccepting_copyShifted, not_isAccepting_withStates, linkAccepting_frame]
  simp only [addMove, copyShifted_frame, withStates, Array.size_replicate, Bool.false_eq_true,
    false_or]
  omega

theorem WellFormed.star (ha : a.WellFormed) : a.star.WellFormed where
  start_lt := by
    rw [start_star, numStates_star]
    omega
  accepting_size := by rw [accepting_size_star, numStates_star]
  target_lt s label t hmove := by
    rw [numStates_star]
    rcases (moves_star ha).mp hmove with h | ⟨-, -, rfl⟩ | ⟨-, -, rfl⟩
    · have := ha.target_lt _ _ _ h
      omega
    · have := ha.start_lt
      omega
    · omega
  label_mem s c t hmove := by
    rw [alphabet_star]
    rcases (moves_star ha).mp hmove with h | ⟨-, hlabel, -⟩ | ⟨-, hlabel, -⟩
    · exact ha.label_mem _ _ _ h
    · cases hlabel
    · cases hlabel

open Computability

/-- From the hub a run reads words of the operand one after the other; inside the copy it first ends
the word that it is in. -/
theorem mem_kstar_of_languageAt_star (ha : a.WellFormed) (h : w ∈ a.star.languageAt s) :
    (s = a.numStates → w ∈ a.language∗) ∧
      (s < a.numStates → w ∈ a.languageAt s * a.language∗) := by
  induction h using languageAt_induction with
  | nil s hacc =>
    obtain rfl := isAccepting_star.mp hacc
    exact ⟨fun _ => Language.nil_mem_kstar _, fun h => by omega⟩
  | silent s t w hmove hrest ih =>
    rcases (moves_star ha).mp hmove with h | ⟨rfl, -, rfl⟩ | ⟨hacc, -, rfl⟩
    · have hs := h.source_lt
      refine ⟨fun _ => by omega, fun _ => ?_⟩
      obtain ⟨u, hu, v, hv, rfl⟩ := Language.mem_mul.mp (ih.2 (ha.target_lt _ _ _ h))
      exact Language.append_mem_mul (mem_languageAt_of_silent h hu) hv
    · have hle : a.language * a.language∗ ≤ a.language∗ := mul_kstar_le_kstar
      exact ⟨fun _ => hle (ih.2 ha.start_lt), fun h => by omega⟩
    · have hs := ha.lt_of_isAccepting hacc
      exact ⟨fun _ => by omega, fun _ =>
        Language.append_mem_mul (nil_mem_languageAt hacc) (ih.1 rfl)⟩
  | read s c t w hmove hrest ih =>
    rcases (moves_star ha).mp hmove with h | ⟨-, hlabel, -⟩ | ⟨-, hlabel, -⟩
    · have hs := h.source_lt
      refine ⟨fun _ => by omega, fun _ => ?_⟩
      obtain ⟨u, hu, v, hv, rfl⟩ := Language.mem_mul.mp (ih.2 (ha.target_lt _ _ _ h))
      exact Language.append_mem_mul (mem_languageAt_of_read h hu) hv
    · cases hlabel
    · cases hlabel

theorem mem_languageAt_star_of_flatten (ha : a.WellFormed) {words : List Word}
    (h : ∀ v ∈ words, v ∈ a.language) : words.flatten ∈ a.star.languageAt a.numStates := by
  induction words with
  | nil => exact nil_mem_languageAt (isAccepting_star.mpr rfl)
  | cons v words ih =>
    rw [List.forall_mem_cons] at h
    obtain ⟨m, hacc, hrun⟩ := h.1
    have hlink : a.star.Moves m none a.numStates :=
      (moves_star ha).mpr (.inr (.inr ⟨hacc, rfl, rfl⟩))
    have hstart : a.star.Moves a.numStates none a.start :=
      (moves_star ha).mpr (.inr (.inl ⟨rfl, rfl, rfl⟩))
    have hcopy : Run a.star.Moves a.start v m :=
      hrun.mono fun s label t h => (moves_star ha).mpr (.inl h)
    obtain ⟨t, hacct, hrest⟩ := mem_languageAt_of_silent hlink (ih h.2)
    exact ⟨t, hacct, .silent hstart (hcopy.append hrest)⟩

theorem language_star (ha : a.WellFormed) : a.star.language = a.language∗ := by
  ext w
  rw [language, start_star]
  constructor
  · exact fun h => (mem_kstar_of_languageAt_star ha h).1 rfl
  · intro h
    obtain ⟨words, rfl, hwords⟩ := Language.mem_kstar.mp h
    exact mem_languageAt_star_of_flatten ha hwords

theorem alphabet_plus : a.plus.alphabet = a.alphabet.union a.alphabet := by
  rw [plus, alphabet_concat, alphabet_star]

theorem WellFormed.plus (ha : a.WellFormed) : a.plus.WellFormed := ha.concat ha.star

theorem language_plus (ha : a.WellFormed) : a.plus.language = a.language * a.language∗ := by
  rw [plus, language_concat ha ha.star, language_star ha]

end Star

end FiniteAutomata.Nfa
