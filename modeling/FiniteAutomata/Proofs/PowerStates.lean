import FiniteAutomata.Proofs.Constructible

/-!
# The states of a determinized automaton

The subset construction numbers the sets of states that it finds, and the numbers are the states of the deterministic
automaton: 0 for the empty set, 1 for the closure of the start state, and from each set the symbols lead to the sets
that they step to (`Nfa.StandsFor`). Every further set is found as a step of an earlier one that is not empty
(`Nfa.Traced`), so all states but the sink are reached from the start. The set of a state holds what the
runs lead to that spell a word leading to the state (`Nfa.Explored.mem_iff_run_start`).
-/
namespace FiniteAutomata

namespace Nfa

variable {n : Nfa} {known sets : Numbering (SortedSet Nat)} {pending rest : List (SortedSet Nat)}
  {set image : SortedSet Nat} {c : Char} {i j : Nat} {w : Word}

/-- The empty set has the number 0, and every set from number 2 on is a step of a set that has a smaller number
but not 0. -/
structure Traced (n : Nfa) (known : Numbering (SortedSet Nat)) : Prop where
  sink : known.values[0]? = some ∅
  source : ∀ i set, 2 ≤ i → known.values[i]? = some set → ∃ j source c, 1 ≤ j ∧ j < i ∧
    known.values[j]? = some source ∧ c ∈ n.alphabet ∧ n.stepOf source c = set

theorem Traced.pos (h : n.Traced known) (hi : known.values[i]? = some set) (hne : set ≠ ∅) : 1 ≤ i := by
  by_contra hzero
  obtain rfl : i = 0 := by omega
  rw [h.sink, Option.some_inj] at hi
  exact hne hi.symm

/-- Exploring a set finds nothing but its steps, and it does not find the empty set again. -/
theorem Traced.discover (h : n.Traced known) (hfrontier : n.Frontier known (set :: rest))
    (hne : ∀ s ∈ set :: rest, s ≠ ∅) :
    let found := Nfa.discover known rest (n.alphabet.toList.map (n.stepOf set))
    n.Traced found.1 ∧ ∀ s ∈ found.2, s ≠ ∅ := by
  obtain ⟨fresh, hvalues, hpending, hsub, -⟩ :=
    discover_eq known rest (n.alphabet.toList.map (n.stepOf set))
  obtain ⟨j, hj⟩ := Array.mem_iff_getElem?.mp (hfrontier.pending_mem set (by simp))
  have hpos := h.pos hj (hne set (by simp))
  have hjsize := (Array.getElem?_eq_some_iff.mp hj).1
  have hold (i : Nat) (hi : i < known.values.size) : (Nfa.discover known rest
      (n.alphabet.toList.map (n.stepOf set))).1.values[i]? = known.values[i]? := by
    rw [← Array.getElem?_toList, hvalues, List.getElem?_append_left hi, Array.getElem?_toList]
  have hfresh : ∅ ∉ fresh := by
    have hnodup : (known.values.toList ++ fresh).Nodup := hvalues ▸ Numbering.nodup_values
    have hempty : ∅ ∈ known.values.toList := Array.mem_toList_iff.mpr (Array.mem_of_getElem? h.sink)
    exact List.disjoint_of_nodup_append hnodup hempty
  refine ⟨⟨?_, fun i s hi hs => ?_⟩, fun s hs => ?_⟩
  · rw [hold 0 (by omega), h.sink]
  · by_cases hlt : i < known.values.size
    · rw [hold i hlt] at hs
      obtain ⟨k, source, c, hk, hki, hsource, hc, hstep⟩ := h.source i s hi hs
      exact ⟨k, source, c, hk, hki, (hold k (by omega)).trans hsource, hc, hstep⟩
    · -- What is new is a step of the explored set, which has been known before.
      rw [← Array.getElem?_toList, hvalues, List.getElem?_append_right (Nat.not_lt.mp hlt)] at hs
      obtain ⟨c, hc, hstep⟩ := List.mem_map.mp (hsub s (List.mem_of_getElem? hs))
      exact ⟨j, set, c, hpos, by omega, (hold j hjsize).trans hj, hc, hstep⟩
  · rw [hpending, List.mem_append, List.mem_reverse] at hs
    rcases hs with hs | hs
    · exact fun he => hfresh (he ▸ hs)
    · exact hne s (by simp [hs])

theorem WellFormed.explore?_traced (hn : n.WellFormed) {fuel : Nat} (h : n.Traced known)
    (hfrontier : n.Frontier known pending) (hne : ∀ s ∈ pending, s ≠ ∅)
    (hsets : n.explore? fuel known pending = some sets) : n.Traced sets := by
  induction fuel generalizing known pending with
  | zero =>
    cases hsets
    exact h
  | succ fuel ih =>
    cases pending with
    | nil =>
      cases hsets
      exact h
    | cons set rest =>
      have hclosed := hfrontier.closedSet set (hfrontier.pending_mem set (by simp))
      obtain ⟨htraced, hnonempty⟩ := h.discover hfrontier hne
      simp only [explore?, hn.images?_eq hclosed, Option.bind_eq_bind, Option.bind_some] at hsets
      exact ih htraced (hfrontier.discover hn) hnonempty hsets

/-- The sets that the exploration has found in the end: they lead to each other only, and it found them in the order of
their numbers. -/
structure Explored (n : Nfa) (sets : Numbering (SortedSet Nat)) : Prop
    extends Frontier n sets [], Traced n sets where
  start : ∃ closure, sets.values[1]? = some closure ∧ ∀ t, t ∈ closure ↔ Run n.Moves n.start [] t

theorem WellFormed.exists_explored (hn : n.WellFormed) :
    ∃ sets, n.determinize? = some (n.powerAutomaton sets) ∧ n.Explored sets := by
  obtain ⟨sets, hsets, hfinal, hstart⟩ := hn.powerSets?_eq
  obtain ⟨closure, hmem, hpower, hvalues, hfrontier, -⟩ := hn.exists_start
  have hne : closure ≠ ∅ := by
    rintro rfl
    exact SortedSet.not_mem_empty n.start ((hmem n.start).mpr (.refl _))
  have htraced : n.Traced ((Numbering.empty.add ∅).add closure) := by
    refine ⟨by simp [hvalues], fun i set hi hset => ?_⟩
    have hsize := (Array.getElem?_eq_some_iff.mp hset).1
    simp only [hvalues, List.size_toArray, List.length_cons, List.length_nil] at hsize
    omega
  have hexplored := hn.explore?_traced htraced hfrontier (by simpa using hne) (hpower.symm.trans hsets)
  exact ⟨sets, hn.determinize?_of_powerSets? hsets hfinal, hfinal, hexplored, hstart⟩

section PowerAutomaton

theorem Explored.lt_size (h : n.Explored sets) : 1 < sets.values.size := by
  obtain ⟨closure, hclosure, -⟩ := h.start
  exact (Array.getElem?_eq_some_iff.mp hclosure).1

theorem Explored.wellFormed (h : n.Explored sets) : (n.powerAutomaton sets).WellFormed := by
  obtain ⟨closure, hclosure, -⟩ := h.start
  exact h.toFrontier.wellFormed hclosure

/-- A set is stepped from and stepped to under its number. -/
theorem Explored.transition?_eq_some_iff (h : n.Explored sets) (hi : sets.values[i]? = some set)
    (hc : c ∈ n.alphabet) :
    (n.powerAutomaton sets).transition? i c = some j ↔ sets.values[j]? = some (n.stepOf set c) := by
  obtain ⟨k, hk, himage⟩ := h.toFrontier.transition?_eq hi hc
  rw [hk, Option.some_inj]
  constructor
  · rintro rfl
    exact himage
  · intro hj
    exact Numbering.number_unique himage hj

/-- A word leads from the number of a set to the number of the set that the runs spelling it lead to. -/
theorem Explored.mem_iff_run (hn : n.WellFormed) (h : n.Explored sets)
    (hi : sets.values[i]? = some set) (hj : sets.values[j]? = some image)
    (hrun : Run (n.powerAutomaton sets).Moves i w j) (t : Nat) :
    t ∈ image ↔ ∃ s ∈ set, Run n.Moves s w t := by
  induction w generalizing i set with
  | nil =>
    obtain rfl := Dfa.run_nil_iff.mp hrun
    obtain rfl := Option.some_inj.mp (hi.symm.trans hj)
    have hclosed := h.closedSet set (Array.mem_of_getElem? hi)
    exact ⟨fun ht => ⟨t, ht, .refl t⟩, fun ⟨s, hs, hsilent⟩ => hclosed.mem_of_run hs hsilent⟩
  | cons c w ih =>
    obtain ⟨k, hk, hrest⟩ := Dfa.run_cons_iff.mp hrun
    have hc : c ∈ n.alphabet := Dfa.mem_alphabet_of_transition? hk
    have hclosed := h.closedSet set (Array.mem_of_getElem? hi)
    rw [ih ((h.transition?_eq_some_iff hi hc).mp hk) hrest]
    constructor
    · rintro ⟨m, hm, hmt⟩
      obtain ⟨s, hs, hread⟩ := (hn.mem_stepOf hclosed).mp hm
      exact ⟨s, hs, hread.append hmt⟩
    · rintro ⟨s, hs, hst⟩
      obtain ⟨r, m, hr, hread, hmt⟩ := Run.cons_iff.mp hst
      exact ⟨m, (hn.mem_stepOf hclosed).mpr ⟨s, hs, hr.append (.read hread (.refl m))⟩, hmt⟩

/-- The set of a state that the start reaches holds what the runs from the start lead to that spell the same word. -/
theorem Explored.mem_iff_run_start (hn : n.WellFormed) (h : n.Explored sets)
    (hj : sets.values[j]? = some image) (hrun : Run (n.powerAutomaton sets).Moves 1 w j) (t : Nat) :
    t ∈ image ↔ Run n.Moves n.start w t := by
  obtain ⟨closure, hclosure, hmem⟩ := h.start
  rw [h.mem_iff_run hn hclosure hj hrun]
  constructor
  · rintro ⟨s, hs, hst⟩
    exact ((hmem s).mp hs).append hst
  · intro hst
    exact ⟨n.start, (hmem n.start).mpr (.refl n.start), hst⟩

/-- Every set after the first two is led to from an earlier one. -/
theorem Explored.exists_source (h : n.Explored sets) (hi : 2 ≤ i) (hlt : i < sets.values.size) :
    ∃ j c, 1 ≤ j ∧ j < i ∧ (n.powerAutomaton sets).transition? j c = some i := by
  obtain ⟨j, source, c, hj, hji, hsource, hc, hstep⟩ :=
    h.source i sets.values[i] hi (Array.getElem?_eq_getElem hlt)
  have hset : sets.values[i]? = some (n.stepOf source c) := by
    rw [hstep]
    exact Array.getElem?_eq_getElem hlt
  exact ⟨j, c, hj, hji, (h.transition?_eq_some_iff hsource hc).mpr hset⟩

/-- The order of the numbers leads back to the start from every set but the empty one. -/
theorem Explored.exists_run (h : n.Explored sets) (hi : 1 ≤ i) (hlt : i < sets.values.size) :
    ∃ w, Run (n.powerAutomaton sets).Moves 1 w i := by
  induction i using Nat.strong_induction_on with
  | _ i ih =>
    rcases Nat.eq_or_lt_of_le hi with rfl | hi
    · exact ⟨[], .refl 1⟩
    · obtain ⟨j, c, hj, hji, hmove⟩ := h.exists_source hi hlt
      obtain ⟨w, hrun⟩ := ih j hji hj (by omega)
      exact ⟨w ++ [c], hrun.append (.read (Dfa.moves_some.mpr hmove) (.refl i))⟩

end PowerAutomaton

/-- A set holds what epsilon moves lead to from some states, and the search for them finds it. -/
structure IsClosureOf (n : Nfa) (sources : List Nat) (set : SortedSet Nat) : Prop where
  closureOf?_eq : n.closureOf? sources = some set
  mem_iff : ∀ t, t ∈ set ↔ ∃ s ∈ sources, Run n.Moves s [] t

/-- The states of a deterministic automaton stand for different sets of states. State 0 stands for the empty set and
state 1 for the closure of the start, a symbol leads from a set to the closure of what it leads to from
the set's members, and a set accepts if one of its members does. -/
structure StandsFor (n : Nfa) (d : Dfa) (sets : Array (SortedSet Nat)) : Prop where
  size_eq : sets.size = d.numStates
  nodup : sets.toList.Nodup
  lt_numStates : ∀ set ∈ sets, ∀ s ∈ set, s < n.numStates
  sink : sets[0]? = some ∅
  start : ∃ closure, sets[1]? = some closure ∧ n.IsClosureOf [n.start] closure
  transition : ∀ i set c, sets[i]? = some set → c ∈ n.alphabet → ∃ j image,
    d.transition? i c = some j ∧ sets[j]? = some image ∧
      n.IsClosureOf (set.toList.flatMap fun s => n.targets s (some c)) image
  accepting : ∀ i set, sets[i]? = some set →
    (d.isAccepting i = true ↔ ∃ s ∈ set, n.isAccepting s = true)

theorem WellFormed.isClosureOf_start (hn : n.WellFormed)
    (hset : ∀ t, t ∈ set ↔ Run n.Moves n.start [] t) : n.IsClosureOf [n.start] set := by
  obtain ⟨closure, hclosure, -, hmem⟩ := hn.start_closure
  obtain rfl : set = closure := SortedSet.ext fun t => (hset t).trans (hmem t).symm
  exact ⟨hclosure, by simpa using hset⟩

theorem WellFormed.isClosureOf_stepOf (hn : n.WellFormed) (hset : n.IsClosedSet set) (c : Char) :
    n.IsClosureOf (set.toList.flatMap fun s => n.targets s (some c)) (n.stepOf set c) := by
  have htargets : ∀ t ∈ set.toList.flatMap fun s => n.targets s (some c), t < n.numStates := by
    intro t ht
    obtain ⟨s, -, hs⟩ := List.mem_flatMap.mp ht
    exact hn.target_lt s (some c) t hs
  obtain ⟨closure, hclosure, -, hmem⟩ := hn.closureOf?_eq htargets
  have hstep : some (n.stepOf set c) = some closure := (hn.step?_eq_stepOf hset c).symm.trans hclosure
  rw [Option.some_inj] at hstep
  rw [hstep]
  exact ⟨hclosure, hmem⟩

theorem Explored.standsFor (hn : n.WellFormed) (h : n.Explored sets) :
    n.StandsFor (n.powerAutomaton sets) sets.values where
  size_eq := numStates_powerAutomaton.symm
  nodup := Numbering.nodup_values
  lt_numStates set hset := (h.closedSet set hset).lt
  sink := h.sink
  start := by
    obtain ⟨closure, hclosure, hmem⟩ := h.start
    exact ⟨closure, hclosure, hn.isClosureOf_start hmem⟩
  transition i set c hi hc := by
    obtain ⟨j, hj, himage⟩ := h.toFrontier.transition?_eq hi hc
    have hclosed := h.closedSet set (Array.mem_of_getElem? hi)
    exact ⟨j, n.stepOf set c, hj, himage, hn.isClosureOf_stepOf hclosed c⟩
  accepting i set hi := by
    rw [isAccepting_powerAutomaton hi, List.any_eq_true]
    rfl

/-- The states of a determinized automaton stand for different sets of states. Each one that stands neither for the
empty set nor for the start is led to from one with a smaller number, so the start reaches all states but the
sink, which rejects and is not left. There are no more states than sets of states. -/
theorem Constructible.determinize?_standsFor (h : n.Constructible) :
    ∃ d sets, n.determinize? = some d ∧ d.alphabet = n.alphabet ∧ d.start = 1 ∧ n.StandsFor d sets ∧
      (∀ i, 2 ≤ i → i < d.numStates → ∃ j c, 1 ≤ j ∧ j < i ∧ d.transition? j c = some i) ∧
      (∀ i, 1 ≤ i → i < d.numStates → ∃ w, Run d.Moves d.start w i) ∧
      d.isAccepting 0 = false ∧ (∀ c ∈ d.alphabet, d.transition? 0 c = some 0) ∧
      2 ≤ d.numStates ∧ d.numStates ≤ 2 ^ n.numStates := by
  obtain ⟨sets, hd, hexplored⟩ := h.wellFormed.exists_explored
  have hloop : ∀ c ∈ n.alphabet, (n.powerAutomaton sets).transition? 0 c = some 0 := by
    intro c hc
    rw [hexplored.transition?_eq_some_iff hexplored.sink hc, stepOf_empty]
    exact hexplored.sink
  refine ⟨n.powerAutomaton sets, sets.values, hd, rfl, rfl, hexplored.standsFor h.wellFormed, ?_, ?_,
    isAccepting_powerAutomaton hexplored.sink, hloop, ?_, ?_⟩
  · intro i hi hlt
    exact hexplored.exists_source hi (numStates_powerAutomaton ▸ hlt)
  · intro i hi hlt
    exact hexplored.exists_run hi (numStates_powerAutomaton ▸ hlt)
  · rw [numStates_powerAutomaton]
    exact hexplored.lt_size
  · rw [numStates_powerAutomaton]
    exact hexplored.size_le

/-- The start reads `b` into a state that accepts. -/
theorem determinize?_standsFor_endsInB : (ofDescription .endsInB).Constructible ∧
    ∃ d sets j, (ofDescription .endsInB).determinize? = some d ∧
      (ofDescription .endsInB).StandsFor d sets ∧ 2 ≤ d.numStates ∧ d.numStates ≤ 4 ∧
      d.transition? 0 'b' = some 0 ∧ d.transition? 1 'b' = some j ∧ d.isAccepting j = true := by
  obtain ⟨d, sets, hd, halphabet, -, hstands, -, -, -, hloop, htwo, hle⟩ :=
    Constructible.determinize?_standsFor constructible_endsInB
  obtain ⟨closure, hclosure, hstart⟩ := hstands.start
  have hzero : 0 ∈ closure := (hstart.mem_iff 0).mpr ⟨0, by decide, .refl 0⟩
  obtain ⟨j, image, hj, himage, hstep⟩ := hstands.transition 1 closure 'b' hclosure (by decide)
  have hone : 1 ∈ image := by
    refine (hstep.mem_iff 1).mpr ⟨1, List.mem_flatMap.mpr ⟨0, hzero, ?_⟩, .refl 1⟩
    decide
  have hacc : d.isAccepting j = true := (hstands.accepting j image himage).mpr ⟨1, hone, by decide⟩
  exact ⟨constructible_endsInB, d, sets, j, hd, hstands, htwo, hle, hloop 'b' (halphabet ▸ by decide), hj, hacc⟩

end Nfa

end FiniteAutomata
