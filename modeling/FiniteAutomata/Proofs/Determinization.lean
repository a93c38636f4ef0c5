import FiniteAutomata.Dfa.Determinization
import FiniteAutomata.Proofs.Simulation
import Mathlib.Data.Finset.Powerset
import Mathlib.Data.Fintype.Card

/-!
# The subset construction

The sets that the exploration knows are closed, distinct sets of states, and every known set that is not pending
has all its images among the known ones (`Nfa.Frontier`). A set is explored once, so the fuel outlasts the
exploration, and nothing is pending in the end (`Nfa.WellFormed.powerSets?_eq`). The numbers of the known sets then
form a well-formed deterministic automaton with the same language.
-/
namespace FiniteAutomata

/-- Operations that all succeed yield the list of their results. -/
theorem mapM_eq_some_map {α β : Type} {f : α → Option β} {g : α → β} {l : List α}
    (h : ∀ a ∈ l, f a = some (g a)) : l.mapM f = some (l.map g) := by
  induction l with
  | nil => rfl
  | cons a l ih =>
    rw [List.mapM_cons, h a (by simp), ih fun b hb => h b (by simp [hb])]
    rfl

theorem array_mapM_eq_some_map {α β : Type} {f : α → Option β} {g : α → β} {xs : Array α}
    (hf : ∀ a ∈ xs, f a = some (g a)) : xs.mapM f = some (xs.map g) := by
  rw [Array.mapM_eq_mapM_toList, mapM_eq_some_map fun a ha => hf a (Array.mem_toList_iff.mp ha)]
  exact congrArg some (Array.toList_inj.mp (by simp))

namespace Numbering

variable {α : Type} [Ord α] [Std.TransOrd α] [Std.LawfulEqOrd α] {known : Numbering α} {a : α}

omit [Std.TransOrd α] [Std.LawfulEqOrd α] in
theorem isSome_indexOf?_iff : (known.indexOf? a).isSome = true ↔ a ∈ known.values := by
  rw [Option.isSome_iff_exists, Array.mem_iff_getElem?]
  exact exists_congr fun i => indexOf?_eq_some_iff

theorem values_add (h : a ∉ known.values) : (known.add a).values = known.values.push a := by
  have hnone : known.indexOf? a = none := by
    rw [← Option.not_isSome_iff_eq_none, isSome_indexOf?_iff]
    exact h
  unfold add
  split
  · next hsome => simp [hnone] at hsome
  · rfl

omit [Std.TransOrd α] [Std.LawfulEqOrd α] in
/-- A value has one number only. -/
theorem number_unique {i j : Nat} (hi : known.values[i]? = some a) (hj : known.values[j]? = some a) :
    i = j := by
  rw [← indexOf?_eq_some_iff] at hi hj
  exact Option.some_inj.mp (hi.symm.trans hj)

omit [Std.TransOrd α] [Std.LawfulEqOrd α] in
theorem nodup_values : known.values.toList.Nodup := by
  refine List.nodup_iff_injective_getElem.mpr fun i j hij => Fin.ext ?_
  have hi : known.values[i.val]? = some known.values.toList[i] := by simp
  have hj : known.values[j.val]? = some known.values.toList[j] := by simp
  exact number_unique hi (hj.trans (congrArg some hij.symm))

/-- Numbered sets are different, so a family that they all belong to bounds their number. -/
theorem size_values_le_card {known : Numbering (SortedSet Nat)} {family : Finset (Finset Nat)}
    (h : ∀ set ∈ known.values, set.toList.toFinset ∈ family) : known.values.size ≤ family.card := by
  have hnodup : (known.values.toList.map fun set => set.toList.toFinset).Nodup := by
    refine nodup_values.map fun x y hxy => SortedSet.ext fun a => ?_
    simpa [SortedSet.mem_def] using Finset.ext_iff.mp hxy a
  have hsub : (known.values.toList.map fun set => set.toList.toFinset).toFinset ⊆ family := by
    intro x hx
    obtain ⟨set, hset, rfl⟩ := List.mem_map.mp (List.mem_toFinset.mp hx)
    exact h set (Array.mem_toList_iff.mp hset)
  have hcard := Finset.card_le_card hsub
  rw [List.toFinset_card_of_nodup hnodup] at hcard
  simpa using hcard

end Numbering

namespace Nfa

open Search

variable {n : Nfa} {known : Numbering (SortedSet Nat)} {pending images : List (SortedSet Nat)}
  {set : SortedSet Nat} {c : Char}

/-- The step of a set that the automaton can take. -/
def stepOf (n : Nfa) (set : SortedSet Nat) (c : Char) : SortedSet Nat := (n.step? set c).getD ∅

theorem WellFormed.step?_eq_stepOf (h : n.WellFormed) (hset : n.IsClosedSet set) (c : Char) :
    n.step? set c = some (n.stepOf set c) := by
  obtain ⟨image, himage, _⟩ := h.step?_eq hset c
  simp [stepOf, himage]

theorem WellFormed.isClosedSet_stepOf (h : n.WellFormed) (hset : n.IsClosedSet set) (c : Char) :
    n.IsClosedSet (n.stepOf set c) := by
  obtain ⟨image, himage, hclosed, _⟩ := h.step?_eq hset c
  simpa [stepOf, himage] using hclosed

theorem WellFormed.mem_stepOf (h : n.WellFormed) (hset : n.IsClosedSet set) {t : Nat} :
    t ∈ n.stepOf set c ↔ ∃ s ∈ set, Run n.Moves s [c] t := by
  obtain ⟨image, himage, _, hmem⟩ := h.step?_eq hset c
  simpa [stepOf, himage] using hmem t

theorem WellFormed.images?_eq (h : n.WellFormed) (hset : n.IsClosedSet set) :
    n.images? set = some (n.alphabet.toList.map (n.stepOf set)) :=
  mapM_eq_some_map fun c _ => h.step?_eq_stepOf hset c

/-- Discovery makes all images known; what was not known yet becomes pending, and nothing else does. -/
theorem discover_eq (known : Numbering (SortedSet Nat)) (pending images : List (SortedSet Nat)) :
    ∃ fresh, (discover known pending images).1.values.toList = known.values.toList ++ fresh ∧
      (discover known pending images).2 = fresh.reverse ++ pending ∧
      (∀ set ∈ fresh, set ∈ images) ∧
      ∀ image ∈ images, image ∈ (discover known pending images).1.values := by
  induction images generalizing known pending with
  | nil => exact ⟨[], by simp [discover]⟩
  | cons image rest ih =>
    unfold discover
    split
    · next hknown =>
      obtain ⟨fresh, hvalues, hpending, hsub, hmem⟩ := ih known pending
      have himage : image ∈ known.values.toList :=
        Array.mem_toList_iff.mpr (Numbering.isSome_indexOf?_iff.mp hknown)
      refine ⟨fresh, hvalues, hpending, fun set hs => by simp [hsub set hs], ?_⟩
      rintro x hx
      rcases List.mem_cons.mp hx with rfl | hx
      · rw [← Array.mem_toList_iff, hvalues]
        exact List.mem_append_left _ himage
      · exact hmem x hx
    · next hnew =>
      obtain ⟨fresh, hvalues, hpending, hsub, hmem⟩ := ih (known.add image) (image :: pending)
      have hadd : (known.add image).values = known.values.push image :=
        Numbering.values_add (mt Numbering.isSome_indexOf?_iff.mpr hnew)
      rw [hadd, Array.toList_push, List.append_assoc] at hvalues
      refine ⟨image :: fresh, by simpa using hvalues, by simp [hpending], ?_, ?_⟩
      · intro set hs
        rcases List.mem_cons.mp hs with rfl | hs
        · simp
        · simp [hsub set hs]
      · rintro x hx
        rcases List.mem_cons.mp hx with rfl | hx
        · rw [← Array.mem_toList_iff, hvalues]
          simp
        · exact hmem x hx

/-- The known sets are closed, and all images of those that are not pending are known. -/
structure Frontier (n : Nfa) (known : Numbering (SortedSet Nat)) (pending : List (SortedSet Nat)) :
    Prop where
  closedSet : ∀ set ∈ known.values, n.IsClosedSet set
  pending_mem : ∀ set ∈ pending, set ∈ known.values
  images_mem : ∀ set ∈ known.values, set ∈ pending ∨
    ∀ c ∈ n.alphabet, n.stepOf set c ∈ known.values

/-- Exploring the set on top of the stack keeps the invariant. -/
theorem Frontier.discover (hn : n.WellFormed) {rest : List (SortedSet Nat)}
    (h : n.Frontier known (set :: rest)) :
    let found := Nfa.discover known rest (n.alphabet.toList.map (n.stepOf set))
    n.Frontier found.1 found.2 := by
  obtain ⟨fresh, hvalues, hpending, hsub, hmem⟩ :=
    discover_eq known rest (n.alphabet.toList.map (n.stepOf set))
  have hknown : ∀ x, x ∈ known.values → x ∈ (Nfa.discover known rest
      (n.alphabet.toList.map (n.stepOf set))).1.values := by
    intro x hx
    rw [← Array.mem_toList_iff, hvalues]
    exact List.mem_append_left _ (Array.mem_toList_iff.mpr hx)
  have hset := h.closedSet set (h.pending_mem set (by simp))
  refine ⟨fun x hx => ?_, fun x hx => ?_, fun x hx => ?_⟩
  · rw [← Array.mem_toList_iff, hvalues] at hx
    rcases List.mem_append.mp hx with hx | hx
    · exact h.closedSet x (Array.mem_toList_iff.mp hx)
    · obtain ⟨c, _, rfl⟩ := List.mem_map.mp (hsub x hx)
      exact hn.isClosedSet_stepOf hset c
  · rw [hpending] at hx
    rcases List.mem_append.mp hx with hx | hx
    · rw [← Array.mem_toList_iff, hvalues]
      exact List.mem_append_right _ (List.mem_reverse.mp hx)
    · exact hknown x (h.pending_mem x (by simp [hx]))
  · rw [hpending]
    rw [← Array.mem_toList_iff, hvalues] at hx
    rcases List.mem_append.mp hx with hx | hx
    · rcases h.images_mem x (Array.mem_toList_iff.mp hx) with hp | hi
      · rcases List.mem_cons.mp hp with rfl | hp
        · exact .inr fun c hc => hmem _ (List.mem_map.mpr ⟨c, hc, rfl⟩)
        · exact .inl (List.mem_append_right _ hp)
      · exact .inr fun c hc => hknown _ (hi c hc)
    · exact .inl (List.mem_append_left _ (List.mem_reverse.mpr hx))

/-- There are no more known sets than subsets of the states. -/
theorem Frontier.size_le (h : n.Frontier known pending) : known.values.size ≤ 2 ^ n.numStates := by
  have hmem : ∀ set ∈ known.values, set.toList.toFinset ∈ (Finset.range n.numStates).powerset := by
    intro set hset
    have hlt := (h.closedSet set hset).lt
    exact Finset.mem_powerset.mpr fun s hs => Finset.mem_range.mpr (hlt s (List.mem_toFinset.mp hs))
  have hcard := Numbering.size_values_le_card hmem
  rwa [Finset.card_powerset, Finset.card_range] at hcard

/-- A set becomes pending when it becomes known. -/
theorem size_discover (known : Numbering (SortedSet Nat)) (pending images : List (SortedSet Nat)) :
    known.values.size + (discover known pending images).2.length =
      pending.length + (discover known pending images).1.values.size := by
  obtain ⟨fresh, hvalues, hpending, _⟩ := discover_eq known pending images
  have hsize := congrArg List.length hvalues
  have hlength := congrArg List.length hpending
  simp only [List.length_append, List.length_reverse, Array.length_toList] at hsize hlength
  omega

/-- Each round explores one set of at most 2 ^ k, so enough fuel leaves nothing pending. -/
theorem WellFormed.explore?_eq (hn : n.WellFormed) {fuel : Nat} (h : n.Frontier known pending)
    (hfuel : 2 ^ n.numStates + pending.length < known.values.size + fuel) :
    ∃ sets, n.explore? fuel known pending = some sets ∧ n.Frontier sets [] ∧
      known.values.toList <+: sets.values.toList := by
  induction fuel generalizing known pending with
  | zero =>
    have := h.size_le
    omega
  | succ fuel ih =>
    cases pending with
    | nil => exact ⟨known, rfl, h, List.prefix_refl _⟩
    | cons set rest =>
      have hset := h.closedSet set (h.pending_mem set (by simp))
      obtain ⟨fresh, hvalues, -⟩ := discover_eq known rest (n.alphabet.toList.map (n.stepOf set))
      have hsize := size_discover known rest (n.alphabet.toList.map (n.stepOf set))
      obtain ⟨sets, hsets, hfrontier, hprefix⟩ := ih (h.discover hn) (by
        simp only [List.length_cons] at hfuel
        omega)
      refine ⟨sets, by simp [explore?, hn.images?_eq hset, hsets], hfrontier, ?_⟩
      exact ((hvalues ▸ List.prefix_append _ _ : known.values.toList <+: _)).trans hprefix

/-- Fuel that is left over does not change what is found. -/
theorem WellFormed.explore?_add (hn : n.WellFormed) {fuel : Nat} (h : n.Frontier known pending)
    (hfuel : 2 ^ n.numStates + pending.length < known.values.size + fuel) (extra : Nat) :
    n.explore? (fuel + extra) known pending = n.explore? fuel known pending := by
  induction fuel generalizing known pending with
  | zero =>
    have := h.size_le
    omega
  | succ fuel ih =>
    rw [Nat.succ_add]
    cases pending with
    | nil => rfl
    | cons set rest =>
      have hset := h.closedSet set (h.pending_mem set (by simp))
      have hsize := size_discover known rest (n.alphabet.toList.map (n.stepOf set))
      have hrest := ih (h.discover hn) (by
        simp only [List.length_cons] at hfuel
        omega)
      simpa [explore?, hn.images?_eq hset] using hrest

theorem stepOf_empty : n.stepOf ∅ c = ∅ := by
  have hnone : n.step? ∅ c = some ∅ := by
    refine reach?_eq_some_iff.mpr ⟨fun w => ?_, fun w hw => absurd hw (SortedSet.not_mem_empty w)⟩
    simp [ReachedFrom, show (∅ : SortedSet Nat).toList = [] from rfl]
  simp [stepOf, hnone]

/-- The empty set and the closure of the start state begin the exploration. -/
theorem IsClosedSet.frontier {closure : SortedSet Nat} (hclosed : n.IsClosedSet closure)
    (hmem : n.start ∈ closure) :
    ((Numbering.empty.add ∅).add closure).values = #[∅, closure] ∧
      n.Frontier ((Numbering.empty.add ∅).add closure) [closure] := by
  have hempty : ((Numbering.empty : Numbering (SortedSet Nat)).add ∅).values = #[∅] :=
    Numbering.values_add (by simp [Numbering.empty])
  have hne : closure ≠ ∅ := fun he => SortedSet.not_mem_empty n.start (he ▸ hmem)
  have hvalues : ((Numbering.empty.add ∅).add closure).values = #[∅, closure] := by
    rw [Numbering.values_add (by simpa [hempty] using hne), hempty]
    rfl
  refine ⟨hvalues, fun set hset => ?_, fun set hset => ?_, fun set hset => ?_⟩
  · rw [hvalues] at hset
    rcases (by simpa using hset : set = ∅ ∨ set = closure) with rfl | rfl
    · exact isClosedSet_empty
    · exact hclosed
  · simp [hvalues, List.mem_singleton.mp hset]
  · rw [hvalues] at hset
    rcases (by simpa using hset : set = ∅ ∨ set = closure) with rfl | rfl
    · exact .inr fun c _ => by simp [hvalues, stepOf_empty]
    · exact .inl (by simp)

/-- The exploration begins with the closure of the start state, and has enough fuel. -/
theorem WellFormed.exists_start (hn : n.WellFormed) :
    ∃ closure, (∀ t, t ∈ closure ↔ Run n.Moves n.start [] t) ∧
      n.powerSets? = n.explore? (2 ^ n.numStates) ((Numbering.empty.add ∅).add closure) [closure] ∧
      ((Numbering.empty.add ∅).add closure).values = #[∅, closure] ∧
      n.Frontier ((Numbering.empty.add ∅).add closure) [closure] ∧
      2 ^ n.numStates + [closure].length <
        ((Numbering.empty.add ∅).add closure).values.size + 2 ^ n.numStates := by
  obtain ⟨closure, hclosure, hclosed, hmem⟩ := hn.start_closure
  obtain ⟨hvalues, hfrontier⟩ := hclosed.frontier ((hmem n.start).mpr (.refl _))
  have hpower : n.powerSets? =
      n.explore? (2 ^ n.numStates) ((Numbering.empty.add ∅).add closure) [closure] := by
    rw [powerSets?, hclosure]
    rfl
  refine ⟨closure, hmem, hpower, hvalues, hfrontier, ?_⟩
  simp only [hvalues, List.size_toArray, List.length_cons, List.length_nil]
  omega

theorem WellFormed.powerSets?_eq (hn : n.WellFormed) :
    ∃ sets, n.powerSets? = some sets ∧ n.Frontier sets [] ∧
      ∃ closure, sets.values[1]? = some closure ∧ ∀ t, t ∈ closure ↔ Run n.Moves n.start [] t := by
  obtain ⟨closure, hmem, hpower, hvalues, hfrontier, hfuel⟩ := hn.exists_start
  obtain ⟨sets, hsets, hfinal, rest, hrest⟩ := hn.explore?_eq hfrontier hfuel
  refine ⟨sets, hpower.trans hsets, hfinal, closure, ?_, hmem⟩
  rw [← Array.getElem?_toList, ← hrest, hvalues]
  rfl

/-- The automaton whose states are the numbers of the given sets. -/
def powerAutomaton (n : Nfa) (sets : Numbering (SortedSet Nat)) : Dfa where
  alphabet := n.alphabet
  start := 1
  rows := sets.values.map fun set =>
    (n.alphabet.toList.map fun c => (sets.indexOf? (n.stepOf set c)).getD 0).toArray
  accepting := sets.values.map fun set => set.toList.any n.isAccepting

theorem WellFormed.determinize?_of_powerSets? (hn : n.WellFormed) {sets : Numbering (SortedSet Nat)}
    (hsets : n.powerSets? = some sets) (hfrontier : n.Frontier sets []) :
    n.determinize? = some (n.powerAutomaton sets) := by
  have hrows : sets.values.mapM (fun set => do
      return ((← n.images? set).map fun image => (sets.indexOf? image).getD 0).toArray) =
      some (n.powerAutomaton sets).rows := by
    refine array_mapM_eq_some_map fun set hset => ?_
    rw [hn.images?_eq (hfrontier.closedSet set hset), Option.bind_eq_bind, Option.bind_some, List.map_map]
    rfl
  rw [determinize?, hsets]
  change Option.bind (Array.mapM _ sets.values) _ = _
  rw [hrows]
  rfl

theorem WellFormed.determinize?_eq (hn : n.WellFormed) :
    ∃ sets, n.determinize? = some (n.powerAutomaton sets) ∧ n.Frontier sets [] ∧
      ∃ closure, sets.values[1]? = some closure ∧ ∀ t, t ∈ closure ↔ Run n.Moves n.start [] t := by
  obtain ⟨sets, hsets, hfrontier, hstart⟩ := hn.powerSets?_eq
  exact ⟨sets, hn.determinize?_of_powerSets? hsets hfrontier, hfrontier, hstart⟩

section PowerAutomaton

variable {sets : Numbering (SortedSet Nat)} {i : Nat}

@[simp] theorem numStates_powerAutomaton : (n.powerAutomaton sets).numStates = sets.values.size := by
  simp [Dfa.numStates, powerAutomaton]

/-- A symbol leads from the number of a set to the number of its step. -/
theorem Frontier.transition?_eq (h : n.Frontier sets []) (hi : sets.values[i]? = some set)
    (hc : c ∈ n.alphabet) :
    ∃ j, (n.powerAutomaton sets).transition? i c = some j ∧
      sets.values[j]? = some (n.stepOf set c) := by
  have hset := Array.mem_of_getElem? hi
  have himage : n.stepOf set c ∈ sets.values := (h.images_mem set hset).resolve_left (by simp) c hc
  obtain ⟨j, hj⟩ := Array.mem_iff_getElem?.mp himage
  obtain ⟨k, hk, _⟩ := Alphabet.exists_indexOf? hc
  have hrow : (n.powerAutomaton sets).rows[i]? = some
      (n.alphabet.toList.map fun c => (sets.indexOf? (n.stepOf set c)).getD 0).toArray := by
    simp [powerAutomaton, hi]
  refine ⟨j, Dfa.transition?_eq_some_iff.mpr ⟨_, k, hrow, hk, ?_⟩, hj⟩
  simp [Alphabet.indexOf?_eq_some_iff.mp hk, Numbering.indexOf?_eq_some_iff.mpr hj]

theorem isAccepting_powerAutomaton (hi : sets.values[i]? = some set) :
    (n.powerAutomaton sets).isAccepting i = set.toList.any n.isAccepting := by
  simp [Dfa.isAccepting, powerAutomaton, hi]

theorem Frontier.wellFormed (h : n.Frontier sets []) {closure : SortedSet Nat}
    (hstart : sets.values[1]? = some closure) : (n.powerAutomaton sets).WellFormed where
  start_lt := by
    rw [numStates_powerAutomaton]
    exact (Array.getElem?_eq_some_iff.mp hstart).1
  accepting_size := by simp [powerAutomaton, Dfa.numStates]
  row_size := by
    intro row hrow
    obtain ⟨set, _, rfl⟩ := Array.mem_map.mp hrow
    simp [powerAutomaton, Alphabet.size]
  entry_lt := by
    intro row hrow t ht
    obtain ⟨set, hset, rfl⟩ := Array.mem_map.mp hrow
    obtain ⟨c, hc, rfl⟩ := List.mem_map.mp (List.mem_toArray.mp ht)
    obtain ⟨j, hj⟩ := Array.mem_iff_getElem?.mp
      ((h.images_mem set hset).resolve_left (by simp) c hc)
    rw [Numbering.indexOf?_eq_some_iff.mpr hj, numStates_powerAutomaton]
    exact (Array.getElem?_eq_some_iff.mp hj).1

/-- From the number of a set on, the words that some state of the set accepts are accepted. -/
theorem Frontier.accepts_iff (hn : n.WellFormed) (h : n.Frontier sets [])
    (hi : sets.values[i]? = some set) (w : Word) :
    w ∈ languageFrom (n.powerAutomaton sets).Moves ((n.powerAutomaton sets).isAccepting ·) i ↔
      ∃ s ∈ set, w ∈ languageFrom n.Moves (n.isAccepting ·) s := by
  have hset := h.closedSet set (Array.mem_of_getElem? hi)
  induction w generalizing i set with
  | nil =>
    rw [← WellFormed.run_nil_accepts_iff hset, ← isAccepting_powerAutomaton hi]
    simp [mem_languageFrom, Dfa.run_nil_iff]
  | cons c w ih =>
    by_cases hc : c ∈ n.alphabet
    · obtain ⟨j, hj, himage⟩ := h.transition?_eq hi hc
      refine Iff.trans ?_ (WellFormed.accepts_cons_iff fun t => hn.mem_stepOf hset).symm
      refine Iff.trans ?_ (ih himage (hn.isClosedSet_stepOf hset c))
      simp [mem_languageFrom, Dfa.run_cons_iff, hj]
    · constructor
      · rintro ⟨u, _, hrun⟩
        obtain ⟨t, ht, _⟩ := Dfa.run_cons_iff.mp hrun
        exact absurd (Dfa.mem_alphabet_of_transition? ht) hc
      · rintro ⟨s, _, hs⟩
        exact absurd hs (hn.not_accepts_of_not_mem hc)

end PowerAutomaton

theorem alphabet_of_determinize? {d : Dfa} (h : n.determinize? = some d) :
    d.alphabet = n.alphabet := by
  simp only [determinize?, Option.bind_eq_bind, Option.bind_eq_some_iff] at h
  obtain ⟨sets, -, rows, -, htable⟩ := h
  cases htable
  rfl

/-- Determinization succeeds, and yields a well-formed automaton with the same alphabet and language. -/
theorem WellFormed.exists_determinize? (hn : n.WellFormed) :
    ∃ d, n.determinize? = some d ∧ d.WellFormed ∧ d.alphabet = n.alphabet ∧
      d.language = n.language := by
  obtain ⟨sets, hd, hfrontier, closure, hstart, hmem⟩ := hn.determinize?_eq
  refine ⟨_, hd, hfrontier.wellFormed hstart, rfl, Language.ext fun w => ?_⟩
  exact (hfrontier.accepts_iff hn hstart w).trans (WellFormed.accepts_start_iff hmem)

end Nfa

end FiniteAutomata
