import FiniteAutomata.Proofs.Constructible
import Mathlib.Data.Finset.Image
import Mathlib.Data.Set.Function
import Mathlib.Tactic.IntervalCases

/-!
# Determinization is canonical

The subset construction numbers the sets of states in the order of their discovery, and this order does not depend
on the numbers of the states or on states that cannot be reached. If a map takes the states that can be reached in one
automaton one to one to those of another and keeps their moves, then the two constructions run in lockstep: at each
point the sets known on one side are the images of those known on the other, in the same order (`Nfa.Mirrors`), so
that the tables in the end are equal.
-/
namespace FiniteAutomata

namespace SortedSet

variable {f : Nat → Nat} {s t : SortedSet Nat} {b : Nat}

/-- The set of what a map makes of the members of a set. -/
def image (f : Nat → Nat) (s : SortedSet Nat) : SortedSet Nat := ofList (s.toList.map f)

theorem mem_image : b ∈ s.image f ↔ ∃ a ∈ s, f a = b := by
  rw [image, mem_ofList, List.mem_map]
  rfl

@[simp] theorem image_empty : (∅ : SortedSet Nat).image f = ∅ := rfl

/-- Sets of points on which a map is injective have different images. -/
theorem image_injOn {S : Set Nat} (hf : Set.InjOn f S) : Set.InjOn (image f) {s | ∀ a ∈ s, a ∈ S} := by
  have hsub {s t : SortedSet Nat} (hs : ∀ a ∈ s, a ∈ S) (ht : ∀ a ∈ t, a ∈ S)
      (heq : s.image f = t.image f) : ∀ a ∈ s, a ∈ t := by
    intro a ha
    have himage : f a ∈ t.image f := heq ▸ mem_image.mpr ⟨a, ha, rfl⟩
    obtain ⟨b, hb, hba⟩ := mem_image.mp himage
    exact hf (ht b hb) (hs a ha) hba ▸ hb
  intro s hs t ht heq
  exact ext fun a => ⟨hsub hs ht heq a, hsub ht hs heq.symm a⟩

end SortedSet

namespace Nfa

variable {m n : Nfa} {f : Nat → Nat} {S : Set Nat} {s t : Nat} {label : Option Char} {w : Word}
  {set : SortedSet Nat} {pending images : List (SortedSet Nat)}

/-- The labels that a move can have: none, or a symbol. -/
def labels (n : Nfa) : List (Option Char) := none :: n.alphabet.toList.map some

/-- The states that runs from the start lead to. -/
def reachable (n : Nfa) : Set Nat := {s | ∃ w, Run n.Moves n.start w s}

/-- On the states of a region, a map keeps what two automata over one alphabet do: it takes the start to
the start, keeps acceptance, and takes the targets of a state to the targets of its image. -/
structure Preserves (f : Nat → Nat) (S : Set Nat) (m n : Nfa) : Prop where
  alphabet_eq : m.alphabet = n.alphabet
  start_eq : f m.start = n.start
  isAccepting_eq : ∀ s ∈ S, n.isAccepting (f s) = m.isAccepting s
  targets_eq : ∀ s ∈ S, ∀ label ∈ m.labels,
    (n.targets (f s) label).toFinset = (m.targets s label).toFinset.image f

/-- A bijection between the states that can be reached, which keeps what they do. -/
structure IsIsomorphism (f : Nat → Nat) (m n : Nfa) : Prop extends Preserves f m.reachable m n where
  bijOn : Set.BijOn f m.reachable n.reachable

/-- New numbers for all states of an automaton in another, which may have further states. The moves of the states with
new numbers are those of the old ones, so that none leads to a further state. -/
structure IsRenumbering (f : Nat → Nat) (m n : Nfa) : Prop
    extends Preserves f {s | s < m.numStates} m n where
  injOn : Set.InjOn f {s | s < m.numStates}

theorem some_mem_labels {c : Char} : some c ∈ n.labels ↔ c ∈ n.alphabet := by
  rw [labels, List.mem_cons, or_iff_right (by simp), List.mem_map_of_injective (Option.some_injective _)]
  rfl

theorem WellFormed.label_mem_labels (hm : m.WellFormed) (h : m.Moves s label t) : label ∈ m.labels := by
  cases label with
  | none => exact List.mem_cons_self
  | some c => exact some_mem_labels.mpr (hm.label_mem s c t h)

theorem start_mem_reachable : n.start ∈ n.reachable := ⟨[], .refl _⟩

theorem mem_reachable_of_run (hs : s ∈ n.reachable) (h : Run n.Moves s w t) : t ∈ n.reachable := by
  obtain ⟨v, hv⟩ := hs
  exact ⟨v ++ w, hv.append h⟩

theorem mem_reachable_of_moves (hs : s ∈ n.reachable) (h : n.Moves s label t) : t ∈ n.reachable := by
  cases label with
  | none => exact mem_reachable_of_run hs (.silent h (.refl t))
  | some c => exact mem_reachable_of_run hs (.read h (.refl t))

theorem WellFormed.lt_of_mem_reachable (hn : n.WellFormed) (hs : s ∈ n.reachable) : s < n.numStates := by
  obtain ⟨w, hrun⟩ := hs
  exact hn.lt_of_run hn.start_lt hrun

/-- Targets are images of targets exactly if moves lead to images of what moves lead to. -/
theorem targets_eq_image_iff {s' : Nat} :
    (n.targets s' label).toFinset = (m.targets s label).toFinset.image f ↔
      ∀ t, n.Moves s' label t ↔ ∃ t', m.Moves s label t' ∧ f t' = t := by
  simp only [Finset.ext_iff, Finset.mem_image, List.mem_toFinset]
  rfl

namespace Preserves

theorem mono {T : Set Nat} (h : Preserves f T m n) (hST : S ⊆ T) : Preserves f S m n where
  alphabet_eq := h.alphabet_eq
  start_eq := h.start_eq
  isAccepting_eq s hs := h.isAccepting_eq s (hST hs)
  targets_eq s hs := h.targets_eq s (hST hs)

theorem labels_eq (h : Preserves f S m n) : m.labels = n.labels := by rw [labels, labels, h.alphabet_eq]

/-- The moves from an image lead to the images of what the moves from the original lead to. -/
theorem moves_iff (h : Preserves f S m n) (hm : m.WellFormed) (hn : n.WellFormed) (hs : s ∈ S) :
    n.Moves (f s) label t ↔ ∃ t', m.Moves s label t' ∧ f t' = t := by
  have htargets (hlabel : label ∈ m.labels) :
      n.Moves (f s) label t ↔ ∃ t', m.Moves s label t' ∧ f t' = t :=
    targets_eq_image_iff.mp (h.targets_eq s hs label hlabel) t
  constructor
  · intro hmove
    exact (htargets (h.labels_eq ▸ hn.label_mem_labels hmove)).mp hmove
  · rintro ⟨t', hmove, rfl⟩
    exact (htargets (hm.label_mem_labels hmove)).mpr ⟨t', hmove, rfl⟩

/-- The runs from an image lead to the images of what the runs from the original lead to, if no move leaves
the region. -/
theorem run_iff (h : Preserves f S m n) (hm : m.WellFormed) (hn : n.WellFormed)
    (hS : ∀ s ∈ S, ∀ label t, m.Moves s label t → t ∈ S) (hs : s ∈ S) :
    Run n.Moves (f s) w t ↔ ∃ t', Run m.Moves s w t' ∧ f t' = t := by
  constructor
  · intro hrun
    obtain ⟨t', -, rfl, hrun'⟩ := hrun.of_map (S := S) (fun s hs label t hmove => by
      obtain ⟨t', hmove', rfl⟩ := (h.moves_iff hm hn hs).mp hmove
      exact ⟨t', hS s hs label t' hmove', rfl, hmove'⟩) hs
    exact ⟨t', hrun', rfl⟩
  · rintro ⟨t', hrun, rfl⟩
    exact hrun.map_of_mem hS (fun s hs label t hmove => (h.moves_iff hm hn hs).mpr ⟨t, hmove, rfl⟩) hs

/-- What keeps what the reachable states do, and makes no two of them the same, takes them onto the reachable states of
the other automaton. -/
theorem isIsomorphism (h : Preserves f m.reachable m n) (hm : m.WellFormed) (hn : n.WellFormed)
    (hinj : Set.InjOn f m.reachable) : IsIsomorphism f m n where
  toPreserves := h
  bijOn := by
    have hrun {w : Word} {t : Nat} :
        Run n.Moves n.start w t ↔ ∃ t', Run m.Moves m.start w t' ∧ f t' = t := by
      rw [← h.start_eq]
      exact h.run_iff hm hn (fun s hs label t hmove => mem_reachable_of_moves hs hmove)
        start_mem_reachable
    refine ⟨?_, hinj, ?_⟩
    · rintro s ⟨w, hs⟩
      exact ⟨w, hrun.mpr ⟨s, hs, rfl⟩⟩
    · rintro t ⟨w, ht⟩
      obtain ⟨s, hs, rfl⟩ := hrun.mp ht
      exact ⟨s, ⟨w, hs⟩, rfl⟩

end Preserves

/-- A renumbering of all states is a bijection between those that can be reached. -/
theorem IsRenumbering.isIsomorphism (h : IsRenumbering f m n) (hm : m.WellFormed) (hn : n.WellFormed) :
    IsIsomorphism f m n :=
  (h.toPreserves.mono fun _ => hm.lt_of_mem_reachable).isIsomorphism hm hn
    (h.injOn.mono fun _ => hm.lt_of_mem_reachable)

namespace IsIsomorphism

variable (h : IsIsomorphism f m n) (hm : m.WellFormed) (hn : n.WellFormed)
include h hm hn

theorem run_iff (hs : s ∈ m.reachable) :
    Run n.Moves (f s) w t ↔ ∃ t', Run m.Moves s w t' ∧ f t' = t :=
  h.toPreserves.run_iff hm hn (fun _ hs _ _ => mem_reachable_of_moves hs) hs

theorem isClosedSet_image (hset : ∀ s ∈ set, s ∈ m.reachable) (hclosed : m.IsClosedSet set) :
    n.IsClosedSet (set.image f) where
  lt s' hs' := by
    obtain ⟨s, hs, rfl⟩ := SortedSet.mem_image.mp hs'
    exact hn.lt_of_mem_reachable (h.bijOn.mapsTo (hset s hs))
  closed s' hs' t' hmove := by
    obtain ⟨s, hs, rfl⟩ := SortedSet.mem_image.mp hs'
    obtain ⟨t, ht, rfl⟩ := (h.moves_iff hm hn (hset s hs)).mp hmove
    exact SortedSet.mem_image.mpr ⟨t, hclosed.closed s hs t ht, rfl⟩

/-- The step of an image is the image of the step. -/
theorem stepOf_image (hset : ∀ s ∈ set, s ∈ m.reachable) (hclosed : m.IsClosedSet set) (c : Char) :
    n.stepOf (set.image f) c = (m.stepOf set c).image f := by
  apply SortedSet.ext
  intro t
  rw [hn.mem_stepOf (h.isClosedSet_image hm hn hset hclosed), SortedSet.mem_image]
  constructor
  · rintro ⟨s', hs', hrun⟩
    obtain ⟨s, hs, rfl⟩ := SortedSet.mem_image.mp hs'
    obtain ⟨t', hrun', rfl⟩ := (h.run_iff hm hn (hset s hs)).mp hrun
    exact ⟨t', (hm.mem_stepOf hclosed).mpr ⟨s, hs, hrun'⟩, rfl⟩
  · rintro ⟨t', ht', rfl⟩
    obtain ⟨s, hs, hrun⟩ := (hm.mem_stepOf hclosed).mp ht'
    exact ⟨f s, SortedSet.mem_image.mpr ⟨s, hs, rfl⟩,
      (h.run_iff hm hn (hset s hs)).mpr ⟨t', hrun, rfl⟩⟩

theorem images?_image (hset : ∀ s ∈ set, s ∈ m.reachable) (hclosed : m.IsClosedSet set) :
    n.images? (set.image f) = some ((m.alphabet.toList.map (m.stepOf set)).map (·.image f)) := by
  rw [hn.images?_eq (h.isClosedSet_image hm hn hset hclosed), List.map_map, ← h.alphabet_eq]
  exact congrArg some (List.map_congr_left fun c _ => h.stepOf_image hm hn hset hclosed c)

omit hm hn in
theorem any_isAccepting_image (hset : ∀ s ∈ set, s ∈ m.reachable) :
    (set.image f).toList.any n.isAccepting = set.toList.any m.isAccepting := by
  rw [Bool.eq_iff_iff, List.any_eq_true, List.any_eq_true]
  constructor
  · rintro ⟨s', hs', hacc⟩
    obtain ⟨s, hs, rfl⟩ := SortedSet.mem_image.mp hs'
    exact ⟨s, hs, h.isAccepting_eq s (hset s hs) ▸ hacc⟩
  · rintro ⟨s, hs, hacc⟩
    exact ⟨f s, SortedSet.mem_image.mpr ⟨s, hs, rfl⟩, (h.isAccepting_eq s (hset s hs)).trans hacc⟩

end IsIsomorphism

theorem WellFormed.stepOf_subset_reachable (hm : m.WellFormed) (hclosed : m.IsClosedSet set)
    (hset : ∀ s ∈ set, s ∈ m.reachable) (c : Char) : ∀ t ∈ m.stepOf set c, t ∈ m.reachable := by
  intro t ht
  obtain ⟨s, hs, hrun⟩ := (hm.mem_stepOf hclosed).mp ht
  exact mem_reachable_of_run (hset s hs) hrun

/-- The sets known on one side hold states that can be reached, and their images are the sets known on the other
side, with the same numbers. -/
structure Mirrors (f : Nat → Nat) (m : Nfa) (known known' : Numbering (SortedSet Nat)) : Prop where
  reachable : ∀ set ∈ known.values, ∀ s ∈ set, s ∈ m.reachable
  values_eq : known'.values = known.values.map (·.image f)

namespace Mirrors

variable {known known' sets : Numbering (SortedSet Nat)} (hf : Set.InjOn f m.reachable)
  (h : Mirrors f m known known')
include hf h

/-- A set has the number that its image has on the other side. -/
theorem indexOf?_image (hset : ∀ s ∈ set, s ∈ m.reachable) :
    known'.indexOf? (set.image f) = known.indexOf? set := by
  ext i
  rw [Numbering.indexOf?_eq_some_iff, Numbering.indexOf?_eq_some_iff, h.values_eq,
    Array.getElem?_map, Option.map_eq_some_iff]
  constructor
  · rintro ⟨other, hother, heq⟩
    have hreach := h.reachable other (Array.mem_of_getElem? hother)
    exact SortedSet.image_injOn hf hreach hset heq ▸ hother
  · intro hi
    exact ⟨set, hi, rfl⟩

theorem add (hset : ∀ s ∈ set, s ∈ m.reachable) (hnew : known.indexOf? set = none) :
    Mirrors f m (known.add set) (known'.add (set.image f)) := by
  have hvalues : (known.add set).values = known.values.push set := by
    apply Numbering.values_add
    rw [← Numbering.isSome_indexOf?_iff, hnew]
    simp
  have hvalues' : (known'.add (set.image f)).values = known'.values.push (set.image f) := by
    apply Numbering.values_add
    rw [← Numbering.isSome_indexOf?_iff, h.indexOf?_image hf hset, hnew]
    simp
  constructor
  · intro other hother
    rw [hvalues, Array.mem_push] at hother
    rcases hother with hother | rfl
    · exact h.reachable other hother
    · exact hset
  · rw [hvalues, hvalues', h.values_eq, Array.map_push]

/-- Discovering the images of sets on the other side discovers the images of what is discovered on this side. -/
theorem discover (pending : List (SortedSet Nat))
    (himages : ∀ image ∈ images, ∀ s ∈ image, s ∈ m.reachable) :
    Mirrors f m (Nfa.discover known pending images).1
        (Nfa.discover known' (pending.map (·.image f)) (images.map (·.image f))).1 ∧
      (Nfa.discover known' (pending.map (·.image f)) (images.map (·.image f))).2 =
        (Nfa.discover known pending images).2.map (·.image f) := by
  induction images generalizing known known' pending with
  | nil => exact ⟨h, rfl⟩
  | cons image rest ih =>
    rw [List.forall_mem_cons] at himages
    have hindex := h.indexOf?_image hf himages.1
    simp only [List.map_cons, Nfa.discover, hindex]
    split
    · exact ih h pending himages.2
    · next hnew =>
      have hadd := h.add hf himages.1 (Option.not_isSome_iff_eq_none.mp hnew)
      exact ih hadd (image :: pending) himages.2

end Mirrors

variable {known known' sets : Numbering (SortedSet Nat)}

/-- Two explorations that start as mirror images stay so for as long as they run. -/
theorem IsIsomorphism.explore?_mirrors (h : IsIsomorphism f m n) (hm : m.WellFormed) (hn : n.WellFormed)
    {fuel : Nat} (hknown : Mirrors f m known known') (hfrontier : m.Frontier known pending)
    (hsets : m.explore? fuel known pending = some sets) :
    ∃ sets', n.explore? fuel known' (pending.map (·.image f)) = some sets' ∧
      Mirrors f m sets sets' := by
  induction fuel generalizing known known' pending with
  | zero =>
    cases hsets
    exact ⟨known', rfl, hknown⟩
  | succ fuel ih =>
    cases pending with
    | nil =>
      cases hsets
      exact ⟨known', rfl, hknown⟩
    | cons set rest =>
      have hmem := hfrontier.pending_mem set (by simp)
      have hclosed := hfrontier.closedSet set hmem
      have hset := hknown.reachable set hmem
      have himages : ∀ image ∈ m.alphabet.toList.map (m.stepOf set), ∀ s ∈ image, s ∈ m.reachable := by
        intro image himage
        obtain ⟨c, -, rfl⟩ := List.mem_map.mp himage
        exact hm.stepOf_subset_reachable hclosed hset c
      obtain ⟨hfound, hpending⟩ := hknown.discover h.bijOn.injOn rest himages
      simp only [explore?, hm.images?_eq hclosed, Option.bind_eq_bind, Option.bind_some] at hsets
      obtain ⟨sets', hsets', hmirrors⟩ := ih hfound (hfrontier.discover hm) hsets
      refine ⟨sets', ?_, hmirrors⟩
      simp only [List.map_cons, explore?, h.images?_image hm hn hset hclosed, Option.bind_eq_bind,
        Option.bind_some, hpending]
      exact hsets'

/-- The sets that the two constructions find in the end are mirror images. -/
theorem IsIsomorphism.powerSets?_mirrors (h : IsIsomorphism f m n) (hm : m.WellFormed) (hn : n.WellFormed) :
    ∃ sets sets', m.powerSets? = some sets ∧ n.powerSets? = some sets' ∧ m.Frontier sets [] ∧
      n.Frontier sets' [] ∧ Mirrors f m sets sets' := by
  obtain ⟨closure, hmem, hpower, hvalues, hfrontier, hfuel⟩ := hm.exists_start
  obtain ⟨closure', hmem', hpower', hvalues', hfrontier', hfuel'⟩ := hn.exists_start
  have hclosure : closure' = closure.image f := by
    apply SortedSet.ext
    intro t
    rw [hmem', ← h.start_eq, h.run_iff hm hn start_mem_reachable, SortedSet.mem_image]
    exact exists_congr fun s => and_congr_left' (hmem s).symm
  subst hclosure
  have hstart : Mirrors f m ((Numbering.empty.add ∅).add closure)
      ((Numbering.empty.add ∅).add (closure.image f)) := by
    constructor
    · intro set hset
      rw [hvalues] at hset
      rcases (by simpa using hset : set = ∅ ∨ set = closure) with rfl | rfl
      · exact fun s hs => absurd hs (SortedSet.not_mem_empty s)
      · exact fun s hs => ⟨[], (hmem s).mp hs⟩
    · simp [hvalues, hvalues']
  obtain ⟨sets, hsets, hfinal, -⟩ := hm.explore?_eq hfrontier hfuel
  obtain ⟨sets', hsets', hfinal', -⟩ := hn.explore?_eq hfrontier' hfuel'
  -- The automata may have different numbers of states, so the fuel of each is raised to the sum.
  have hmore := hm.explore?_add hfrontier hfuel (2 ^ n.numStates)
  have hmore' := hn.explore?_add hfrontier' hfuel' (2 ^ m.numStates)
  obtain ⟨found, hfound, hmirrors⟩ := h.explore?_mirrors hm hn hstart hfrontier (hmore.trans hsets)
  rw [List.map_singleton, Nat.add_comm, hmore', hsets'] at hfound
  cases hfound
  exact ⟨sets, sets', hpower.trans hsets, hpower'.trans hsets', hfinal, hfinal', hmirrors⟩

theorem IsIsomorphism.powerAutomaton_eq (h : IsIsomorphism f m n) (hm : m.WellFormed)
    (hn : n.WellFormed) {sets' : Numbering (SortedSet Nat)} (hfrontier : m.Frontier sets [])
    (hsets : Mirrors f m sets sets') : m.powerAutomaton sets = n.powerAutomaton sets' := by
  have hrow (set : SortedSet Nat) (hmem : set ∈ sets.values) (c : Char) :
      sets.indexOf? (m.stepOf set c) = sets'.indexOf? (n.stepOf (set.image f) c) := by
    have hclosed := hfrontier.closedSet set hmem
    have hset := hsets.reachable set hmem
    rw [h.stepOf_image hm hn hset hclosed,
      hsets.indexOf?_image h.bijOn.injOn (hm.stepOf_subset_reachable hclosed hset c)]
  have hrows : (m.powerAutomaton sets).rows = (n.powerAutomaton sets').rows := by
    simp only [powerAutomaton, hsets.values_eq, Array.map_map]
    apply Array.map_congr_left
    intro set hmem
    simp only [Function.comp_apply, hrow set hmem, h.alphabet_eq]
  have haccepting : (m.powerAutomaton sets).accepting = (n.powerAutomaton sets').accepting := by
    simp only [powerAutomaton, hsets.values_eq, Array.map_map]
    apply Array.map_congr_left
    intro set hmem
    exact (h.any_isAccepting_image (hsets.reachable set hmem)).symm
  rw [powerAutomaton, powerAutomaton, Dfa.mk.injEq]
  exact ⟨h.alphabet_eq, rfl, hrows, haccepting⟩

theorem IsIsomorphism.exists_determinize? (h : IsIsomorphism f m n) (hm : m.WellFormed)
    (hn : n.WellFormed) : ∃ d, m.determinize? = some d ∧ n.determinize? = some d := by
  obtain ⟨sets, sets', hsets, hsets', hfrontier, hfrontier', hmirrors⟩ := h.powerSets?_mirrors hm hn
  have heq := h.powerAutomaton_eq hm hn hfrontier hmirrors
  refine ⟨m.powerAutomaton sets, hm.determinize?_of_powerSets? hsets hfrontier, ?_⟩
  rw [heq]
  exact hn.determinize?_of_powerSets? hsets' hfrontier'

/-- Automata that are isomorphic where they can be reached have one and the same determinization, numbers included. In
particular it does not change with new numbers for the states, or with further states that cannot be reached. -/
theorem Constructible.determinize?_eq_of_isomorphic (hm : m.Constructible) (hn : n.Constructible)
    (f : Nat → Nat) :
    (IsIsomorphism f m n → ∃ d, m.determinize? = some d ∧ n.determinize? = some d) ∧
    (IsRenumbering f m n → ∃ d, m.determinize? = some d ∧ n.determinize? = some d) := by
  constructor
  · intro h
    exact h.exists_determinize? hm.wellFormed hn.wellFormed
  · intro h
    have hiso := h.isIsomorphism hm.wellFormed hn.wellFormed
    exact hiso.exists_determinize? hm.wellFormed hn.wellFormed

end Nfa

/-- The words that end in `b` once more. The states have other numbers, and a further state leads to the start. -/
def Description.endsInBRenumbered : Description where
  kind := .enfa
  mode := .lenient
  numStates := 3
  alphabet := Alphabet.ofChars ['a', 'b']
  start := 2
  accepting := SortedSet.ofList [0]
  transitions := [⟨2, some 'b', 0⟩, ⟨2, some 'b', 2⟩, ⟨0, none, 2⟩, ⟨2, some 'a', 2⟩, ⟨1, some 'a', 2⟩]

theorem Description.parsed_endsInBRenumbered : endsInBRenumbered.Parsed :=
  .inl ⟨"ENFA\n3\nb a\n2\n0\n2 b 0\n2 b 2\n0 ~ 2\n2 a 2\n1 a 2\n", rfl⟩

theorem Nfa.isRenumbering_endsInB : IsRenumbering (fun s => 2 - 2 * s)
    (ofDescription .endsInB) (ofDescription .endsInBRenumbered) where
  alphabet_eq := rfl
  start_eq := rfl
  isAccepting_eq s hs := by
    have hs : s < 2 := hs
    interval_cases s <;> rfl
  targets_eq s hs := by
    have hs : s < 2 := hs
    interval_cases s <;> decide
  injOn s hs t ht heq := by
    have hs : s < 2 := hs
    have ht : t < 2 := ht
    have heq : 2 - 2 * s = 2 - 2 * t := heq
    omega

theorem Nfa.determinize?_endsInBRenumbered :
    let renumber := fun s => 2 - 2 * s
    let first := ofDescription .endsInB
    let second := ofDescription .endsInBRenumbered
    (IsIsomorphism renumber first second ∧
      ∃ d, first.determinize? = some d ∧ second.determinize? = some d) ∧
    (IsRenumbering renumber first second ∧
      ∃ d, first.determinize? = some d ∧ second.determinize? = some d) := by
  intro renumber first second
  have hsecond : second.Constructible := .ofDescription Description.parsed_endsInBRenumbered
  have hrenumbering : IsRenumbering renumber first second := isRenumbering_endsInB
  have hiso := hrenumbering.isIsomorphism constructible_endsInB.wellFormed hsecond.wellFormed
  obtain ⟨hofIso, hofRenumbering⟩ :=
    Constructible.determinize?_eq_of_isomorphic constructible_endsInB hsecond renumber
  exact ⟨⟨hiso, hofIso hiso⟩, hrenumbering, hofRenumbering hrenumbering⟩

end FiniteAutomata
