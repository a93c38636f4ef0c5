import FiniteAutomata.Proofs.Constructible
import Mathlib.Order.Bounds.Basic

/-!
# Epsilon closures are the least closed sets

The search for an epsilon closure fails exactly if one of the given states does not exist. Otherwise it finds the
least set that contains them and that no epsilon move leaves, which is what zero or more epsilon moves lead to. The
closure is therefore a function of the set of the given states alone, and it has the laws of a closure operator that
respects unions (`Nfa.Constructible.hasClosures`).
-/
namespace FiniteAutomata.Nfa

open Search

variable {n : Nfa} {sources sources' : List Nat} {set set' : SortedSet Nat} {t : Nat}

/-- The sets that contain some states and that no epsilon move leaves. -/
def closedSupersets (n : Nfa) (sources : List Nat) : Set (Set Nat) :=
  {S | (∀ s ∈ sources, s ∈ S) ∧ ∀ s ∈ S, ∀ t, n.Moves s none t → t ∈ S}

theorem mem_closureOf? (h : n.closureOf? sources = some set) :
    t ∈ set ↔ ∃ s ∈ sources, Relation.ReflTransGen (n.Moves · none ·) s t := mem_reach? h

theorem isLeast_closureOf? (h : n.closureOf? sources = some set) :
    IsLeast (n.closedSupersets sources) {t | t ∈ set} := by
  refine ⟨⟨fun s hs => (mem_closureOf? h).mpr ⟨s, hs, .refl⟩, fun s hs t hmove => ?_⟩, fun S hS t ht => ?_⟩
  · obtain ⟨r, hr, hpath⟩ := (mem_closureOf? h).mp hs
    exact (mem_closureOf? h).mpr ⟨r, hr, hpath.tail hmove⟩
  · obtain ⟨s, hs, hpath⟩ := (mem_closureOf? h).mp ht
    exact Reaches.mem_of_closed hS.2 hpath (hS.1 s hs)

/-- A closure leads nowhere but to itself. -/
theorem closureOf?_toList (h : n.closureOf? sources = some set) : n.closureOf? set.toList = some set := by
  rw [← h]
  exact reach?_congr fun _ => reachedFrom_of_reached fun _ => mem_reach? h

namespace WellFormed

/-- Epsilon moves stay among the states, so only what is given can be out of range. -/
theorem closureOf?_eq_none_iff (hn : n.WellFormed) :
    n.closureOf? sources = none ↔ ∃ s ∈ sources, n.numStates ≤ s := by
  constructor
  · intro h
    by_contra hsources
    have hlt : ∀ s ∈ sources, s < n.numStates := by simpa using hsources
    obtain ⟨set, hset, -⟩ := hn.closureOf?_eq hlt
    rw [h] at hset
    cases hset
  · rintro ⟨s, hs, hge⟩
    exact reach?_eq_none_iff.mpr ⟨s, hge, .of_mem hs⟩

theorem lt_of_closureOf? (hn : n.WellFormed) (h : n.closureOf? sources = some set) :
    ∀ s ∈ sources, s < n.numStates := by
  intro s hs
  by_contra hge
  rw [hn.closureOf?_eq_none_iff.mpr ⟨s, hs, Nat.le_of_not_lt hge⟩] at h
  cases h

theorem closureOf?_mono (hn : n.WellFormed) (hsub : ∀ s ∈ sources, s ∈ sources')
    (h : n.closureOf? sources' = some set') :
    ∃ set, n.closureOf? sources = some set ∧ ∀ t ∈ set, t ∈ set' := by
  obtain ⟨set, hset, -⟩ := hn.closureOf?_eq fun s hs => hn.lt_of_closureOf? h s (hsub s hs)
  refine ⟨set, hset, fun t ht => ?_⟩
  exact (mem_reach? h).mpr (((mem_reach? hset).mp ht).mono hsub)

theorem closureOf?_append (hn : n.WellFormed) (h : n.closureOf? sources = some set)
    (h' : n.closureOf? sources' = some set') :
    ∃ both, n.closureOf? (sources ++ sources') = some both ∧ ∀ t, t ∈ both ↔ t ∈ set ∨ t ∈ set' := by
  have hlt : ∀ s ∈ sources ++ sources', s < n.numStates :=
    List.forall_mem_append.mpr ⟨hn.lt_of_closureOf? h, hn.lt_of_closureOf? h'⟩
  obtain ⟨both, hboth, -⟩ := hn.closureOf?_eq hlt
  refine ⟨both, hboth, fun t => ?_⟩
  rw [mem_reach? hboth, reachedFrom_append, mem_reach? h, mem_reach? h']

end WellFormed

/-- What an automaton answers as closures are the values of a closure operator on its states. -/
structure HasClosures (n : Nfa) : Prop where
  eq_none_iff : ∀ sources, n.closureOf? sources = none ↔ ∃ s ∈ sources, n.numStates ≤ s
  mem_iff : ∀ sources set, n.closureOf? sources = some set →
    ∀ t, t ∈ set ↔ ∃ s ∈ sources, Relation.ReflTransGen (n.Moves · none ·) s t
  isLeast : ∀ sources set, n.closureOf? sources = some set → IsLeast (n.closedSupersets sources) {t | t ∈ set}
  congr : ∀ sources sources', (∀ s, s ∈ sources ↔ s ∈ sources') → n.closureOf? sources = n.closureOf? sources'
  subset : ∀ sources set, n.closureOf? sources = some set → ∀ s ∈ sources, s ∈ set
  mono : ∀ sources sources' set', (∀ s ∈ sources, s ∈ sources') → n.closureOf? sources' = some set' →
    ∃ set, n.closureOf? sources = some set ∧ ∀ t ∈ set, t ∈ set'
  idempotent : ∀ sources set, n.closureOf? sources = some set → n.closureOf? set.toList = some set
  append : ∀ sources sources' set set', n.closureOf? sources = some set → n.closureOf? sources' = some set' →
    ∃ both, n.closureOf? (sources ++ sources') = some both ∧ ∀ t, t ∈ both ↔ t ∈ set ∨ t ∈ set'

/-- In an automaton that can be built, the closure of some states fails exactly if one of them does not exist. It is
otherwise the least set that contains them and is closed under epsilon moves. -/
theorem Constructible.hasClosures (h : n.Constructible) : n.HasClosures where
  eq_none_iff _ := h.wellFormed.closureOf?_eq_none_iff
  mem_iff _ _ hset _ := mem_closureOf? hset
  isLeast _ _ hset := isLeast_closureOf? hset
  congr _ _ hsources := reach?_congr_mem hsources
  subset _ _ hset := (isLeast_closureOf? hset).1.1
  mono _ _ _ hsub hset := h.wellFormed.closureOf?_mono hsub hset
  idempotent _ _ hset := closureOf?_toList hset
  append _ _ _ _ hset hset' := h.wellFormed.closureOf?_append hset hset'

/-- The hub of a repetition is on cycles of epsilon moves. -/
theorem hasClosures_star_endsInB :
    (ofDescription .endsInB).star.Constructible ∧ (ofDescription .endsInB).star.HasClosures := by
  have hstar : (ofDescription .endsInB).star.Constructible := .star constructible_endsInB
  exact ⟨hstar, hstar.hasClosures⟩

end FiniteAutomata.Nfa
