import FiniteAutomata.Proofs.Reachability
import FiniteAutomata.Proofs.WellFormed

/-!
# Simulation on sets of states

In a well-formed automaton closures and steps succeed, and both are described by runs: a closure holds what runs
without symbols lead to, and the step of a closed set on a symbol holds what runs that spell that symbol lead to.
Simulation therefore answers for every word, and it answers yes exactly on the language (`Nfa.WellFormed.simulate?_eq`).
-/
namespace FiniteAutomata.Nfa

open Search

variable {n : Nfa} {s t : Nat} {c : Char} {w : Word} {set : SortedSet Nat}

/-- A set of states that no epsilon move leaves. -/
structure IsClosedSet (n : Nfa) (set : SortedSet Nat) : Prop where
  lt : ∀ s ∈ set, s < n.numStates
  closed : ∀ s ∈ set, ∀ t, n.Moves s none t → t ∈ set

theorem IsClosedSet.mem_of_run (h : n.IsClosedSet set) (hs : s ∈ set) (hrun : Run n.Moves s [] t) :
    t ∈ set := by
  have hpath := Run.nil_iff.mp hrun
  induction hpath with
  | refl => exact hs
  | tail hpath hmove ih => exact h.closed _ (ih (Run.nil_iff.mpr hpath)) _ hmove

theorem isClosedSet_empty : n.IsClosedSet ∅ :=
  ⟨fun s hs => absurd hs (SortedSet.not_mem_empty s),
    fun s hs => absurd hs (SortedSet.not_mem_empty s)⟩

theorem reaches_targets_iff : Reaches (n.targets · none) s t ↔ Run n.Moves s [] t := by
  rw [Run.nil_iff]
  rfl

namespace WellFormed

theorem closureOf?_eq (h : n.WellFormed) {sources : List Nat} (hs : ∀ s ∈ sources, s < n.numStates) :
    ∃ closure, n.closureOf? sources = some closure ∧ n.IsClosedSet closure ∧
      ∀ t, t ∈ closure ↔ ∃ s ∈ sources, Run n.Moves s [] t := by
  obtain ⟨closure, hclosure⟩ : ∃ closure, n.closureOf? sources = some closure :=
    exists_reach? hs fun s _ t ht => h.target_lt s none t ht
  obtain ⟨hmem, hlt⟩ := reach?_eq_some_iff.mp hclosure
  have hiff : ∀ t, t ∈ closure ↔ ∃ s ∈ sources, Run n.Moves s [] t := fun t =>
    (hmem t).trans (exists_congr fun s => and_congr_right fun _ => reaches_targets_iff)
  refine ⟨closure, hclosure, ⟨hlt, fun s hs t ht => ?_⟩, hiff⟩
  obtain ⟨r, hr, hrun⟩ := (hiff s).mp hs
  exact (hiff t).mpr ⟨r, hr, by simpa using hrun.append (.silent ht (.refl t))⟩

/-- A step from a closed set leads to where runs that spell the symbol lead. -/
theorem step?_eq (h : n.WellFormed) (hset : n.IsClosedSet set) (c : Char) :
    ∃ image, n.step? set c = some image ∧ n.IsClosedSet image ∧
      ∀ t, t ∈ image ↔ ∃ s ∈ set, Run n.Moves s [c] t := by
  have htargets : ∀ t ∈ set.toList.flatMap (n.targets · (some c)), t < n.numStates := by
    intro t ht
    obtain ⟨s, _, hs⟩ := List.mem_flatMap.mp ht
    exact h.target_lt s (some c) t hs
  obtain ⟨image, himage, hclosed, hmem⟩ := h.closureOf?_eq htargets
  refine ⟨image, himage, hclosed, fun t => (hmem t).trans ?_⟩
  constructor
  · rintro ⟨m, hm, hrun⟩
    obtain ⟨s, hs, hmove⟩ := List.mem_flatMap.mp hm
    exact ⟨s, hs, .read hmove hrun⟩
  · rintro ⟨s, hs, hrun⟩
    obtain ⟨r, m, hr, hmove, hrest⟩ := Run.cons_iff.mp hrun
    exact ⟨m, List.mem_flatMap.mpr ⟨r, hset.mem_of_run hs hr, hmove⟩, hrest⟩

theorem run_nil_accepts_iff (hset : n.IsClosedSet set) :
    set.toList.any n.isAccepting = true ↔ ∃ s ∈ set, [] ∈ languageFrom n.Moves (n.isAccepting ·) s := by
  rw [List.any_eq_true]
  constructor
  · rintro ⟨s, hs, hacc⟩
    exact ⟨s, hs, s, hacc, .refl s⟩
  · rintro ⟨s, hs, t, hacc, hrun⟩
    exact ⟨t, hset.mem_of_run hs hrun, hacc⟩

/-- Reading the first symbol of a word moves a closed set to its step on that symbol. -/
theorem accepts_cons_iff {image : SortedSet Nat}
    (himage : ∀ t, t ∈ image ↔ ∃ s ∈ set, Run n.Moves s [c] t) :
    (∃ s ∈ set, c :: w ∈ languageFrom n.Moves (n.isAccepting ·) s) ↔
      ∃ t ∈ image, w ∈ languageFrom n.Moves (n.isAccepting ·) t := by
  constructor
  · rintro ⟨s, hs, u, hacc, hrun⟩
    obtain ⟨m, t, hm, hread, ht⟩ := Run.cons_iff.mp hrun
    exact ⟨t, (himage t).mpr ⟨s, hs, hm.append (.read hread (.refl t))⟩, u, hacc, ht⟩
  · rintro ⟨t, ht, u, hacc, hrun⟩
    obtain ⟨s, hs, hread⟩ := (himage t).mp ht
    exact ⟨s, hs, u, hacc, by simpa using hread.append hrun⟩

/-- A word with a foreign symbol is spelled by no run. -/
theorem not_accepts_of_not_mem (h : n.WellFormed) (hc : c ∉ n.alphabet) :
    c :: w ∉ languageFrom n.Moves (n.isAccepting ·) s := by
  rintro ⟨t, _, hrun⟩
  exact hc (hrun.forall_mem (fun a b d => h.label_mem a b d) c (by simp))

theorem simulateFrom?_eq (h : n.WellFormed) (hset : n.IsClosedSet set) (w : Word) :
    ∃ b, n.simulateFrom? set w = some b ∧
      (b = true ↔ ∃ s ∈ set, w ∈ languageFrom n.Moves (n.isAccepting ·) s) := by
  induction w generalizing set with
  | nil => exact ⟨_, rfl, run_nil_accepts_iff hset⟩
  | cons c w ih =>
    by_cases hc : c ∈ n.alphabet
    · obtain ⟨image, himage, hclosed, hmem⟩ := h.step?_eq hset c
      rw [accepts_cons_iff hmem]
      by_cases hempty : image.isEmpty = true
      · refine ⟨false, by simp [simulateFrom?, hc, himage, hempty], ?_⟩
        have hnil : image.toList = [] := List.isEmpty_iff.mp hempty
        simp [SortedSet.mem_def, hnil]
      · obtain ⟨b, hb, hiff⟩ := ih hclosed
        exact ⟨b, by simp [simulateFrom?, hc, himage, hempty, hb], hiff⟩
    · refine ⟨false, by simp [simulateFrom?, hc], ?_⟩
      simp only [Bool.false_eq_true, false_iff, not_exists, not_and]
      exact fun s _ => h.not_accepts_of_not_mem hc

theorem start_closure (h : n.WellFormed) :
    ∃ closure, n.closureOf? [n.start] = some closure ∧ n.IsClosedSet closure ∧
      ∀ t, t ∈ closure ↔ Run n.Moves n.start [] t := by
  have hstart : ∀ s ∈ [n.start], s < n.numStates := by simpa using h.start_lt
  obtain ⟨closure, hclosure, hclosed, hmem⟩ := h.closureOf?_eq hstart
  exact ⟨closure, hclosure, hclosed, fun t => by simp [hmem]⟩

/-- Starting from a closure of the start state loses no word and adds none. -/
theorem accepts_start_iff {closure : SortedSet Nat}
    (hmem : ∀ t, t ∈ closure ↔ Run n.Moves n.start [] t) :
    (∃ s ∈ closure, w ∈ languageFrom n.Moves (n.isAccepting ·) s) ↔ w ∈ n.language := by
  constructor
  · rintro ⟨s, hs, u, hacc, hrun⟩
    exact ⟨u, hacc, by simpa using ((hmem s).mp hs).append hrun⟩
  · exact fun hw => ⟨n.start, (hmem n.start).mpr (.refl _), hw⟩

theorem simulate?_eq (h : n.WellFormed) (w : Word) :
    ∃ b, n.simulate? w = some b ∧ (b = true ↔ w ∈ n.language) := by
  obtain ⟨closure, hclosure, hclosed, hmem⟩ := h.start_closure
  obtain ⟨b, hb, hiff⟩ := h.simulateFrom?_eq hclosed w
  exact ⟨b, by simp [simulate?, hclosure, hb], hiff.trans (accepts_start_iff hmem)⟩

end WellFormed

end FiniteAutomata.Nfa
