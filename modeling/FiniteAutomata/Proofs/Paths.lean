import FiniteAutomata.Proofs.Constructible

/-!
# Runs as lists of transitions

A run is made of transitions that follow each other, and it spells the labels among them that are no epsilon. Simulation
on sets of states is measured by these lists alone: it answers yes exactly on the words that a list of transitions from
the start to an accepting state spells (`Nfa.Constructible.simulate?_iff_path`), however many epsilon moves are in it.
-/
namespace FiniteAutomata

/-- The transitions of a list lead from a state to a state: each of them starts where the one before ends. -/
def IsPath : Nat → List Transition → Nat → Prop
  | s, [], t => s = t
  | s, e :: path, t => e.source = s ∧ IsPath e.target path t

/-- The labels along a path; an epsilon move has none. -/
def spelled (path : List Transition) : Word := path.filterMap (·.label)

variable {step : Nat → Option Char → Nat → Prop} {s t : Nat} {w : Word} {path : List Transition}

theorem Run.exists_path (h : Run step s w t) :
    ∃ path, (∀ e ∈ path, step e.source e.label e.target) ∧ IsPath s path t ∧ spelled path = w := by
  induction h with
  | refl s => exact ⟨[], by simp, rfl, rfl⟩
  | @silent s m u w move _ ih =>
    obtain ⟨path, hsteps, hpath, hword⟩ := ih
    refine ⟨⟨s, none, m⟩ :: path, ?_, ⟨rfl, hpath⟩, ?_⟩
    · simpa [move] using hsteps
    · simpa [spelled] using hword
  | @read s m u c w move _ ih =>
    obtain ⟨path, hsteps, hpath, hword⟩ := ih
    refine ⟨⟨s, some c, m⟩ :: path, ?_, ⟨rfl, hpath⟩, ?_⟩
    · simpa [move] using hsteps
    · simpa [spelled] using hword

theorem IsPath.run (h : IsPath s path t) (hsteps : ∀ e ∈ path, step e.source e.label e.target) :
    Run step s (spelled path) t := by
  induction path generalizing s with
  | nil =>
    unfold IsPath at h
    subst h
    exact .refl s
  | cons e path ih =>
    obtain ⟨source, label, target⟩ := e
    obtain ⟨rfl, hpath⟩ := h
    obtain ⟨hstep, hsteps⟩ := List.forall_mem_cons.mp hsteps
    have hrest := ih hpath hsteps
    cases label with
    | none => exact .silent hstep hrest
    | some c => exact .read hstep hrest

/-- The runs between two states are the paths between them. -/
theorem Run.iff_path : Run step s w t ↔
    ∃ path, (∀ e ∈ path, step e.source e.label e.target) ∧ IsPath s path t ∧ spelled path = w := by
  constructor
  · exact Run.exists_path
  · rintro ⟨path, hsteps, hpath, rfl⟩
    exact hpath.run hsteps

namespace Nfa

/-- A path of transitions of the automaton from its start to an accepting state. -/
structure AcceptingPath (n : Nfa) (path : List Transition) : Prop where
  transitions : ∀ e ∈ path, e ∈ n.transitions
  leads : ∃ t, IsPath n.start path t ∧ n.isAccepting t = true

theorem mem_language_iff_path {n : Nfa} :
    w ∈ n.language ↔ ∃ path, n.AcceptingPath path ∧ spelled path = w := by
  constructor
  · rintro ⟨t, haccepts, hrun⟩
    obtain ⟨path, hsteps, hpath, hword⟩ := Run.iff_path.mp hrun
    exact ⟨path, ⟨fun e he => mem_transitions.mpr (hsteps e he), t, hpath, haccepts⟩, hword⟩
  · rintro ⟨path, ⟨htransitions, t, hpath, haccepts⟩, hword⟩
    have hsteps : ∀ e ∈ path, n.Moves e.source e.label e.target := fun e he =>
      mem_transitions.mp (htransitions e he)
    exact ⟨t, haccepts, Run.iff_path.mpr ⟨path, hsteps, hpath, hword⟩⟩

/-- Simulation answers for every word, and it answers yes exactly if some path of transitions from the start to an
accepting state spells the word. -/
theorem Constructible.simulate?_iff_path {n : Nfa} (h : n.Constructible) (w : Word) :
    ∃ answer, n.simulate? w = some answer ∧
      (answer = true ↔ ∃ path, n.AcceptingPath path ∧ spelled path = w) := by
  obtain ⟨answer, hanswer, hiff⟩ := h.wellFormed.simulate?_eq w
  exact ⟨answer, hanswer, hiff.trans mem_language_iff_path⟩

/-- In a repetition epsilon moves run in circles, so a word has many paths. -/
theorem simulate?_iff_path_star_endsInB :
    (ofDescription .endsInB).star.Constructible ∧
      ∃ answer, (ofDescription .endsInB).star.simulate? ['a', 'b'] = some answer ∧
        (answer = true ↔ ∃ path, (ofDescription .endsInB).star.AcceptingPath path ∧ spelled path = ['a', 'b']) := by
  have hstar : (ofDescription .endsInB).star.Constructible := .star constructible_endsInB
  exact ⟨hstar, hstar.simulate?_iff_path ['a', 'b']⟩

end Nfa

end FiniteAutomata
