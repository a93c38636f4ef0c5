import FiniteAutomata.Dfa.Basic
import Mathlib.Computability.Language
import Mathlib.Logic.Relation

/-!
# Runs and languages

A relation of labelled moves has runs, which spell the labels that their moves read; epsilon moves spell
nothing. The language of an automaton or of a description is the set of the words that some run from the start
to an accepting state spells. It is defined without any of the searches on sets of states.
-/
namespace FiniteAutomata

/-- A finite sequence of moves, of which the word lists the labels that are no epsilon. -/
inductive Run (step : Nat → Option Char → Nat → Prop) : Nat → Word → Nat → Prop
  | refl (s : Nat) : Run step s [] s
  | silent {s t u : Nat} {w : Word} (move : step s none t) (rest : Run step t w u) :
      Run step s w u
  | read {s t u : Nat} {c : Char} {w : Word} (move : step s (some c) t) (rest : Run step t w u) :
      Run step s (c :: w) u

namespace Run

variable {step : Nat → Option Char → Nat → Prop}

theorem append {s t u : Nat} {v w : Word} (hv : Run step s v t) (hw : Run step t w u) :
    Run step s (v ++ w) u := by
  induction hv with
  | refl => exact hw
  | silent move _ ih => exact .silent move (ih hw)
  | read move _ ih => exact .read move (ih hw)

theorem nil_iff {s t : Nat} :
    Run step s [] t ↔ Relation.ReflTransGen (fun a b => step a none b) s t := by
  constructor
  · intro h
    generalize hw : ([] : Word) = w at h
    induction h with
    | refl => exact .refl
    | silent move _ ih => exact .head move (ih hw)
    | read => cases hw
  · intro h
    induction h using Relation.ReflTransGen.head_induction_on with
    | refl => exact .refl t
    | head move _ ih => exact .silent move ih

/-- The first label of a run is read after epsilon moves only. -/
theorem cons_iff {s u : Nat} {c : Char} {w : Word} :
    Run step s (c :: w) u ↔
      ∃ m t, Run step s [] m ∧ step m (some c) t ∧ Run step t w u := by
  constructor
  · intro h
    generalize hv : c :: w = v at h
    induction h with
    | refl => cases hv
    | silent move _ ih =>
      obtain ⟨m, t, hm, hread, ht⟩ := ih hv
      exact ⟨m, t, .silent move hm, hread, ht⟩
    | read move rest =>
      cases hv
      exact ⟨_, _, .refl _, move, rest⟩
  · rintro ⟨m, t, hm, hread, ht⟩
    exact hm.append (.read hread ht)

/-- A map of states that takes the moves in a region to moves takes the runs that stay there to runs. -/
theorem map_of_mem {step' : Nat → Option Char → Nat → Prop} {f : Nat → Nat} {S : Set Nat}
    (hS : ∀ s ∈ S, ∀ l t, step s l t → t ∈ S)
    (hf : ∀ s ∈ S, ∀ l t, step s l t → step' (f s) l (f t)) {s t : Nat} {w : Word}
    (h : Run step s w t) (hs : s ∈ S) : Run step' (f s) w (f t) := by
  induction h with
  | refl => exact .refl _
  | silent move _ ih => exact .silent (hf _ hs _ _ move) (ih (hS _ hs _ _ move))
  | read move _ ih => exact .read (hf _ hs _ _ move) (ih (hS _ hs _ _ move))

/-- A map of states that takes moves to moves takes runs to runs. -/
theorem map {step' : Nat → Option Char → Nat → Prop} {f : Nat → Nat}
    (hf : ∀ s l t, step s l t → step' (f s) l (f t)) {s t : Nat} {w : Word} (h : Run step s w t) :
    Run step' (f s) w (f t) :=
  h.map_of_mem (S := Set.univ) (fun _ _ _ _ _ => trivial) (fun s _ => hf s) trivial

theorem mono {step' : Nat → Option Char → Nat → Prop} (hstep : ∀ s l t, step s l t → step' s l t)
    {s t : Nat} {w : Word} (h : Run step s w t) : Run step' s w t :=
  h.map (f := id) hstep

/-- A run stays in the copy of a region where it starts, if all moves from the copy do. -/
theorem of_map {step' : Nat → Option Char → Nat → Prop} {f : Nat → Nat} {S : Set Nat}
    (hf : ∀ s ∈ S, ∀ l t, step' (f s) l t → ∃ t' ∈ S, t = f t' ∧ step s l t') {s t : Nat} {w : Word}
    (h : Run step' (f s) w t) (hs : s ∈ S) : ∃ t' ∈ S, t = f t' ∧ Run step s w t' := by
  generalize hfs : f s = s' at h
  induction h generalizing s with
  | refl => exact ⟨s, hs, hfs.symm, .refl s⟩
  | silent move _ ih =>
    subst hfs
    obtain ⟨m, hm, rfl, hstep⟩ := hf s hs _ _ move
    obtain ⟨t', ht', ht, hrun⟩ := ih hm rfl
    exact ⟨t', ht', ht, .silent hstep hrun⟩
  | read move _ ih =>
    subst hfs
    obtain ⟨m, hm, rfl, hstep⟩ := hf s hs _ _ move
    obtain ⟨t', ht', ht, hrun⟩ := ih hm rfl
    exact ⟨t', ht', ht, .read hstep hrun⟩

/-- A run ends in a set of states that it starts in and that no move leaves. -/
theorem mem_of_closed {S : Set Nat} (hS : ∀ s ∈ S, ∀ l t, step s l t → t ∈ S) {s t : Nat} {w : Word}
    (h : Run step s w t) (hs : s ∈ S) : t ∈ S := by
  induction h with
  | refl => exact hs
  | silent move _ ih => exact ih (hS _ hs _ _ move)
  | read move _ ih => exact ih (hS _ hs _ _ move)

theorem forall_mem {P : Char → Prop} (hP : ∀ s c t, step s (some c) t → P c) {s t : Nat} {w : Word}
    (h : Run step s w t) : ∀ c ∈ w, P c := by
  induction h with
  | refl => simp
  | silent _ _ ih => exact ih
  | read move _ ih => exact fun c hc => (List.mem_cons.mp hc).elim (fun e => e ▸ hP _ _ _ move) (ih c)

end Run

/-- The words of the runs from a state to an accepting one. -/
def languageFrom (step : Nat → Option Char → Nat → Prop) (accepts : Nat → Prop) (s : Nat) :
    Language Char :=
  {w | ∃ t, accepts t ∧ Run step s w t}

theorem mem_languageFrom {step : Nat → Option Char → Nat → Prop} {accepts : Nat → Prop} {s : Nat}
    {w : Word} : w ∈ languageFrom step accepts s ↔ ∃ t, accepts t ∧ Run step s w t := Iff.rfl

namespace Description

def Moves (d : Description) (s : Nat) (label : Option Char) (t : Nat) : Prop :=
  ⟨s, label, t⟩ ∈ d.transitions

/-- The language that the transition lines of a text describe. -/
def language (d : Description) : Language Char := languageFrom d.Moves (· ∈ d.accepting) d.start

end Description

namespace Nfa

def Moves (n : Nfa) (s : Nat) (label : Option Char) (t : Nat) : Prop := t ∈ n.targets s label

def language (n : Nfa) : Language Char := languageFrom n.Moves (n.isAccepting ·) n.start

end Nfa

namespace Dfa

def Moves (d : Dfa) (s : Nat) (label : Option Char) (t : Nat) : Prop :=
  ∃ c, label = some c ∧ d.transition? s c = some t

def language (d : Dfa) : Language Char := languageFrom d.Moves (d.isAccepting ·) d.start

end Dfa

end FiniteAutomata
