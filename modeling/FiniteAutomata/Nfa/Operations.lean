import FiniteAutomata.Nfa.Basic

/-!
# Regular operations on nondeterministic automata

Each operation copies its operands side by side into fresh states and joins the copies by epsilon moves. An operand whose
copy begins at state `k` has all its states moved up by `k`.
-/
namespace FiniteAutomata.Nfa

/-- Adds the transitions of `source`, with all states moved up by `offset`. -/
def copyShifted (target source : Nfa) (offset : Nat) : Nfa :=
  source.transitions.foldl
    (fun n t => n.addMove (t.source + offset) t.label (t.target + offset)) target

/-- Accepts in the copy of `source` at `offset` where `source` accepts. -/
def markShifted (target source : Nfa) (offset : Nat) : Nfa :=
  source.acceptingStates.foldl (fun n s => n.markAccepting (s + offset)) target

/-- Adds an epsilon move to `hub` from the copy at state 0 of each accepting state of `source`. -/
def linkAccepting (target source : Nfa) (hub : Nat) : Nfa :=
  source.acceptingStates.foldl (fun n s => n.addMove s none hub) target

/-- Accepts what `a` or `b` accepts. A new start state 0 has epsilon moves to the starts of both copies,
of `a` at 1 and of `b` behind it. -/
def union (a b : Nfa) : Nfa :=
  let offset := 1 + a.numStates
  let blank := withStates (1 + a.numStates + b.numStates) (a.alphabet.union b.alphabet) 0
  let entered := (blank.addMove 0 none (a.start + 1)).addMove 0 none (b.start + offset)
  let copied := (entered.copyShifted a 1).copyShifted b offset
  (copied.markShifted a 1).markShifted b offset

/-- Accepts a word of `a` followed by a word of `b`. The copy of `b` stands behind that of `a`, and the
accepting states of `a` have epsilon moves to the start of `b`. -/
def concat (a b : Nfa) : Nfa :=
  let offset := a.numStates
  let blank := withStates (a.numStates + b.numStates) (a.alphabet.union b.alphabet) a.start
  let copied := (blank.copyShifted a 0).copyShifted b offset
  (copied.linkAccepting a (b.start + offset)).markShifted b offset

/-- Accepts any number of words of `a` in a row. The new state behind those of `a` is the start and accepts; it has
an epsilon move to the start of `a`, and the accepting states of `a` have epsilon moves to it. -/
def star (a : Nfa) : Nfa :=
  let hub := a.numStates
  let copied := (withStates (a.numStates + 1) a.alphabet hub).copyShifted a 0
  ((copied.addMove hub none a.start).linkAccepting a hub).markAccepting hub

def plus (a : Nfa) : Nfa := a.concat a.star

end FiniteAutomata.Nfa
