import FiniteAutomata.Proofs.Execution
import FiniteAutomata.Proofs.RegistryHistory

/-!
# Commands that change the session in place

Executing a line answers a new session. Here the same commands work on one session in place, step by step, and what a step
has changed stays changed if a later step fails: a new automaton is registered before the report on it is made, and an
automaton is taken out before it is known whether there was one. Both ways of working come to the same session and
the same outcome (`Session.Action.on_performLine`), so no failure comes after an effect.
-/
namespace FiniteAutomata.Session

/-- A change of a session in place, which may fail on the way. -/
abbrev Action := EStateM CommandError Session

namespace Action

variable {α β : Type}

/-- What an action makes of a session, also if it fails. -/
def on (x : Action α) (s : Session) : Session × Except CommandError α :=
  match x.run s with
  | .ok a s' => (s', .ok a)
  | .error e s' => (s', .error e)

def ofExcept : Except CommandError α → Action α
  | .ok a => pure a
  | .error e => throw e

def find (i : Invocation) (position : Nat) : Action Dfa := do
  ofExcept ((← get).find i position)

def register (d : Dfa) : Action Identifier := modifyGet fun s => s.register d

/-- Takes an automaton out of the session, if it is there. -/
def take (id : Identifier) : Action (Option Dfa) :=
  modifyGet fun s => ((s.automata.take id).1, ⟨(s.automata.take id).2⟩)

def create (d? : Option Dfa) : Action Outcome := do
  let d ← ofExcept (inRange d?)
  let id ← register d
  return .output s!"created automaton {id} ({d.numStates} states)"

def openFile (read : Reader) (i : Invocation) : Action Outcome := do
  if i.path = "" then throw (.incomplete .openFile)
  let d ← ofExcept ((Dfa.load read i.path).mapError .fault)
  let id ← register d
  return .output s!"opened automaton {id}"

def saveAs (i : Invocation) : Action Outcome := do
  let d ← find i 0
  match i.arguments[1]? with
  | none => throw (.incomplete .saveAs)
  | some path =>
    ofExcept ((d.save (String.ofList (Invocation.unquote path))).mapError .fault)
    return .output ("saved to " ++ String.ofList path)

def close (i : Invocation) : Action Outcome := do
  let id ← ofExcept (i.identifier 0)
  match ← take id with
  | some _ => return .output s!"closed automaton {id}"
  | none => throw (.noAutomaton id)

def answer (i : Invocation) (ask : Dfa → Option Bool) : Action Outcome := do
  return .output (yesNo (← ofExcept (inRange (ask (← find i 0)))))

def perform (read : Reader) (i : Invocation) : Action Outcome :=
  match i.command with
  | .openFile => openFile read i
  | .list => do return .output (← get).listing
  | .print => do
    return .output (String.ofList (Text.trimEnd (← find i 0).renderTransitions.toList))
  | .saveAs => saveAs i
  | .empty => answer i Dfa.isLanguageEmpty?
  | .infinite => answer i Dfa.isLanguageInfinite?
  | .recognize => answer i (·.recognize? (i.arguments.getD 1 []))
  | .union => do create ((← find i 0).union? (← find i 1))
  | .concat => do create ((← find i 0).concat? (← find i 1))
  | .star => do create (← find i 0).star?
  | .plus => do create (← find i 0).plus?
  | .close => close i
  | .help => return .output Command.helpText
  | .exit => return .exit

/-- Performs one line; `read` answers what the files hold. -/
def performLine (read : Reader) (line : String) : Action Outcome := do
  match ← ofExcept (Invocation.ofLine? line.toList) with
  | none => return .output ""
  | some i => perform read i

/-- The answer of a command that leaves its session aside, read as a change in place. -/
def settle (s : Session) : Except CommandError (Session × Outcome) → Session × Except CommandError Outcome
  | .error e => (s, .error e)
  | .ok (s', outcome) => (s', .ok outcome)

section Steps

variable {s : Session} {x : Action α} {r : Except CommandError α} {f : α → Action β} {i : Invocation}
  {read : Reader} {count : Nat}

theorem on_bind : (x >>= f).on s =
    match x.on s with
    | (s', .ok a) => (f a).on s'
    | (s', .error e) => (s', .error e) := by
  unfold on
  rw [EStateM.run_bind]
  cases x.run s with
  | ok a s' => rfl
  | error e s' => rfl

theorem on_ofExcept : (ofExcept r).on s = (s, r) := by
  cases r with
  | ok a => rfl
  | error e => rfl

theorem on_find {position : Nat} : (find i position).on s = (s, s.find i position) := on_ofExcept

/-- A first step that only reads fails before anything is changed. -/
theorem on_bind_eq_settle {f : α → Action Outcome} {g : α → Except CommandError (Session × Outcome)}
    (hx : x.on s = (s, r)) (hf : ∀ a, (f a).on s = settle s (g a)) :
    (x >>= f).on s = settle s (r >>= g) := by
  rw [on_bind, hx]
  cases r with
  | ok a => exact hf a
  | error e => rfl

theorem on_create (d? : Option Dfa) : (create d?).on s = settle s (s.create d?) :=
  on_bind_eq_settle on_ofExcept fun _ => rfl

theorem on_openFile (hc : i.command = .openFile) : (openFile read i).on s = settle s (s.run read i) := by
  simp only [openFile, run, hc, load]
  by_cases hpath : i.path = ""
  · rw [if_pos hpath, if_pos hpath]
    rfl
  · rw [if_neg hpath, if_neg hpath]
    cases Dfa.load read i.path with
    | ok d => rfl
    | error e => rfl

theorem on_saveAs (hc : i.command = .saveAs) : (saveAs i).on s = settle s (s.run read i) := by
  simp only [saveAs, run, hc]
  refine on_bind_eq_settle on_find fun d => ?_
  cases i.arguments[1]? with
  | none => rfl
  | some path => rfl

/-- Taking an automaton out tells whether it was there, and changes nothing if it was not. -/
theorem on_close (h : s.automata.Numbered count) (hc : i.command = .close) :
    (close i).on s = settle s (s.run read i) := by
  simp only [close, run, hc]
  refine on_bind_eq_settle on_ofExcept fun id => ?_
  have htake : (take id).on s = (⟨s.automata.remove id⟩, .ok (s.automata.get? id)) := by
    unfold take on
    rw [EStateM.run_modifyGet, h.take_eq]
  rw [on_bind, htake, Registry.contains]
  cases hid : s.automata.get? id with
  | some d => rfl
  | none =>
    rw [Registry.remove_eq_self hid]
    rfl

theorem on_perform (h : s.automata.Numbered count) : (perform read i).on s = settle s (s.run read i) := by
  cases hc : i.command with
  | openFile =>
    simp only [perform, hc]
    exact on_openFile hc
  | saveAs =>
    simp only [perform, hc]
    exact on_saveAs hc
  | close =>
    simp only [perform, hc]
    exact on_close h hc
  | union | concat =>
    simp only [perform, run, hc]
    exact on_bind_eq_settle on_find fun a => on_bind_eq_settle on_find fun b => on_create _
  | star | plus =>
    simp only [perform, run, hc]
    exact on_bind_eq_settle on_find fun a => on_create _
  | empty | infinite | recognize =>
    simp only [perform, answer, run, hc]
    exact on_bind_eq_settle on_find fun d => on_bind_eq_settle on_ofExcept fun _ => rfl
  | print =>
    simp only [perform, run, hc]
    exact on_bind_eq_settle on_find fun _ => rfl
  | list | help | exit =>
    simp only [perform, run, hc]
    rfl

/-- Performing a line in place comes to the session and the outcome that executing it answers. -/
theorem on_performLine (h : s.automata.Numbered count) (read : Reader) (line : String) :
    (performLine read line).on s = s.execute read line := by
  rw [performLine, on_bind, on_ofExcept, execute]
  cases Invocation.ofLine? line.toList with
  | error e => rfl
  | ok i? =>
    cases i? with
    | none => rfl
    | some i =>
      refine (on_perform h).trans ?_
      cases hrun : s.run read i with
      | error e => simp only [hrun, settle]
      | ok answer => simp only [hrun, settle]

end Steps

end Action

end FiniteAutomata.Session
