import FiniteAutomata.Proofs.Queries

/-!
# What a line does to a session

A line leaves the session as it is, or takes one automaton away, or creates one automaton from the operands that it
names. In the last case the session hands out an identifier for the automaton and reports it. Which automata a line
asks to create or to close is said in its words (`Session.Creates`, `Session.Closes`), and what a line asks for in
this way is done.
-/
namespace FiniteAutomata

open Text

namespace Session

variable {read : Reader} {s s' : Session} {i : Invocation} {id : Identifier} {d : Dfa} {outcome : Outcome}
  {line : String}

/-- The identifier that has been handed out on the way from one session to the next, if there is one. -/
def created? (s s' : Session) : Option Identifier :=
  if s'.automata.supply = s.automata.supply then none else some ⟨s'.automata.supply.last⟩

/-- The first words of the lines that create an automaton if they succeed. -/
def creatorNames : List String := ["open", "union", "concat", "star", "plus"]

/-- Whether a line asks to forget the automaton with an identifier. -/
def Closes (line : String) (id : Identifier) : Prop :=
  ∃ operand, Says line ["close", operand] ∧ id.IsNamedBy operand

/-- The automata that a session creates for a line. -/
inductive Creates (read : Reader) (s : Session) (line : String) : Dfa → Prop
  | opened {path : String} {d : Dfa} (hline : AsksToOpen line path) (hpath : path ≠ "")
      (hd : Dfa.load read path = .ok d) : Creates read s line d
  | union {first second : String} {a b d : Dfa} (hline : Says line ["union", first, second])
      (ha : s.Names first a) (hb : s.Names second b) (hd : a.union? b = some d) : Creates read s line d
  | concat {first second : String} {a b d : Dfa} (hline : Says line ["concat", first, second])
      (ha : s.Names first a) (hb : s.Names second b) (hd : a.concat? b = some d) : Creates read s line d
  | star {operand : String} {a d : Dfa} (hline : Says line ["star", operand]) (ha : s.Names operand a)
      (hd : a.star? = some d) : Creates read s line d
  | plus {operand : String} {a d : Dfa} (hline : Says line ["plus", operand]) (ha : s.Names operand a)
      (hd : a.plus? = some d) : Creates read s line d

/-- The texts that report a new identifier. -/
def Reports (outcome : Outcome) (id : Identifier) : Prop :=
  outcome = .output ("opened automaton " ++ Nat.repr id.value.toNat) ∨
    ∃ states : Nat, outcome =
      .output ("created automaton " ++ Nat.repr id.value.toNat ++ " (" ++ Nat.repr states ++ " states)")

theorem reports_opened (id : Identifier) : Reports (.output s!"opened automaton {id}") id :=
  .inl rfl

theorem reports_created (id : Identifier) (states : Nat) :
    Reports (.output s!"created automaton {id} ({states} states)") id :=
  .inr ⟨states, rfl⟩

theorem inRange_eq_ok_iff {α : Type} {a? : Option α} {a : α} : inRange a? = .ok a ↔ a? = some a := by
  cases a? with
  | none => simp [inRange, Fault.inRange, Except.mapError]
  | some b => simp [inRange, Fault.inRange, Except.mapError]

theorem mapError_eq_ok_iff {ε ε' α : Type} {f : ε → ε'} {x : Except ε α} {a : α} :
    x.mapError f = .ok a ↔ x = .ok a := by
  cases x <;> simp [Except.mapError]

theorem create_eq_ok_iff {d? : Option Dfa} : s.create d? = .ok (s', outcome) ↔
    ∃ d, d? = some d ∧ s' = (s.register d).2 ∧
      outcome = .output s!"created automaton {(s.register d).1} ({d.numStates} states)" := by
  simp only [create, bind_eq_ok_iff, pure_eq_ok_iff, inRange_eq_ok_iff, Prod.mk.injEq]
  refine exists_congr fun d => and_congr_right fun _ => ?_
  rw [eq_comm, eq_comm (b := outcome)]

theorem load_eq_ok_iff {path : String} : s.load read path = .ok (id, s') ↔
    ∃ d, Dfa.load read path = .ok d ∧ s.register d = (id, s') := by
  simp only [load, bind_eq_ok_iff, pure_eq_ok_iff]

section Running

variable (hline : Invocation.ofLine? line.toList = .ok (some i)) (h : s.run read i = .ok (s', outcome))
include hline h

/-- The automaton that a line creates is registered and reported. -/
theorem run_creators (hcreator : i.command.name ∈ creatorNames) :
    ∃ d, Creates read s line d ∧ s' = (s.register d).2 ∧ Reports outcome (s.register d).1 := by
  obtain ⟨c, rest, arguments⟩ := i
  change c.name ∈ creatorNames at hcreator
  cases c with
  | openFile =>
    simp only [run] at h
    split at h
    · cases h
    · next hpath =>
      simp only [bind_eq_ok_iff, pure_eq_ok_iff, mapError_eq_ok_iff] at h
      obtain ⟨⟨id, _⟩, hload, h⟩ := h
      obtain ⟨d, hd, hregister⟩ := load_eq_ok_iff.mp hload
      obtain ⟨rfl, rfl⟩ := Prod.mk.inj h
      have hopens := Invocation.asksToOpen_of_ofLine? hline rfl
      exact ⟨d, .opened hopens hpath hd, by rw [hregister], by rw [hregister]; exact reports_opened id⟩
  | concat =>
    simp only [run, bind_eq_ok_iff, create_eq_ok_iff, find_eq_ok_iff] at h
    obtain ⟨a, ⟨first, hfirst, ha⟩, b, ⟨second, hsecond, hb⟩, d, hd, hs, rfl⟩ := h
    exact ⟨d, .concat (Invocation.says_two hline rfl hfirst hsecond) ha hb hd, hs, reports_created ..⟩
  | union =>
    simp only [run, bind_eq_ok_iff, create_eq_ok_iff, find_eq_ok_iff] at h
    obtain ⟨a, ⟨first, hfirst, ha⟩, b, ⟨second, hsecond, hb⟩, d, hd, hs, rfl⟩ := h
    exact ⟨d, .union (Invocation.says_two hline rfl hfirst hsecond) ha hb hd, hs, reports_created ..⟩
  | star =>
    simp only [run, bind_eq_ok_iff, create_eq_ok_iff, find_eq_ok_iff] at h
    obtain ⟨a, ⟨operand, hoperand, ha⟩, d, hd, hs, rfl⟩ := h
    exact ⟨d, .star (Invocation.says_one hline rfl hoperand) ha hd, hs, reports_created ..⟩
  | plus =>
    simp only [run, bind_eq_ok_iff, create_eq_ok_iff, find_eq_ok_iff] at h
    obtain ⟨a, ⟨operand, hoperand, ha⟩, d, hd, hs, rfl⟩ := h
    exact ⟨d, .plus (Invocation.says_one hline rfl hoperand) ha hd, hs, reports_created ..⟩
  | close | empty | infinite | list | print | recognize | saveAs | help | exit =>
    exact absurd hcreator (by decide)

/-- What is closed has been there. -/
theorem run_close (hclose : i.command = .close) :
    ∃ id d, Closes line id ∧ s.automata.get? id = some d ∧ s' = ⟨s.automata.remove id⟩ := by
  obtain ⟨c, rest, arguments⟩ := i
  obtain rfl := hclose
  simp only [run, bind_eq_ok_iff] at h
  obtain ⟨id, hid, h⟩ := h
  obtain ⟨operand, hoperand, hnamed⟩ := Invocation.identifier_eq_ok_iff.mp hid
  split at h
  · next hcontains =>
    obtain ⟨d, hd⟩ := Option.isSome_iff_exists.mp hcontains
    rw [pure_eq_ok_iff, Prod.mk.injEq] at h
    exact ⟨id, d, ⟨operand, Invocation.says_one hline rfl hoperand, hnamed⟩, hd, h.1.symm⟩
  · cases h

omit hline in
theorem run_unchanged (hcreator : i.command.name ∉ creatorNames) (hclose : i.command ≠ .close) : s' = s := by
  obtain ⟨c, rest, arguments⟩ := i
  change c.name ∉ creatorNames at hcreator
  cases c with
  | openFile | union | concat | star | plus => exact absurd (by decide) hcreator
  | close => exact absurd rfl hclose
  | saveAs =>
    simp only [run, bind_eq_ok_iff] at h
    obtain ⟨d, -, h⟩ := h
    split at h
    · cases h
    · cases h
  | empty | infinite | list | print | recognize | help | exit =>
    simp only [run, bind_eq_ok_iff, pure_eq_ok_iff, Prod.mk.injEq] at h
    grind

/-- A command leaves the session as it is, takes one automaton away, or creates one and reports it. -/
theorem run_cases : s' = s ∨ (∃ id, Closes line id ∧ s' = ⟨s.automata.remove id⟩) ∨
    ∃ d, Creates read s line d ∧ s' = (s.register d).2 ∧ Reports outcome (s.register d).1 := by
  by_cases hcreator : i.command.name ∈ creatorNames
  · exact .inr (.inr (run_creators hline h hcreator))
  · by_cases hclose : i.command = .close
    · obtain ⟨id, -, hcloses, -, hs⟩ := run_close hline h hclose
      exact .inr (.inl ⟨id, hcloses, hs⟩)
    · exact .inl (run_unchanged h hcreator hclose)

end Running

/-- Executing a line leaves the session as it is, takes one automaton away, or creates one and reports it. -/
theorem execute_cases (read : Reader) (s : Session) (line : String) :
    (s.execute read line).1 = s ∨
    (∃ id, Closes line id ∧ (s.execute read line).1 = ⟨s.automata.remove id⟩) ∨
    ∃ d outcome, Creates read s line d ∧ s.execute read line = ((s.register d).2, .ok outcome) ∧
      Reports outcome (s.register d).1 := by
  rw [execute]
  split
  · exact .inl rfl
  · exact .inl rfl
  · next i hline =>
    split
    · exact .inl rfl
    · next s' outcome hrun =>
      obtain rfl | ⟨id, hcloses, rfl⟩ | ⟨d, hd, rfl, hreport⟩ := run_cases hline hrun
      · exact .inl rfl
      · exact .inr (.inl ⟨id, hcloses, rfl⟩)
      · exact .inr (.inr ⟨d, outcome, hd, rfl, hreport⟩)

/-- A line that runs the creation of an automaton registers it. -/
theorem execute_of_create {c : Command} {operands : List String} {d? : Option Dfa}
    (hline : Says line (c.name :: operands)) (hmax : ¬ c.maxArguments?.any (· < operands.length) = true)
    (hd : d? = some d) (hrun : ∀ rest, s.run read ⟨c, rest, operands.map String.toList⟩ = s.create d?) :
    ∃ outcome, s.execute read line = ((s.register d).2, .ok outcome) := by
  refine ⟨.output s!"created automaton {(s.register d).1} ({d.numStates} states)", ?_⟩
  exact execute_of_says hline hmax fun rest => (hrun rest).trans (create_eq_ok_iff.mpr ⟨d, hd, rfl, rfl⟩)

/-- What a line asks to create is created. -/
theorem execute_of_creates (h : Creates read s line d) :
    ∃ outcome, s.execute read line = ((s.register d).2, .ok outcome) := by
  cases h with
  | opened hline hpath hd =>
    obtain ⟨i, hof, hc, rfl⟩ := Invocation.exists_ofLine?_of_asksToOpen hline
    have hload : s.load read i.path = .ok (s.register d) := load_eq_ok_iff.mpr ⟨d, hd, rfl⟩
    refine ⟨.output s!"opened automaton {(s.register d).1}", execute_eq hof ?_⟩
    simp only [run, hc, if_neg hpath, hload]
    rfl
  | union hline ha hb hd =>
    refine execute_of_create (c := .union) hline (by simp [Command.maxArguments?]) hd fun rest => ?_
    simp only [run, find_first ha, find_second hb]
    rfl
  | concat hline ha hb hd =>
    refine execute_of_create (c := .concat) hline (by simp [Command.maxArguments?]) hd fun rest => ?_
    simp only [run, find_first ha, find_second hb]
    rfl
  | star hline ha hd =>
    refine execute_of_create (c := .star) hline (by simp [Command.maxArguments?]) hd fun rest => ?_
    simp only [run, find_first ha]
    rfl
  | plus hline ha hd =>
    refine execute_of_create (c := .plus) hline (by simp [Command.maxArguments?]) hd fun rest => ?_
    simp only [run, find_first ha]
    rfl

/-- What a line asks to close is taken away, if it is there. -/
theorem execute_of_closes (h : Closes line id) (hid : s.automata.get? id = some d) :
    ∃ outcome, s.execute read line = (⟨s.automata.remove id⟩, .ok outcome) := by
  obtain ⟨operand, hline, hnamed⟩ := h
  refine ⟨.output s!"closed automaton {id}", execute_of_says (c := .close) hline (by simp [Command.maxArguments?]) fun rest => ?_⟩
  have hidentifier : Invocation.identifier ⟨.close, rest, [operand].map String.toList⟩ 0 = .ok id :=
    Invocation.identifier_eq_ok_iff.mpr ⟨operand, rfl, hnamed⟩
  have hcontains : s.automata.contains id = true := Option.isSome_iff_exists.mpr ⟨d, hid⟩
  simp only [run, hidentifier]
  exact if_pos hcontains

@[simp] theorem created?_self : created? s s = none := if_pos rfl

@[simp] theorem created?_remove : created? s ⟨s.automata.remove id⟩ = none := if_pos rfl

theorem created?_register : created? s (s.register d).2 = some (s.register d).1 := by
  refine if_neg fun h => ?_
  have hnext := congrArg (fun supply => supply.last.toNat) h
  simp [register, Registry.insert, IdentifierSupply.next] at hnext
  omega

end Session

end FiniteAutomata
