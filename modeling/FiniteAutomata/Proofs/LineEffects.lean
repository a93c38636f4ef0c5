import FiniteAutomata.Proofs.InPlace
import FiniteAutomata.Proofs.Ledger

/-!
# What a line changes

A line that fails changes nothing, neither the automata nor the counter behind their identifiers. A line that succeeds puts
one automaton behind all others, or cuts one out, or changes nothing, and its first word alone decides which of these
it is. The sessions for which this is shown are those that lines and loaded files make of the empty one, as long as
the identifiers do not run out (`Session.Reachable.lineEffect`).
-/
namespace FiniteAutomata

open Text

namespace Session

variable {read : Reader} {s s' : Session} {line name : String} {i : Invocation} {outcome : Outcome} {created : Nat}

/-- The first words of the lines that change nothing. -/
def queryNames : List String := ["list", "print", "saveas", "empty", "infinite", "recognize", "help", "exit"]

theorem not_mem_creatorNames : name ∈ queryNames → name ∉ creatorNames ∧ name ≠ "close" := by
  revert name
  decide

/-- Every command creates an automaton, or closes one, or changes nothing. -/
theorem name_cases (c : Command) :
    c.name ∈ creatorNames ∨ c.name = "close" ∨ c.name ∈ queryNames := by
  cases c <;> decide

/-- The number of automata that a line creates: one if it begins with a word for this and does not fail. -/
def creations (read : Reader) (s : Session) (line : String) : Nat :=
  match (s.execute read line).2 with
  | .ok _ => if ∃ name ∈ creatorNames, BeginsWith line name then 1 else 0
  | .error _ => 0

/-- The sessions that lines and loaded files make of the empty one, with the number of automata that have been created
on the way. The files may have changed from one line to the next. -/
inductive Reachable : Session → Nat → Prop
  | empty : Reachable .empty 0
  | execute {s : Session} {created : Nat} (h : Reachable s created) (read : Reader) (line : String) :
      Reachable (s.execute read line).1 (created + s.creations read line)
  | load {s s' : Session} {created : Nat} {read : Reader} {path : String} {id : Identifier}
      (h : Reachable s created) (hload : s.load read path = .ok (id, s')) : Reachable s' (created + 1)

/-- What executing a line does to a session for which a number of automata have been created. The first word of the
line tells the cases apart: it is one of those that create an automaton, or `close`, or one of those that change nothing,
or unknown. A line that creates or closes an automaton succeeds exactly if its words ask for one that there is. -/
structure LineEffect (read : Reader) (s : Session) (created : Nat) (line : String) : Prop where
  in_place : (Action.performLine read line).on s = s.execute read line
  of_error : ∀ e, (s.execute read line).2 = .error e → (s.execute read line).1 = s
  of_blank : IsBlank line.toList → s.execute read line = (s, .ok (.output ""))
  of_unknown : ∀ name, BeginsWith line name → name ∉ creatorNames → name ≠ "close" → name ∉ queryNames →
    s.execute read line = (s, .error (.unknown name))
  of_query : ∀ name ∈ queryNames, BeginsWith line name → (s.execute read line).1 = s
  of_creator : ∀ name ∈ creatorNames, BeginsWith line name → ∀ outcome, (s.execute read line).2 = .ok outcome →
    ∃ id d, id.value.toNat = created + 1 ∧ Creates read s line d ∧ Reports outcome id ∧
      (s.execute read line).1 = ⟨⟨id.value⟩, s.automata.entries ++ [(id, d)]⟩
  of_creates : ∀ d, Creates read s line d → ∃ outcome, (s.execute read line).2 = .ok outcome
  of_close : BeginsWith line "close" → ∀ outcome, (s.execute read line).2 = .ok outcome →
    ∃ id d before later, Closes line id ∧ s.automata.entries = before ++ (id, d) :: later ∧
      (s.execute read line).1 = ⟨s.automata.supply, before ++ later⟩
  of_closes : ∀ id d, Closes line id → (id, d) ∈ s.automata.entries →
    ∃ outcome, (s.execute read line).2 = .ok outcome
  of_list : Says line ["list"] → ∃ ids : List Identifier, ids.Pairwise (·.value < ·.value) ∧
    (∀ id, id ∈ ids ↔ ∃ d, (id, d) ∈ s.automata.entries) ∧
    s.execute read line = (s, .ok (.output (" ".intercalate (ids.map fun id => Nat.repr id.value.toNat))))

theorem execute_of_error {e : CommandError} (h : (s.execute read line).2 = .error e) :
    (s.execute read line).1 = s := by
  unfold execute at h ⊢
  split at h
  · rfl
  · rfl
  · split at h
    · rfl
    · cases h

theorem execute_of_isBlank (h : IsBlank line.toList) : s.execute read line = (s, .ok (.output "")) := by
  rw [execute, Invocation.ofLine?_of_isBlank h]

theorem execute_list (hline : Says line ["list"]) :
    s.execute read line = (s, .ok (.output (" ".intercalate (s.automata.identifiers.map toString)))) :=
  execute_of_says (c := .list) hline (by simp [Command.maxArguments?]) fun _ => rfl

/-- A line that begins with the name of no command fails. -/
theorem execute_of_unknown (hname : BeginsWith line name) (hunknown : ∀ c : Command, c.name ≠ name) :
    s.execute read line = (s, .error (.unknown name)) := by
  rw [execute, Invocation.ofLine?_of_unknown hname hunknown]

theorem Creates.beginsWith {d : Dfa} (h : Creates read s line d) : ∃ name ∈ creatorNames, BeginsWith line name := by
  cases h with
  | opened hline => exact ⟨_, by decide, hline.beginsWith⟩
  | union hline | concat hline | star hline | plus hline => exact ⟨_, by decide, hline.beginsWith⟩

theorem Closes.beginsWith {id : Identifier} (h : Closes line id) : BeginsWith line "close" := by
  obtain ⟨operand, hline, -⟩ := h
  exact hline.beginsWith

/-- Only the words that create or close an automaton change anything. -/
theorem execute_unchanged (hcreator : ¬ ∃ name ∈ creatorNames, BeginsWith line name)
    (hclose : ¬ BeginsWith line "close") : (s.execute read line).1 = s := by
  obtain hs | ⟨id, hcloses, -⟩ | ⟨d, outcome, hd, -⟩ := execute_cases read s line
  · exact hs
  · exact absurd hcloses.beginsWith hclose
  · exact absurd hd.beginsWith hcreator

/-- A line that succeeds and has a first word has run the command of this name. -/
theorem exists_run_of_ok (hname : BeginsWith line name) (h : (s.execute read line).2 = .ok outcome) :
    ∃ i, Invocation.ofLine? line.toList = .ok (some i) ∧ i.command.name = name ∧
      s.run read i = .ok ((s.execute read line).1, outcome) := by
  cases hline : Invocation.ofLine? line.toList with
  | error e =>
    rw [execute, hline] at h
    cases h
  | ok i? =>
    cases i? with
    | none => exact absurd hline (Invocation.ofLine?_ne_none hname)
    | some i =>
      refine ⟨i, rfl, (Invocation.beginsWith_of_ofLine? hline).unique hname, ?_⟩
      rw [execute, hline] at h ⊢
      cases hrun : s.run read i with
      | error e =>
        simp only [hrun] at h
        cases h
      | ok answer =>
        simp only [hrun] at h
        cases h
        simp only [hrun]

/-- What a line creates has been counted; if it creates nothing, it takes one automaton away at most. -/
theorem creations_cases (read : Reader) (s : Session) (line : String) :
    (s.creations read line = 0 ∧
      ((s.execute read line).1 = s ∨ ∃ id, (s.execute read line).1 = ⟨s.automata.remove id⟩)) ∨
    (s.creations read line = 1 ∧ ∃ d, (s.execute read line).1 = (s.register d).2) := by
  unfold creations
  cases hresult : (s.execute read line).2 with
  | error e => exact .inl ⟨rfl, .inl (execute_of_error hresult)⟩
  | ok outcome =>
    by_cases hcreator : ∃ name ∈ creatorNames, BeginsWith line name
    · have ⟨name, hname, hbegins⟩ := hcreator
      obtain ⟨i, hline, rfl, hrun⟩ := exists_run_of_ok hbegins hresult
      obtain ⟨d, -, hs, -⟩ := run_creators hline hrun hname
      exact .inr ⟨if_pos hcreator, d, hs⟩
    · refine .inl ⟨if_neg hcreator, ?_⟩
      obtain hs | ⟨id, -, hs⟩ | ⟨d, -, hd, -⟩ := execute_cases read s line
      · exact .inl hs
      · exact .inr ⟨id, hs⟩
      · exact absurd hd.beginsWith hcreator

/-- If the counter stands at the number of automata that have been created, it does so after one more line. -/
theorem numbered_execute (h : s.automata.Numbered created) (hcount : created + s.creations read line < 2 ^ 64) :
    (s.execute read line).1.automata.Numbered (created + s.creations read line) := by
  obtain ⟨hzero, hs | ⟨id, hs⟩⟩ | ⟨hone, d, hs⟩ := s.creations_cases read line
  · rw [hzero, hs]
    exact h
  · rw [hzero, hs]
    exact h.remove id
  · rw [hone] at hcount ⊢
    rw [hs]
    exact h.insert hcount d

theorem Reachable.numbered (h : s.Reachable created) (hcount : created < 2 ^ 64) :
    s.automata.Numbered created := by
  induction h with
  | empty => exact Registry.numbered_empty
  | execute h read line ih =>
    apply numbered_execute
    · exact ih (by omega)
    · exact hcount
  | load h hload ih =>
    obtain ⟨d, -, hregister⟩ := load_eq_ok_iff.mp hload
    obtain rfl := congrArg Prod.snd hregister
    exact (ih (by omega)).insert hcount d

section Effects

variable (h : s.automata.Numbered created)
include h

/-- A new automaton goes behind all others. -/
theorem register_eq (hcount : created + 1 < 2 ^ 64) (d : Dfa) :
    (s.register d).1.value.toNat = created + 1 ∧
      (s.register d).2 = ⟨⟨(s.register d).1.value⟩, s.automata.entries ++ [((s.register d).1, d)]⟩ := by
  have hentries := h.entries_insert hcount d
  constructor
  · exact h.value_insert hcount d
  · change Session.mk ⟨_, (s.automata.insert d).2.entries⟩ = _
    rw [hentries]
    rfl

theorem exists_remove_eq {id : Identifier} {d : Dfa} (hid : s.automata.get? id = some d) :
    ∃ before later, s.automata.entries = before ++ (id, d) :: later ∧
      s.automata.remove id = ⟨s.automata.supply, before ++ later⟩ := by
  obtain ⟨before, later, hentries, hremove⟩ := h.exists_entries_remove hid
  refine ⟨before, later, hentries, ?_⟩
  rw [← hremove]
  rfl

/-- A line does what its effect says as long as the identifiers count the automata that have been created. -/
theorem lineEffect_of_numbered (hcount : created + 1 < 2 ^ 64) (read : Reader) (line : String) :
    s.LineEffect read created line := by
  constructor
  case in_place => exact Action.on_performLine h read line
  case of_error => exact fun e => execute_of_error
  case of_blank => exact execute_of_isBlank
  case of_unknown =>
    intro name hname hcreator hclose hquery
    refine execute_of_unknown hname ?_
    rintro c rfl
    obtain hc | hc | hc := name_cases c
    · exact hcreator hc
    · exact hclose hc
    · exact hquery hc
  case of_query =>
    intro name hquery hname
    obtain ⟨hcreator, hclose⟩ := not_mem_creatorNames hquery
    refine execute_unchanged ?_ fun hbegins => hclose (hname.unique hbegins)
    rintro ⟨other, hother, hbegins⟩
    exact hcreator (hname.unique hbegins ▸ hother)
  case of_creator =>
    intro name hcreator hname outcome hresult
    obtain ⟨i, hline, rfl, hrun⟩ := exists_run_of_ok hname hresult
    obtain ⟨d, hd, hs, hreport⟩ := run_creators hline hrun hcreator
    obtain ⟨hvalue, hregister⟩ := register_eq h hcount d
    exact ⟨(s.register d).1, d, hvalue, hd, hreport, hs.trans hregister⟩
  case of_creates =>
    intro d hd
    obtain ⟨outcome, houtcome⟩ := execute_of_creates hd
    exact ⟨outcome, by rw [houtcome]⟩
  case of_close =>
    intro hname outcome hresult
    obtain ⟨i, hline, hclose, hrun⟩ := exists_run_of_ok hname hresult
    obtain ⟨id, d, hcloses, hd, hs⟩ := run_close hline hrun (Command.name_injective hclose)
    obtain ⟨before, later, hentries, hremove⟩ := exists_remove_eq h hd
    exact ⟨id, d, before, later, hcloses, hentries, hs.trans (congrArg Session.mk hremove)⟩
  case of_closes =>
    intro id d hcloses hid
    obtain ⟨e, he⟩ := Registry.mem_identifiers_iff.mp (List.mem_map_of_mem hid)
    obtain ⟨outcome, houtcome⟩ := execute_of_closes hcloses he
    exact ⟨outcome, by rw [houtcome]⟩
  case of_list =>
    intro hline
    refine ⟨s.automata.identifiers, h.ascending, fun id => ?_, execute_list hline⟩
    simp [Registry.identifiers]

end Effects

/-- From every session that lines and files can lead to, a line changes what its effect says and nothing else. -/
theorem Reachable.lineEffect (h : s.Reachable created) (hcount : created < 2 ^ 64 - 1) (read : Reader)
    (line : String) : s.LineEffect read created line := by
  apply lineEffect_of_numbered
  · exact h.numbered (by omega)
  · omega

theorem lineEffect_readEvenAs :
    let s := (Session.empty.execute Ledger.readEvenAs "open even").1
    s.Reachable 1 ∧ s.LineEffect Ledger.readEvenAs 1 "star 1" ∧ s.LineEffect Ledger.readEvenAs 1 "list" ∧
      s.execute Ledger.readEvenAs "list" = (s, .ok (.output "1")) := by
  intro s
  have hreachable := Reachable.empty.execute Ledger.readEvenAs "open even"
  have hone : 0 + Session.empty.creations Ledger.readEvenAs "open even" = 1 := by decide
  rw [hone] at hreachable
  exact ⟨hreachable, hreachable.lineEffect (by decide) Ledger.readEvenAs "star 1",
    hreachable.lineEffect (by decide) Ledger.readEvenAs "list", by decide⟩

end Session

end FiniteAutomata
