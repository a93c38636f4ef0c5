import FiniteAutomata.Proofs.Execution

/-!
# Sessions compute with languages

A ledger follows a session and notes the language of every automaton when its line creates it. The words of the line say
which language that is (`AsksFor`): that of the text of a file, or one made of what has been noted for the operands. The
automata of the session keep to the ledger over every run in which the identifiers do not run out, so that all answers
about an automaton come from the language that was noted when it was created and reported (`Ledger.answersFor_run`).
-/
namespace FiniteAutomata

open Computability Text

/-- The language of the automaton that a text describes in the mode of its tag. -/
def fileLanguage (text : String) : Language Char :=
  {word | ∃ d : Description, Description.Describes text.toList d ∧ d.mode = d.kind.mode ∧
    word ∈ d.language}

/-- The language that a line asks an automaton for, when languages have been noted for the identifiers. -/
inductive AsksFor (read : Reader) (noted : Identifier → Language Char) (line : String) : Language Char → Prop
  | opened {path text : String} (hline : AsksToOpen line path) (hpath : path ≠ "")
      (htext : read path = .ok text) : AsksFor read noted line (fileLanguage text)
  | union {first second : String} {i j : Identifier} (hline : Says line ["union", first, second])
      (hi : i.IsNamedBy first) (hj : j.IsNamedBy second) : AsksFor read noted line (noted i + noted j)
  | concat {first second : String} {i j : Identifier} (hline : Says line ["concat", first, second])
      (hi : i.IsNamedBy first) (hj : j.IsNamedBy second) : AsksFor read noted line (noted i * noted j)
  | star {operand : String} {i : Identifier} (hline : Says line ["star", operand]) (hi : i.IsNamedBy operand) :
      AsksFor read noted line (noted i)∗
  | plus {operand : String} {i : Identifier} (hline : Says line ["plus", operand]) (hi : i.IsNamedBy operand) :
      AsksFor read noted line (noted i * (noted i)∗)

namespace AsksFor

variable {read : Reader} {noted : Identifier → Language Char} {line : String} {language language' : Language Char}

/-- A line asks for one language at most. -/
theorem unique (h : AsksFor read noted line language) (h' : AsksFor read noted line language') :
    language = language' := by
  cases h with
  | opened hline _ htext =>
    cases h' with
    | opened hline' _ htext' =>
      obtain rfl := hline.unique hline'
      obtain rfl := Except.ok.inj (htext.symm.trans htext')
      rfl
    | union hline' | concat hline' | star hline' | plus hline' =>
      exact absurd (hline.beginsWith.unique hline'.beginsWith) (by decide)
  | union hline hi hj =>
    cases h' with
    | union hline' hi' hj' =>
      cases hline.unique hline'
      rw [hi.unique hi', hj.unique hj']
    | opened hline' | concat hline' | star hline' | plus hline' =>
      exact absurd (hline.beginsWith.unique hline'.beginsWith) (by decide)
  | concat hline hi hj =>
    cases h' with
    | concat hline' hi' hj' =>
      cases hline.unique hline'
      rw [hi.unique hi', hj.unique hj']
    | opened hline' | union hline' | star hline' | plus hline' =>
      exact absurd (hline.beginsWith.unique hline'.beginsWith) (by decide)
  | star hline hi =>
    cases h' with
    | star hline' hi' =>
      cases hline.unique hline'
      rw [hi.unique hi']
    | opened hline' | union hline' | concat hline' | plus hline' =>
      exact absurd (hline.beginsWith.unique hline'.beginsWith) (by decide)
  | plus hline hi =>
    cases h' with
    | plus hline' hi' =>
      cases hline.unique hline'
      rw [hi.unique hi']
    | opened hline' | union hline' | concat hline' | star hline' =>
      exact absurd (hline.beginsWith.unique hline'.beginsWith) (by decide)

end AsksFor

/-- A session with the languages that have been noted for its identifiers, and the number of automata that have
been created. -/
structure Ledger where
  session : Session
  language : Identifier → Language Char
  created : Nat

namespace Ledger

variable {read : Reader} {l : Ledger} {line : String} {id : Identifier} {d : Dfa} {language : Language Char}

def start : Ledger := ⟨.empty, fun _ => 0, 0⟩

/-- The words of the language that a line asks for; there are none if it asks for no language. -/
def lineLanguage (read : Reader) (l : Ledger) (line : String) : Language Char :=
  {word | ∃ language, AsksFor read l.language line language ∧ word ∈ language}

/-- Executes a line and notes the language of the automaton that it creates, if it creates one. -/
def step (read : Reader) (l : Ledger) (line : String) : Ledger :=
  let session := (l.session.execute read line).1
  match Session.created? l.session session with
  | none => { l with session }
  | some id => ⟨session, Function.update l.language id (l.lineLanguage read line), l.created + 1⟩

def run (read : Reader) (l : Ledger) (lines : List String) : Ledger := lines.foldl (step read) l

theorem lineLanguage_eq (h : AsksFor read l.language line language) : l.lineLanguage read line = language := by
  refine Language.ext fun word => ⟨?_, fun hword => ⟨language, h, hword⟩⟩
  rintro ⟨language', h', hword⟩
  rwa [h.unique h']

/-- The ledger follows the session. -/
theorem session_step : (l.step read line).session = (l.session.execute read line).1 := by
  simp only [step]
  cases Session.created? l.session (l.session.execute read line).1 <;> rfl

/-- A line leaves the ledger as it is, takes one automaton away, or creates one and notes its language. -/
theorem step_cases (read : Reader) (l : Ledger) (line : String) :
    l.step read line = l ∨
    (∃ id, Session.Closes line id ∧
      l.step read line = { l with session := ⟨l.session.automata.remove id⟩ }) ∨
    ∃ d, Session.Creates read l.session line d ∧
      l.step read line = ⟨(l.session.register d).2,
        Function.update l.language (l.session.register d).1 (l.lineLanguage read line), l.created + 1⟩ := by
  obtain hs | ⟨id, hcloses, hs⟩ | ⟨d, outcome, hd, hs, -⟩ := l.session.execute_cases read line
  · left
    simp only [step, hs, Session.created?_self]
  · refine .inr (.inl ⟨id, hcloses, ?_⟩)
    simp only [step, hs, Session.created?_remove]
  · refine .inr (.inr ⟨d, hd, ?_⟩)
    simp only [step, hs, Session.created?_register]

theorem created_le_step : l.created ≤ (l.step read line).created := by
  obtain h | ⟨_, -, h⟩ | ⟨_, -, h⟩ := l.step_cases read line
  · rw [h]
  · rw [h]
  · rw [h]
    exact Nat.le_succ _

theorem run_cons {lines : List String} :
    l.run read (line :: lines) = (l.step read line).run read lines := List.foldl_cons ..

/-- What is noted has no effect on the session of a run: its lines are executed one after another. -/
theorem session_run {lines : List String} :
    (l.run read lines).session = lines.foldl (fun s line => (s.execute read line).1) l.session := by
  induction lines generalizing l with
  | nil => rfl
  | cons line lines ih => rw [run_cons, ih, session_step, List.foldl_cons]

theorem created_le_run {lines : List String} : l.created ≤ (l.run read lines).created := by
  induction lines generalizing l with
  | nil => exact Nat.le_refl _
  | cons line lines ih =>
    rw [run_cons]
    exact created_le_step.trans ih

/-- The automata of the session have the languages that have been noted, and the identifiers count them. -/
structure Sound (l : Ledger) : Prop where
  last_eq : l.session.automata.supply.last.toNat = l.created
  value_le : ∀ id d, l.session.automata.get? id = some d → id.value.toNat ≤ l.created
  wellFormed : ∀ id d, l.session.automata.get? id = some d → d.WellFormed
  language_eq : ∀ id d, l.session.automata.get? id = some d → d.language = l.language id

/-- What a file holds is loaded with the language that the text describes. -/
theorem language_of_load {path : String} (h : Dfa.load read path = .ok d) :
    ∃ text, read path = .ok text ∧ d.WellFormed ∧ d.language = fileLanguage text := by
  simp only [Dfa.load, Dfa.parse, Dfa.ofDescription, readText, bind_eq_ok_iff,
    Session.mapError_eq_ok_iff] at h
  obtain ⟨text, hread, description, hparse, hd⟩ := h
  have hdescribes := (Description.parse_eq_ok_iff text description).mp hparse
  obtain ⟨e, he, hwf, hlang⟩ := Dfa.exists_ofDescription? hdescribes.1.wellFormed
  rw [he] at hd
  obtain rfl : e = d := by cases hd; rfl
  refine ⟨text, hread, hwf, hlang.trans (Language.ext fun word => ?_)⟩
  constructor
  · exact fun hword => ⟨description, hdescribes.1, hdescribes.2, hword⟩
  · rintro ⟨other, hother, hmode, hword⟩
    have hparse' := (Description.parse_eq_ok_iff text other).mpr ⟨hother, hmode⟩
    rw [hparse] at hparse'
    cases hparse'
    exact hword

namespace Sound

theorem names (h : l.Sound) {operand : String} (hd : l.session.Names operand d) :
    d.WellFormed ∧ ∃ id, id.IsNamedBy operand ∧ d.language = l.language id := by
  obtain ⟨id, hnamed, hid⟩ := hd
  exact ⟨h.wellFormed id d hid, id, hnamed, h.language_eq id d hid⟩

/-- What is created from automata with the languages that have been noted has the language that is asked for. -/
theorem creates (h : l.Sound) (hd : Session.Creates read l.session line d) :
    d.WellFormed ∧ AsksFor read l.language line d.language := by
  cases hd with
  | opened hline hpath hd =>
    obtain ⟨text, hread, hwf, hlang⟩ := language_of_load hd
    rw [hlang]
    exact ⟨hwf, .opened hline hpath hread⟩
  | union hline ha hb hd =>
    obtain ⟨hwfa, i, hi, hlanga⟩ := h.names ha
    obtain ⟨hwfb, j, hj, hlangb⟩ := h.names hb
    obtain ⟨e, he, hwf, hlang⟩ := hwfa.exists_union? hwfb
    obtain rfl : e = d := Option.some_inj.mp (he.symm.trans hd)
    rw [hlang, hlanga, hlangb]
    exact ⟨hwf, .union hline hi hj⟩
  | concat hline ha hb hd =>
    obtain ⟨hwfa, i, hi, hlanga⟩ := h.names ha
    obtain ⟨hwfb, j, hj, hlangb⟩ := h.names hb
    obtain ⟨e, he, hwf, hlang⟩ := hwfa.exists_concat? hwfb
    obtain rfl : e = d := Option.some_inj.mp (he.symm.trans hd)
    rw [hlang, hlanga, hlangb]
    exact ⟨hwf, .concat hline hi hj⟩
  | star hline ha hd =>
    obtain ⟨hwfa, i, hi, hlanga⟩ := h.names ha
    obtain ⟨e, he, hwf, hlang⟩ := hwfa.exists_star?
    obtain rfl : e = d := Option.some_inj.mp (he.symm.trans hd)
    rw [hlang, hlanga]
    exact ⟨hwf, .star hline hi⟩
  | plus hline ha hd =>
    obtain ⟨hwfa, i, hi, hlanga⟩ := h.names ha
    obtain ⟨e, he, hwf, hlang⟩ := hwfa.exists_plus?
    obtain rfl : e = d := Option.some_inj.mp (he.symm.trans hd)
    rw [hlang, hlanga]
    exact ⟨hwf, .plus hline hi⟩

/-- As long as the identifiers do not run out, the next one is the number of automata with the new one. -/
theorem value_register (h : l.Sound) (hcount : l.created + 1 < 2 ^ 64) :
    (l.session.register d).1.value.toNat = l.created + 1 := Registry.value_insert h.last_eq hcount d

theorem remove (h : l.Sound) : Sound { l with session := ⟨l.session.automata.remove id⟩ } where
  last_eq := h.last_eq
  value_le other d hd := h.value_le other d (Registry.get?_of_get?_remove hd)
  wellFormed other d hd := h.wellFormed other d (Registry.get?_of_get?_remove hd)
  language_eq other d hd := h.language_eq other d (Registry.get?_of_get?_remove hd)

/-- The new identifier is none of those that are in use, so what has been noted for them stays. -/
theorem register (h : l.Sound) (hcount : l.created + 1 < 2 ^ 64) (hwf : d.WellFormed) :
    Sound ⟨(l.session.register d).2, Function.update l.language (l.session.register d).1 d.language,
      l.created + 1⟩ := by
  have hvalue := h.value_register (d := d) hcount
  have hget {other : Identifier} {e : Dfa}
      (he : (l.session.register d).2.automata.get? other = some e) :
      (other = (l.session.register d).1 ∧ e = d) ∨
        (other ≠ (l.session.register d).1 ∧ l.session.automata.get? other = some e) := by
    have hinsert : (if other = (l.session.register d).1 then some d
        else l.session.automata.get? other) = some e := Registry.get?_insert.symm.trans he
    split at hinsert
    · next hid => exact .inl ⟨hid, (Option.some_inj.mp hinsert).symm⟩
    · next hid => exact .inr ⟨hid, hinsert⟩
  -- Each fact is new for the new identifier and as before for all others.
  refine ⟨hvalue, fun other e he => ?_, fun other e he => ?_, fun other e he => ?_⟩
  · obtain ⟨rfl, rfl⟩ | ⟨-, he⟩ := hget he
    · exact hvalue.le
    · exact (h.value_le other e he).trans (Nat.le_succ _)
  · obtain ⟨rfl, rfl⟩ | ⟨-, he⟩ := hget he
    · exact hwf
    · exact h.wellFormed other e he
  · obtain ⟨rfl, rfl⟩ | ⟨hid, he⟩ := hget he
    · simp only [Function.update_self]
    · simp only [Function.update_of_ne hid]
      exact h.language_eq other e he

theorem step (h : l.Sound) (hcount : (l.step read line).created < 2 ^ 64) :
    (l.step read line).Sound := by
  obtain hs | ⟨id, -, hs⟩ | ⟨d, hd, hs⟩ := l.step_cases read line
  · rw [hs]
    exact h
  · rw [hs]
    exact h.remove
  · rw [hs] at hcount ⊢
    obtain ⟨hwf, hasks⟩ := h.creates hd
    rw [lineLanguage_eq hasks]
    exact h.register hcount hwf

theorem run (h : l.Sound) {lines : List String} (hcount : (l.run read lines).created < 2 ^ 64) :
    (l.run read lines).Sound := by
  induction lines generalizing l with
  | nil => exact h
  | cons line lines ih =>
    rw [run_cons] at hcount ⊢
    exact ih (h.step (created_le_run.trans_lt hcount)) hcount

end Sound

/-- A reader for which each file holds the table of the words with an even number of symbols. -/
def readEvenAs : Reader := fun _ => .ok "DFA\n2\na\n0\n0\n0 a 1\n1 a 0\n"

end Ledger

end FiniteAutomata
