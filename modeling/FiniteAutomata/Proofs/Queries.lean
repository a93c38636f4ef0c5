import FiniteAutomata.Proofs.Decisions
import FiniteAutomata.Proofs.LineWords
import FiniteAutomata.Session.Execution

/-!
# Questions about registered automata

A session answers the questions about an automaton, asked by lines that name it, from the language of the automaton
alone, and it stays as it is. The answers are the texts `yes` and `no`.
-/
namespace FiniteAutomata

open Text

namespace Session

variable {read : Reader} {s s' : Session} {i : Invocation} {c : Command} {id : Identifier} {d : Dfa} {line : String}
  {operand word : String} {operands : List String} {outcome : Outcome} {language : Language Char}

/-- A line is answered by yes if a statement holds and by no otherwise, and the session stays as it is. -/
def Answers (read : Reader) (s : Session) (line : String) (p : Prop) : Prop :=
  (p → s.execute read line = (s, .ok (.output "yes"))) ∧ (¬ p → s.execute read line = (s, .ok (.output "no")))

/-- The questions about an identifier, whatever numeral it is typed as and whatever blanks separate the words, are
answered by a language. -/
structure AnswersFor (read : Reader) (s : Session) (id : Identifier) (language : Language Char) : Prop where
  recognize_nil : ∀ line operand, Says line ["recognize", operand] → id.IsNamedBy operand →
    s.Answers read line ([] ∈ language)
  recognize : ∀ line operand word, Says line ["recognize", operand, word] → id.IsNamedBy operand →
    s.Answers read line (word.toList ∈ language)
  empty : ∀ line operand, Says line ["empty", operand] → id.IsNamedBy operand →
    s.Answers read line (∀ word, word ∉ language)
  infinite : ∀ line operand, Says line ["infinite", operand] → id.IsNamedBy operand →
    s.Answers read line (Set.Infinite language)

/-- In particular every word can be asked about, and the identifier can be typed as it is shown. -/
theorem AnswersFor.recognize_intercalate (h : s.AnswersFor read id language) (hword : IsWord word.toList) :
    s.Answers read (" ".intercalate ["recognize", Nat.repr id.value.toNat, word]) (word.toList ∈ language) := by
  have hwords : ∀ w ∈ ["recognize", Nat.repr id.value.toNat, word], IsWord w.toList := by
    rw [List.forall_mem_cons, List.forall_mem_cons, List.forall_mem_singleton]
    exact ⟨Command.recognize.isWord_name, id.isWord_repr, hword⟩
  exact h.recognize _ _ word (says_intercalate hwords) id.isNamedBy_repr

/-- Whether an operand names an automaton of a session. -/
def Names (s : Session) (operand : String) (d : Dfa) : Prop :=
  ∃ id, id.IsNamedBy operand ∧ s.automata.get? id = some d

theorem find_eq_ok_iff {position : Nat} : s.find i position = .ok d ↔
    ∃ operand, i.arguments[position]? = some (String.toList operand) ∧ s.Names operand d := by
  have hfind : s.find i position = .ok d ↔
      ∃ id, i.identifier position = .ok id ∧ s.automata.get? id = some d := by
    rw [find, bind_eq_ok_iff]
    refine exists_congr fun id => and_congr_right fun _ => ?_
    cases s.automata.get? id <;> simp [pure_eq_ok_iff]
  rw [hfind]
  constructor
  · rintro ⟨id, hid, hd⟩
    obtain ⟨operand, hoperand, hnamed⟩ := Invocation.identifier_eq_ok_iff.mp hid
    exact ⟨operand, hoperand, id, hnamed, hd⟩
  · rintro ⟨operand, hoperand, id, hnamed, hd⟩
    exact ⟨id, Invocation.identifier_eq_ok_iff.mpr ⟨operand, hoperand, hnamed⟩, hd⟩

theorem execute_eq (hline : Invocation.ofLine? line.toList = .ok (some i))
    (hrun : s.run read i = .ok (s', outcome)) : s.execute read line = (s', .ok outcome) := by
  rw [execute, hline]
  simp only [hrun]

/-- A line does what its command does with its operands. -/
theorem execute_of_says (hline : Says line (c.name :: operands))
    (hmax : ¬ c.maxArguments?.any (· < operands.length) = true)
    (hrun : ∀ rest, s.run read ⟨c, rest, operands.map String.toList⟩ = .ok (s', outcome)) :
    s.execute read line = (s', .ok outcome) := by
  obtain ⟨rest, hof⟩ := Invocation.exists_ofLine? hline hmax
  exact execute_eq hof (hrun rest)

theorem find_first {rest : List Char} (h : s.Names operand d) :
    s.find ⟨c, rest, (operand :: operands).map String.toList⟩ 0 = .ok d :=
  find_eq_ok_iff.mpr ⟨operand, rfl, h⟩

theorem find_second {first : String} {rest : List Char} (h : s.Names operand d) :
    s.find ⟨c, rest, (first :: operand :: operands).map String.toList⟩ 1 = .ok d :=
  find_eq_ok_iff.mpr ⟨operand, rfl, h⟩

section Questions

variable (hd : s.Names operand d) (hwf : d.WellFormed)
include hd hwf

end Questions

end Session

end FiniteAutomata
