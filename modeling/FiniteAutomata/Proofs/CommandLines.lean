import FiniteAutomata.Proofs.Decisions
import FiniteAutomata.Proofs.Invocations
import FiniteAutomata.Session.Execution

/-!
# What a command line says

A line says no more than its tokens, whatever blanks stand between them and around them, except that the path of `open`
may have blanks of its own: there the line says what stands behind the command word, without the blanks at its ends. So two
lines that say the same do the same to every session (`Session.execute_congr`).
-/
namespace FiniteAutomata

open Text

namespace Session

variable {read : Reader} {s : Session} {line line' : String} {word rest rest' : List Char}

theorem execute_eq_of_ofLine? (h : Invocation.ofLine? line.toList = Invocation.ofLine? line'.toList) :
    s.execute read line = s.execute read line' := by
  rw [execute, execute, h]

/-- Only `open` looks at the rest of the line; all other commands look at its tokens. -/
theorem run_congr_rest {c : Command} (hc : c ≠ .openFile) (rest rest' : List Char) (arguments : List (List Char)) :
    s.run read ⟨c, rest, arguments⟩ = s.run read ⟨c, rest', arguments⟩ := by
  cases c with
  | openFile => exact absurd rfl hc
  | close | concat | empty | exit | help | infinite | list | plus | print | recognize | saveAs | star | union => rfl

theorem execute_congr_of_trim (h : FirstWord line.toList word rest) (h' : FirstWord line'.toList word rest')
    (htrim : trim rest = trim rest') : s.execute read line = s.execute read line' := by
  have htokens : tokens rest = tokens rest' := by rw [← tokens_trim, htrim, tokens_trim]
  refine execute_eq_of_ofLine? ?_
  rw [Invocation.ofLine?_eq h, Invocation.ofLine?_eq h', htokens, htrim]

theorem execute_congr_of_tokens (h : FirstWord line.toList word rest) (h' : FirstWord line'.toList word rest')
    (htokens : tokens rest = tokens rest') (hopen : word ≠ "open".toList) :
    s.execute read line = s.execute read line' := by
  rw [execute, execute, Invocation.ofLine?_eq h, Invocation.ofLine?_eq h', htokens]
  cases hname : Command.ofName? (String.ofList word) with
  | none => rfl
  | some c =>
    have hc : c ≠ .openFile := by
      rintro rfl
      have hword := congrArg String.toList (Command.name_of_ofName? hname)
      rw [String.toList_ofList] at hword
      exact hopen hword.symm
    cases hmany : c.maxArguments?.any (· < (tokens rest').length) with
    | true => simp only [hmany, if_true]
    | false => simp only [hmany, Bool.false_eq_true, if_false, run_congr_rest hc (trim rest) (trim rest')]

/-- Lines with the same tokens do the same; so do lines with the same command word, and with the same behind it up to
blanks at the ends, which is what the command `open` needs. -/
theorem execute_congr (read : Reader) (s : Session) (line line' : String) :
    (tokens line.toList = tokens line'.toList → (tokens line.toList).head? ≠ some "open".toList →
      s.execute read line = s.execute read line') ∧
    ∀ word rest rest', FirstWord line.toList word rest → FirstWord line'.toList word rest' →
      trim rest = trim rest' → s.execute read line = s.execute read line' := by
  refine ⟨fun htokens hopen => ?_, fun word rest rest' h h' => execute_congr_of_trim h h'⟩
  obtain hblank | ⟨word, rest, h⟩ := isBlank_or_firstWord line.toList
  · have hblank' : IsBlank line'.toList := by
      rwa [← tokens_eq_nil_iff, ← htokens, tokens_eq_nil_iff]
    exact execute_eq_of_ofLine? (by rw [Invocation.ofLine?_of_isBlank hblank, Invocation.ofLine?_of_isBlank hblank'])
  · obtain hblank' | ⟨word', rest', h'⟩ := isBlank_or_firstWord line'.toList
    · rw [h.tokens_eq, tokens_eq_nil_iff.mpr hblank'] at htokens
      cases htokens
    · rw [h.tokens_eq, h'.tokens_eq, List.cons.injEq] at htokens
      obtain ⟨rfl, hrest⟩ := htokens
      refine execute_congr_of_tokens h h' hrest fun hword => hopen ?_
      rw [h.tokens_eq, List.head?_cons, hword]

/-- An ideographic space, a tab and a line separator around the tokens, and a no-break space behind `open`. -/
theorem execute_congr_evenAs :
    let read : Reader := fun path => .error (.other path)
    let s := (Session.empty.register .evenAs).2
    tokens "\u3000recognize  1\taa\u2028".toList = tokens "recognize 1 aa".toList ∧
    s.execute read "\u3000recognize  1\taa\u2028" = s.execute read "recognize 1 aa" ∧
    FirstWord "open\u00a0a  b.txt \r".toList "open".toList "\u00a0a  b.txt \r".toList ∧
    s.execute read "open\u00a0a  b.txt \r" = s.execute read " open a  b.txt" := by
  intro read s
  have htokens : tokens "\u3000recognize  1\taa\u2028".toList = tokens "recognize 1 aa".toList := by decide
  have hopen : FirstWord "open\u00a0a  b.txt \r".toList "open".toList "\u00a0a  b.txt \r".toList :=
    ⟨by decide, by simp; decide, [], by simp [IsBlank], rfl⟩
  have hopen' : FirstWord " open a  b.txt".toList "open".toList " a  b.txt".toList :=
    ⟨by decide, by simp; decide, [' '], by simp [IsBlank]; decide, rfl⟩
  exact ⟨htokens, (execute_congr read s _ _).1 htokens (by decide), hopen,
    (execute_congr read s _ _).2 _ _ _ hopen hopen' (by decide)⟩

end Session

end FiniteAutomata
