import FiniteAutomata.Proofs.Registries
import FiniteAutomata.Session.Command

/-!
# How lines are read

The first word of a line names a command, and the tokens behind it are its arguments (`Invocation.ofLine?_eq`). What
stands behind the first word is kept too, without the blanks at its ends, for the command that takes it as a path:
`trim_eq_iff` says what is cut off, and `unquote_eq_iff` what quotation marks do to a path.
-/
namespace FiniteAutomata

namespace Text

variable {s line word rest blanks : List Char}

theorem trim_blank_append (h : IsBlank blanks) : trim (blanks ++ s) = trim s := by
  rw [trim, List.dropWhile_append_of_pos h, ← trim]

/-- What is cut off behind a word ends where the word does. -/
theorem trimEnd_word_append (h : IsWord word) : trimEnd (word ++ rest) = word ++ trimEnd rest := by
  rw [trimEnd, trimEnd, dropEndWhile, dropEndWhile, List.reverse_append, List.dropWhile_append]
  split
  · next hblank => simp [dropWhile_word h.reverse, List.isEmpty_iff.mp hblank]
  · simp

theorem trim_append_blank (h : IsBlank blanks) : trim (s ++ blanks) = trim s := by
  rw [trim, List.dropWhile_append]
  split
  · next hblank => rw [List.dropWhile_eq_nil_iff.mpr h, trim, List.isEmpty_iff.mp hblank]
  · rw [trimEnd, dropEndWhile_append_of_forall h, trim, trimEnd]

theorem trim_trimEnd (s : List Char) : trim (trimEnd s) = trim s := by
  obtain ⟨blanks, hs, hblanks⟩ := exists_dropEndWhile_append isBlank s
  conv_rhs => rw [hs, trim_append_blank hblanks]
  rfl

theorem dropEndWhile_of_getLast? {p : Char → Bool} (h : ∀ c, s.getLast? = some c → p c = false) :
    dropEndWhile p s = s := by
  have hhead : ∀ c, s.reverse.head? = some c → p c = false := by simpa using h
  rw [dropEndWhile]
  cases hs : s.reverse with
  | nil => rw [← List.reverse_reverse s, hs, List.dropWhile_nil]
  | cons c rest =>
    have hc := hhead c (by rw [hs]; rfl)
    rw [List.dropWhile_cons_of_neg (by simp [hc]), ← hs, List.reverse_reverse]

/-- A text without a blank at its ends is trimmed already. -/
theorem trim_eq_self (hhead : ∀ c, s.head? = some c → isBlank c = false)
    (hlast : ∀ c, s.getLast? = some c → isBlank c = false) : trim s = s := by
  have hdrop : s.dropWhile isBlank = s := by
    cases s with
    | nil => rfl
    | cons c rest => exact List.dropWhile_cons_of_neg (by simp [hhead c rfl])
  rw [trim, hdrop, trimEnd, dropEndWhile_of_getLast? hlast]

theorem not_isBlank_of_head?_trim {c : Char} (h : (trim s).head? = some c) : isBlank c = false := by
  obtain ⟨blanks, hs, -⟩ := exists_dropEndWhile_append isBlank (s.dropWhile isBlank)
  have hhead : (s.dropWhile isBlank).head? = some c := by
    rw [hs, List.head?_append, show (dropEndWhile isBlank (s.dropWhile isBlank)).head? = some c from h]
    rfl
  simpa [hhead] using List.head?_dropWhile_not isBlank s

theorem not_isBlank_of_getLast?_trim {c : Char} (h : (trim s).getLast? = some c) : isBlank c = false := by
  rw [trim, trimEnd, dropEndWhile, List.getLast?_reverse] at h
  simpa [h] using List.head?_dropWhile_not isBlank (s.dropWhile isBlank).reverse

/-- Trimming cuts blanks off at both ends, and all of them. -/
theorem trim_eq_iff : trim s = word ↔
    (∃ before behind, s = before ++ (word ++ behind) ∧ IsBlank before ∧ IsBlank behind) ∧
      (∀ c, word.head? = some c → isBlank c = false) ∧ ∀ c, word.getLast? = some c → isBlank c = false := by
  constructor
  · rintro rfl
    exact ⟨exists_trim s, fun _ => not_isBlank_of_head?_trim, fun _ => not_isBlank_of_getLast?_trim⟩
  · rintro ⟨⟨before, behind, rfl, hbefore, hbehind⟩, hhead, hlast⟩
    rw [trim_blank_append hbefore, trim_append_blank hbehind, trim_eq_self hhead hlast]

theorem trim_trim (s : List Char) : trim (trim s) = trim s :=
  trim_eq_self (fun _ => not_isBlank_of_head?_trim) fun _ => not_isBlank_of_getLast?_trim

/-- Whether a line begins, behind blanks, with a word, and what follows the word up to the end of the line. -/
structure FirstWord (line word rest : List Char) : Prop where
  isWord : IsWord word
  isBlank_head : ∀ c, rest.head? = some c → isBlank c = true
  line_eq : ∃ blanks, IsBlank blanks ∧ line = blanks ++ (word ++ rest)

theorem isBlank_or_firstWord (line : List Char) : IsBlank line ∨ ∃ word rest, FirstWord line word rest := by
  obtain hblank | ⟨blanks, word, rest, hline, hblanks, hword, hend⟩ := blank_or_word line
  · exact .inl hblank
  · exact .inr ⟨word, rest, hword, hend, blanks, hblanks, by rw [hline, List.append_assoc]⟩

namespace FirstWord

theorem tokens_eq (h : FirstWord line word rest) : tokens line = word :: tokens rest := by
  obtain ⟨blanks, hblanks, rfl⟩ := h.line_eq
  rw [tokens_blank_append hblanks]
  cases hrest : rest with
  | nil => rw [List.append_nil, tokens_word h.isWord, tokens_nil]
  | cons c rest' =>
    have hc := h.isBlank_head c (by rw [hrest]; rfl)
    rw [tokens_word_append h.isWord hc, tokens_cons_of_blank hc]

theorem trim_eq (h : FirstWord line word rest) : trim line = word ++ trimEnd rest := by
  obtain ⟨blanks, hblanks, rfl⟩ := h.line_eq
  rw [trim_blank_append hblanks, trim, dropWhile_word_append h.isWord, trimEnd_word_append h.isWord]

/-- The first blank behind the first word cuts the trimmed line there. -/
theorem cut_trim (h : FirstWord line word rest) :
    (trim line).takeWhile (!isBlank ·) = word ∧ (trim line).dropWhile (!isBlank ·) = trimEnd rest := by
  have hnone : ∀ c ∈ word, (!isBlank c) = true := fun c hc => by simp [h.isWord.not_blank c hc]
  obtain ⟨blanks, hrest, -⟩ := exists_dropEndWhile_append isBlank rest
  have hhead : ∀ c, (trimEnd rest).head? = some c → isBlank c = true := by
    intro c hc
    refine h.isBlank_head c ?_
    rw [hrest, List.head?_append, show (dropEndWhile isBlank rest).head? = some c from hc]
    rfl
  rw [h.trim_eq, List.takeWhile_append_of_pos hnone, List.dropWhile_append_of_pos hnone]
  cases hend : trimEnd rest with
  | nil => simp
  | cons c rest' =>
    have hc := hhead c (by rw [hend]; rfl)
    simp [hc]

/-- Up to blanks at its ends, a line determines what follows its first word. -/
theorem trim_rest_eq (h : FirstWord line word rest) : trim ((trim line).dropWhile (!isBlank ·)) = trim rest := by
  rw [h.cut_trim.2, trim_trimEnd]

end FirstWord

end Text

open Text

namespace Command

theorem ofName?_name (c : Command) : ofName? c.name = some c := by
  cases c <;> decide

theorem name_of_ofName? {c : Command} {name : String} (h : ofName? name = some c) : c.name = name := by
  simpa using List.find?_some h

theorem name_injective {c c' : Command} (h : c.name = c'.name) : c = c' := by
  rw [← Option.some_inj, ← ofName?_name c, h, ofName?_name]

theorem isWord_name (c : Command) : IsWord c.name.toList := by
  cases c <;> decide

end Command

namespace Invocation

variable {i : Invocation} {line word rest s path : List Char}

theorem ofLine?_of_isBlank (h : IsBlank line) : ofLine? line = .ok none := by
  simp [ofLine?, trim_eq_nil_iff.mpr h]

theorem ofLine?_eq (h : FirstWord line word rest) : ofLine? line =
    match Command.ofName? (String.ofList word) with
    | none => .error (.unknown (String.ofList word))
    | some command =>
      if command.maxArguments?.any (· < (tokens rest).length) then .error (.tooManyArguments command)
      else .ok (some ⟨command, trim rest, tokens rest⟩) := by
  obtain ⟨htake, hdrop⟩ := h.cut_trim
  cases hname : Command.ofName? (String.ofList word) <;>
    simp only [ofLine?, htake, hdrop, trim_trimEnd, tokens_trim, h.isWord.ne_nil, if_false, hname]

/-- The invocation on a line is that of the command that its first word names. -/
theorem ofLine?_eq_some_iff : ofLine? line = .ok (some i) ↔ ∃ rest, FirstWord line i.command.name.toList rest ∧
    i.rest = trim rest ∧ i.arguments = tokens rest ∧
      ¬ i.command.maxArguments?.any (· < i.arguments.length) = true := by
  constructor
  · intro h
    obtain hblank | ⟨word, rest, hword⟩ := isBlank_or_firstWord line
    · rw [ofLine?_of_isBlank hblank] at h
      cases h
    · rw [ofLine?_eq hword] at h
      split at h
      · cases h
      · next c hc =>
        split at h
        · cases h
        · next hmax =>
          cases h
          have hname : c.name.toList = word := by rw [Command.name_of_ofName? hc, String.toList_ofList]
          exact ⟨rest, hname ▸ hword, rfl, rfl, hmax⟩
  · rintro ⟨rest, hword, hrest, harguments, hmax⟩
    obtain ⟨c, _, _⟩ := i
    obtain rfl := hrest
    obtain rfl := harguments
    rw [ofLine?_eq hword, String.ofList_toList, Command.ofName?_name]
    exact if_neg hmax

theorem unquote_of_quoted (h : trim s = '"' :: (path ++ ['"'])) : unquote s = path := by
  have hlast : ('"' :: (path ++ ['"'])).getLast? = some '"' := List.getLast?_concat (l := '"' :: path)
  have hne : path ++ ['"'] ≠ [] := by simp
  obtain ⟨c, rest, hinner⟩ := List.exists_cons_of_ne_nil hne
  rw [hinner] at hlast
  simp only [unquote, h, hinner, hlast]
  rw [← hinner, List.dropLast_concat]

theorem unquote_of_not_quoted (h : ∀ inner, trim s ≠ '"' :: (inner ++ ['"'])) : unquote s = trim s := by
  simp only [unquote]
  split
  · next c rest hs hlast =>
    rw [hs, List.getLast?_cons_cons] at hlast
    obtain ⟨inner, hinner⟩ := List.getLast?_eq_some_iff.mp hlast
    exact absurd (hinner ▸ hs) (h inner)
  · rfl

theorem unquote_congr {s' : List Char} (h : trim s = trim s') : unquote s = unquote s' := by
  rw [unquote, unquote, h]

/-- A quotation mark at each end of a path is taken off, and nothing else is. -/
theorem unquote_eq_iff : unquote s = path ↔ trim s = '"' :: (path ++ ['"']) ∨
    trim s = path ∧ ∀ inner, path ≠ '"' :: (inner ++ ['"']) := by
  by_cases h : ∃ inner, trim s = '"' :: (inner ++ ['"'])
  · obtain ⟨inner, hinner⟩ := h
    have hpath : path = inner ↔ trim s = '"' :: (path ++ ['"']) := by simp [hinner, eq_comm]
    rw [unquote_of_quoted hinner, ← hpath, eq_comm]
    refine (or_iff_left ?_).symm
    rintro ⟨rfl, hne⟩
    exact hne inner hinner
  · rw [not_exists] at h
    rw [unquote_of_not_quoted h, or_iff_right (h path)]
    refine (and_iff_left_of_imp ?_).symm
    rintro rfl
    exact h

end Invocation

end FiniteAutomata
