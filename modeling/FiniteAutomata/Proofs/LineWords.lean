import FiniteAutomata.Proofs.Invocations
import FiniteAutomata.Proofs.Rendering

/-!
# What lines say

A line says a list of words if it consists of them and of blanks around them (`Text.Says`). What follows the word
`open` is also a path, with blanks of its own (`Text.AsksToOpen`). Both are said without the commands of a session; the
invocation on a line is what the words of the line ask for (`Invocation.exists_ofLine?`, `Invocation.says_of_ofLine?`).
-/
namespace FiniteAutomata

namespace Text

variable {line word path path' : String} {words words' operands : List String}

/-- Whether a line consists of some words, with blanks in front of them, between them and behind them. -/
def Says (line : String) (words : List String) : Prop := Words line.toList (words.map String.toList)

/-- Whether a word is the first one of a line. -/
def BeginsWith (line word : String) : Prop := ∃ operands, Says line (word :: operands)

/-- The path that is typed in a text is what stands between the blanks at its ends; it may stand between quotation
marks there. -/
inductive IsTypedPath : List Char → List Char → Prop
  | quoted {before path behind : List Char} (hbefore : IsBlank before) (hbehind : IsBlank behind) :
      IsTypedPath (before ++ ('"' :: (path ++ ['"']) ++ behind)) path
  | plain {before path behind : List Char} (hbefore : IsBlank before) (hbehind : IsBlank behind)
      (hhead : ∀ c, path.head? = some c → isBlank c = false)
      (hlast : ∀ c, path.getLast? = some c → isBlank c = false)
      (hmarks : ∀ inner, path ≠ '"' :: (inner ++ ['"'])) :
      IsTypedPath (before ++ (path ++ behind)) path

/-- Whether a line consists of the word `open` and a typed path. -/
def AsksToOpen (line path : String) : Prop :=
  ∃ rest, FirstWord line.toList "open".toList rest ∧ IsTypedPath rest path.toList

theorem says_iff : Says line words ↔ (tokens line.toList).map String.ofList = words := by
  rw [Says, ← tokens_eq_iff]
  constructor
  · intro h
    rw [h, List.map_map]
    simp
  · rintro rfl
    rw [List.map_map]
    simp

instance : Decidable (Says line words) := decidable_of_iff _ says_iff.symm

/-- A line says one list of words. -/
theorem Says.unique (h : Says line words) (h' : Says line words') : words = words' :=
  (says_iff.mp h).symm.trans (says_iff.mp h')

/-- Any words can be said, with a space between neighbours. -/
theorem says_intercalate (h : ∀ word ∈ words, IsWord word.toList) : Says (" ".intercalate words) words := by
  rw [Says, String.toList_intercalate]
  exact words_unwords (by simpa using h)

/-- The first word of a line, and the words behind it. -/
theorem says_cons_iff : Says line (word :: operands) ↔
    ∃ rest, FirstWord line.toList word.toList rest ∧ tokens rest = operands.map String.toList := by
  constructor
  · intro h
    rw [Says, List.map_cons] at h
    generalize line.toList = chars at h ⊢
    cases h with
    | @word blanks _ rest _ hblanks hword hend hrest =>
      exact ⟨rest, ⟨hword, hend, blanks, hblanks, List.append_assoc ..⟩, tokens_eq_iff.mpr hrest⟩
  · rintro ⟨rest, hfirst, hrest⟩
    rw [Says, ← tokens_eq_iff, hfirst.tokens_eq, hrest, List.map_cons]

theorem beginsWith_iff : BeginsWith line word ↔ (tokens line.toList).head? = some word.toList := by
  constructor
  · rintro ⟨operands, h⟩
    rw [tokens_eq_iff.mpr h]
    rfl
  · intro h
    obtain ⟨rest, hrest⟩ := List.head?_eq_some_iff.mp h
    exact ⟨rest.map String.ofList, says_iff.mpr (by simp [hrest])⟩

instance : Decidable (BeginsWith line word) := decidable_of_iff _ beginsWith_iff.symm

theorem Says.beginsWith (h : Says line (word :: operands)) : BeginsWith line word := ⟨operands, h⟩

theorem BeginsWith.unique {word' : String} (h : BeginsWith line word) (h' : BeginsWith line word') : word = word' := by
  rw [beginsWith_iff] at h h'
  exact String.toList_inj.mp (Option.some_inj.mp (h.symm.trans h'))

theorem FirstWord.beginsWith {rest : List Char} (h : FirstWord line.toList word.toList rest) :
    BeginsWith line word := by
  rw [beginsWith_iff, h.tokens_eq, List.head?_cons]

theorem isTypedPath_iff {s path : List Char} : IsTypedPath s path ↔ Invocation.unquote s = path := by
  rw [Invocation.unquote_eq_iff]
  constructor
  · rintro (⟨hbefore, hbehind⟩ | ⟨hbefore, hbehind, hhead, hlast, hmarks⟩)
    · have hmark : ∀ c, some '"' = some c → isBlank c = false := by
        intro c hc
        rw [← Option.some_inj.mp hc]
        decide
      refine .inl (trim_eq_iff.mpr ⟨⟨_, _, rfl, hbefore, hbehind⟩, hmark, ?_⟩)
      rw [← List.cons_append, List.getLast?_concat]
      exact hmark
    · exact .inr ⟨trim_eq_iff.mpr ⟨⟨_, _, rfl, hbefore, hbehind⟩, hhead, hlast⟩, hmarks⟩
  · rintro (h | ⟨h, hmarks⟩)
    · obtain ⟨⟨before, behind, rfl, hbefore, hbehind⟩, -⟩ := trim_eq_iff.mp h
      exact .quoted hbefore hbehind
    · obtain ⟨⟨before, behind, rfl, hbefore, hbehind⟩, hhead, hlast⟩ := trim_eq_iff.mp h
      exact .plain hbefore hbehind hhead hlast hmarks

/-- The path behind the word `open` is the one that is typed there. -/
theorem FirstWord.asksToOpen_iff {rest : List Char} (h : FirstWord line.toList "open".toList rest) :
    AsksToOpen line path ↔ Invocation.unquote rest = path.toList := by
  constructor
  · rintro ⟨rest', h', hpath⟩
    rw [← isTypedPath_iff.mp hpath]
    exact Invocation.unquote_congr (h.trim_rest_eq.symm.trans h'.trim_rest_eq)
  · exact fun hpath => ⟨rest, h, isTypedPath_iff.mpr hpath⟩

theorem AsksToOpen.beginsWith (h : AsksToOpen line path) : BeginsWith line "open" := by
  obtain ⟨rest, hrest, -⟩ := h
  exact hrest.beginsWith

theorem AsksToOpen.unique (h : AsksToOpen line path) (h' : AsksToOpen line path') : path = path' := by
  obtain ⟨rest, hrest, hpath⟩ := h
  rw [hrest.asksToOpen_iff, isTypedPath_iff.mp hpath] at h'
  exact String.toList_inj.mp h'

end Text

namespace Identifier

open Text

/-- A text names one identifier at most. -/
theorem IsNamedBy.unique {id id' : Identifier} {operand : String} (h : id.IsNamedBy operand)
    (h' : id'.IsNamedBy operand) : id = id' := by
  rw [IsNamedBy, ← read_eq_ok_iff] at h h'
  exact Except.ok.inj (h.symm.trans h')

end Identifier

open Text

namespace Invocation

variable {i : Invocation} {c : Command} {line word path : String} {operands : List String}

theorem identifier_eq_ok_iff {position : Nat} {id : Identifier} : i.identifier position = .ok id ↔
    ∃ operand, i.arguments[position]? = some (String.toList operand) ∧ id.IsNamedBy operand := by
  rw [identifier]
  cases i.arguments[position]? with
  | none => simp
  | some token =>
    have hread : (Identifier.read token).mapError (CommandError.notIdentifier (String.ofList token)) = .ok id ↔
        id.IsNamedBy (String.ofList token) := by
      rw [Identifier.IsNamedBy, String.toList_ofList, ← Identifier.read_eq_ok_iff]
      cases Identifier.read token <;> simp [Except.mapError]
    refine hread.trans ⟨fun h => ⟨_, by simp, h⟩, ?_⟩
    rintro ⟨operand, hoperand, h⟩
    obtain rfl := Option.some_inj.mp hoperand
    rwa [String.ofList_toList]

/-- An invocation has been said, word by word. -/
theorem says_of_ofLine? (h : ofLine? line.toList = .ok (some i))
    (harguments : i.arguments = operands.map String.toList) : Says line (i.command.name :: operands) := by
  obtain ⟨rest, hrest, -, htokens, -⟩ := ofLine?_eq_some_iff.mp h
  exact says_cons_iff.mpr ⟨rest, hrest, htokens.symm.trans harguments⟩

theorem says_one (h : ofLine? line.toList = .ok (some i)) (hmax : i.command.maxArguments? = some 1) {operand : String}
    (hfirst : i.arguments[0]? = some operand.toList) : Says line [i.command.name, operand] := by
  obtain ⟨-, -, -, -, hlength⟩ := ofLine?_eq_some_iff.mp h
  apply says_of_ofLine? h
  match harguments : i.arguments with
  | [] => simp [harguments] at hfirst
  | [_] => simpa [harguments] using hfirst
  | _ :: _ :: _ => simp [hmax, harguments] at hlength

theorem says_two (h : ofLine? line.toList = .ok (some i)) (hmax : i.command.maxArguments? = some 2)
    {first second : String} (hfirst : i.arguments[0]? = some first.toList)
    (hsecond : i.arguments[1]? = some second.toList) : Says line [i.command.name, first, second] := by
  obtain ⟨-, -, -, -, hlength⟩ := ofLine?_eq_some_iff.mp h
  apply says_of_ofLine? h
  match harguments : i.arguments with
  | [] => simp [harguments] at hfirst
  | [_] => simp [harguments] at hsecond
  | [_, _] =>
    rw [harguments] at hfirst hsecond
    cases hfirst
    cases hsecond
    rfl
  | _ :: _ :: _ :: _ => simp [hmax, harguments] at hlength

theorem beginsWith_of_ofLine? (h : ofLine? line.toList = .ok (some i)) : BeginsWith line i.command.name := by
  obtain ⟨rest, hrest, -⟩ := ofLine?_eq_some_iff.mp h
  exact hrest.beginsWith

theorem ofLine?_ne_none (h : BeginsWith line word) : ofLine? line.toList ≠ .ok none := by
  obtain ⟨operands, h⟩ := h
  obtain ⟨rest, hrest, -⟩ := says_cons_iff.mp h
  rw [ofLine?_eq hrest]
  split
  · simp
  · split <;> simp

/-- A line that begins with no name of a command has no invocation. -/
theorem ofLine?_of_unknown (h : BeginsWith line word) (hword : ∀ c : Command, c.name ≠ word) :
    ofLine? line.toList = .error (.unknown word) := by
  obtain ⟨operands, h⟩ := h
  obtain ⟨rest, hrest, -⟩ := says_cons_iff.mp h
  rw [ofLine?_eq hrest, String.ofList_toList]
  cases hname : Command.ofName? word with
  | none => rfl
  | some c => exact absurd (Command.name_of_ofName? hname) (hword c)

/-- The name of a command and operands, if they are not too many, are read as its invocation with them. -/
theorem exists_ofLine? (h : Says line (c.name :: operands))
    (hmax : ¬ c.maxArguments?.any (· < operands.length) = true) :
    ∃ rest, ofLine? line.toList = .ok (some ⟨c, rest, operands.map String.toList⟩) := by
  obtain ⟨rest, hrest, htokens⟩ := says_cons_iff.mp h
  exact ⟨trim rest, ofLine?_eq_some_iff.mpr ⟨rest, hrest, rfl, htokens.symm, by rwa [List.length_map]⟩⟩

theorem asksToOpen_of_ofLine? (h : ofLine? line.toList = .ok (some i)) (hc : i.command = .openFile) :
    AsksToOpen line i.path := by
  obtain ⟨rest, hrest, hi, -⟩ := ofLine?_eq_some_iff.mp h
  rw [hc] at hrest
  rw [FirstWord.asksToOpen_iff hrest, path, String.toList_ofList, hi]
  exact (unquote_congr (trim_trim rest)).symm

theorem exists_ofLine?_of_asksToOpen (h : AsksToOpen line path) :
    ∃ i, ofLine? line.toList = .ok (some i) ∧ i.command = .openFile ∧ i.path = path := by
  have ⟨rest, hrest, _⟩ := h
  have hline : ofLine? line.toList = .ok (some ⟨.openFile, trim rest, tokens rest⟩) :=
    ofLine?_eq_some_iff.mpr ⟨rest, hrest, rfl, rfl, by simp [Command.maxArguments?]⟩
  exact ⟨_, hline, rfl, (asksToOpen_of_ofLine? hline rfl).unique h⟩

end Invocation

end FiniteAutomata
