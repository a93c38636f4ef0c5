import FiniteAutomata.Text.Numeral
import FiniteAutomata.Text.Split
import Mathlib.Data.List.TakeWhile
import Mathlib.Data.Nat.Digits.Defs

/-!
# What tokens and numerals are

The tokens of a text are its words, and blanks only separate them (`tokens_eq_iff`). A numeral is an optional plus
sign and some ASCII digits; its value is the one in the decimal system and fits into 64 bits (`read?_eq_some_iff`).
-/
namespace FiniteAutomata.Text

variable {s rest word : List Char} {c : Char}

def IsBlank (s : List Char) : Prop := ∀ c ∈ s, isBlank c = true

/-- A word has characters, and none of them is blank. -/
structure IsWord (word : List Char) : Prop where
  ne_nil : word ≠ []
  not_blank : ∀ c ∈ word, isBlank c = false

instance : Decidable (IsWord word) :=
  decidable_of_iff (word ≠ [] ∧ word.all (!isBlank ·) = true)
    ⟨fun h => ⟨h.1, by simpa using h.2⟩, fun h => ⟨h.ne_nil, by simpa using h.not_blank⟩⟩

theorem IsWord.reverse (h : IsWord word) : IsWord word.reverse :=
  ⟨by simp [h.ne_nil], by simpa using h.not_blank⟩

@[simp] theorem tokens_nil : tokens [] = [] := rfl

theorem tokens_cons_of_blank (h : isBlank c = true) : tokens (c :: s) = tokens s := by
  have hsplit := List.splitOnP_append_cons [] s h
  rw [List.nil_append] at hsplit
  simp [tokens, hsplit]

theorem tokens_blank_append {blanks : List Char} (h : IsBlank blanks) :
    tokens (blanks ++ s) = tokens s := by
  induction blanks with
  | nil => rfl
  | cons c blanks ih =>
    rw [List.cons_append, tokens_cons_of_blank (h c (by simp))]
    exact ih fun x hx => h x (by simp [hx])

theorem tokens_word (h : IsWord word) : tokens word = [word] := by
  simp [tokens, List.splitOnP_eq_singleton h.not_blank, h.ne_nil]

theorem tokens_word_append (h : IsWord word) (hc : isBlank c = true) :
    tokens (word ++ c :: rest) = word :: tokens rest := by
  have hsplit := List.splitOnP_append_cons_of_forall_mem h.not_blank c hc rest
  simp [tokens, hsplit, h.ne_nil]

theorem tokens_append_cons (hc : isBlank c = true) :
    tokens (s ++ c :: rest) = tokens s ++ tokens rest := by
  simp [tokens, List.splitOnP_append_cons s rest hc]

theorem tokens_append_blank {blanks : List Char} (h : IsBlank blanks) :
    tokens (s ++ blanks) = tokens s := by
  cases blanks with
  | nil => simp
  | cons c blanks =>
    rw [tokens_append_cons (h c (by simp))]
    have hnil : tokens blanks = [] := by
      simpa using tokens_blank_append (s := []) fun x hx => h x (List.mem_cons_of_mem c hx)
    simp [hnil]

/-- A text begins with blanks and then with a word, which the end or a blank follows. -/
theorem blank_or_word (s : List Char) : IsBlank s ∨ ∃ blanks word rest,
    s = blanks ++ word ++ rest ∧ IsBlank blanks ∧ IsWord word ∧
      ∀ c, rest.head? = some c → isBlank c = true := by
  by_cases h : s.dropWhile isBlank = []
  · exact .inl fun c hc => List.dropWhile_eq_nil_iff.mp h c hc
  · refine .inr ⟨s.takeWhile isBlank, (s.dropWhile isBlank).takeWhile (!isBlank ·),
      (s.dropWhile isBlank).dropWhile (!isBlank ·), ?_, ?_, ⟨?_, ?_⟩, ?_⟩
    · rw [List.append_assoc, List.takeWhile_append_dropWhile, List.takeWhile_append_dropWhile]
    · exact fun c hc => List.mem_takeWhile_imp hc
    · intro hnil
      have hhead := List.head_dropWhile_not isBlank h
      rw [List.takeWhile_eq_nil_iff] at hnil
      simp_all [List.head_eq_getElem]
    · exact fun c hc => by simpa using List.mem_takeWhile_imp hc
    · intro c hc
      have hne : (s.dropWhile isBlank).dropWhile (!isBlank ·) ≠ [] := by
        intro hnil
        simp [hnil] at hc
      have hhead := List.head_dropWhile_not (!isBlank ·) hne
      rw [List.head?_eq_some_head hne, Option.some_inj] at hc
      simpa [hc] using hhead

/-- The words of a text in order, with blanks in front of them, between them and behind them. -/
inductive Words : List Char → List (List Char) → Prop
  | blank {s : List Char} (h : IsBlank s) : Words s []
  | word {blanks word rest : List Char} {words : List (List Char)} (hblanks : IsBlank blanks)
      (hword : IsWord word) (hend : ∀ c, rest.head? = some c → isBlank c = true)
      (hrest : Words rest words) : Words (blanks ++ word ++ rest) (word :: words)

theorem Words.isWord {words : List (List Char)} (h : Words s words) : ∀ word ∈ words, IsWord word := by
  induction h with
  | blank => simp
  | word _ hword _ _ ih => exact List.forall_mem_cons.mpr ⟨hword, ih⟩

/-- The characters of the words are those of the text that are not blank. -/
theorem Words.mem_iff {words : List (List Char)} (h : Words s words) :
    (∃ word ∈ words, c ∈ word) ↔ c ∈ s ∧ isBlank c = false := by
  induction h with
  | blank h =>
    simp only [List.not_mem_nil, false_and, exists_false, false_iff, not_and]
    intro hc
    simp [h c hc]
  | @word blanks word rest words hblanks hword hend hrest ih =>
    have hcons : (∃ v ∈ word :: words, c ∈ v) ↔ c ∈ word ∨ ∃ v ∈ words, c ∈ v := by simp
    have hfirst : ¬ (c ∈ blanks ∧ isBlank c = false) := fun ⟨hc, h⟩ => by simp [hblanks c hc] at h
    simp only [hcons, ih, List.mem_append, or_and_right]
    rw [or_iff_right hfirst, and_iff_left_of_imp (hword.not_blank c)]

theorem tokens_of_words {words : List (List Char)} (h : Words s words) : tokens s = words := by
  induction h with
  | blank h => simpa using tokens_append_blank (s := []) h
  | @word blanks word rest words hblanks hword hend hrest ih =>
    rw [List.append_assoc, tokens_blank_append hblanks]
    cases rest with
    | nil =>
      rw [List.append_nil, tokens_word hword, ← ih, tokens_nil]
    | cons c rest =>
      have hc := hend c rfl
      rw [tokens_word_append hword hc, ← ih, tokens_cons_of_blank hc]

theorem words_tokens (s : List Char) : Words s (tokens s) := by
  induction hn : s.length using Nat.strong_induction_on generalizing s with
  | _ n ih =>
    rcases blank_or_word s with hblank | ⟨blanks, word, rest, rfl, hblanks, hword, hend⟩
    · rw [tokens_of_words (.blank hblank)]
      exact .blank hblank
    · have hlt : rest.length < n := by
        have := List.length_pos_iff.mpr hword.ne_nil
        simp only [List.length_append] at hn
        omega
      have hwords := Words.word hblanks hword hend (ih _ hlt rest rfl)
      rwa [tokens_of_words hwords]

/-- Tokens are the words that blanks separate, and all of them. -/
theorem tokens_eq_iff {words : List (List Char)} : tokens s = words ↔ Words s words :=
  ⟨fun h => h ▸ words_tokens s, tokens_of_words⟩

theorem tokens_eq_nil_iff : tokens s = [] ↔ IsBlank s := by
  rw [tokens_eq_iff]
  constructor
  · rintro (h | _)
    exact h
  · exact .blank

theorem dropEndWhile_append_of_forall {p : Char → Bool} {tail : List Char} (h : ∀ c ∈ tail, p c = true) :
    dropEndWhile p (s ++ tail) = dropEndWhile p s := by
  have h : ∀ c ∈ tail.reverse, p c = true := fun c hc => h c (List.mem_reverse.mp hc)
  simp only [dropEndWhile, List.reverse_append, List.dropWhile_append_of_pos h]

theorem exists_dropEndWhile_append (p : Char → Bool) (s : List Char) :
    ∃ tail, s = dropEndWhile p s ++ tail ∧ ∀ c ∈ tail, p c = true := by
  refine ⟨(s.reverse.takeWhile p).reverse, ?_, fun c hc => ?_⟩
  · rw [dropEndWhile, ← List.reverse_append, List.takeWhile_append_dropWhile, List.reverse_reverse]
  · exact List.mem_takeWhile_imp (List.mem_reverse.mp hc)

theorem dropEndWhile_of_forall {p : Char → Bool} (h : ∀ c ∈ s, p c = false) : dropEndWhile p s = s := by
  obtain ⟨tail, hs, htail⟩ := exists_dropEndWhile_append p s
  cases tail with
  | nil => simpa using hs.symm
  | cons c tail =>
    have hc : c ∈ s := hs ▸ List.mem_append_right _ List.mem_cons_self
    have hp := htail c List.mem_cons_self
    rw [h c hc] at hp
    cases hp

theorem exists_trim (s : List Char) :
    ∃ before behind, s = before ++ (trim s ++ behind) ∧ IsBlank before ∧ IsBlank behind := by
  obtain ⟨behind, hs, hbehind⟩ := exists_dropEndWhile_append isBlank (s.dropWhile isBlank)
  refine ⟨s.takeWhile isBlank, behind, ?_, fun c hc => List.mem_takeWhile_imp hc, hbehind⟩
  rw [trim, trimEnd, ← hs, List.takeWhile_append_dropWhile]

theorem tokens_trim (s : List Char) : tokens (trim s) = tokens s := by
  obtain ⟨before, behind, hs, hbefore, hbehind⟩ := exists_trim s
  conv_rhs => rw [hs]
  rw [tokens_blank_append hbefore, tokens_append_blank hbehind]

theorem trim_eq_nil_iff : trim s = [] ↔ IsBlank s := by
  constructor
  · intro h
    rw [← tokens_eq_nil_iff, ← tokens_trim, h, tokens_nil]
  · intro h
    have : s.dropWhile isBlank = [] := List.dropWhile_eq_nil_iff.mpr h
    simp [trim, trimEnd, dropEndWhile, this]

theorem dropWhile_word_append (h : IsWord word) :
    (word ++ rest).dropWhile isBlank = word ++ rest := by
  obtain ⟨c, word, rfl⟩ := List.exists_cons_of_ne_nil h.ne_nil
  simp [h.not_blank c (by simp)]

theorem dropWhile_word (h : IsWord word) : word.dropWhile isBlank = word := by
  rw [← List.append_nil word, dropWhile_word_append h]

theorem trim_eq_word_iff (h : IsWord word) : trim s = word ↔ tokens s = [word] := by
  constructor
  · rintro rfl
    rw [← tokens_trim, tokens_word h]
  · intro hs
    obtain ⟨hblanks, -, hend, hrest⟩ | _ := tokens_eq_iff.mp hs
    next blanks rest hblanks _ _ hrest =>
    have hrest : IsBlank rest := tokens_eq_nil_iff.mp (tokens_of_words hrest)
    rw [trim, trimEnd, List.append_assoc, List.dropWhile_append_of_pos hblanks,
      dropWhile_word_append h, dropEndWhile_append_of_forall hrest, dropEndWhile, dropWhile_word h.reverse,
      List.reverse_reverse]

theorem toUpper_of_blank (h : isBlank c = true) : c.toUpper = c := by
  have hlower : ¬ ('a'.val ≤ c.val ∧ c.val ≤ 'z'.val) := by
    rintro ⟨ha, hz⟩
    simp only [isBlank, Bool.or_eq_true, Bool.and_eq_true, decide_eq_true_eq, beq_iff_eq,
      Char.le_def, Char.ext_iff, UInt32.le_iff_toNat_le, ← UInt32.toNat_inj] at h ha hz
    simp only [Char.reduceVal, UInt32.reduceToNat] at h ha hz
    omega
  exact dif_neg hlower

/-- Upper case makes no blank of a letter, so a text in upper case is a word if and only if the text is one. -/
theorem isWord_of_map_toUpper (h : IsWord (s.map Char.toUpper)) : IsWord s := by
  refine ⟨by simpa using h.ne_nil, fun c hc => ?_⟩
  by_contra hblank
  rw [Bool.not_eq_false] at hblank
  have hupper := h.not_blank c.toUpper (List.mem_map_of_mem hc)
  rw [toUpper_of_blank hblank, hblank] at hupper
  cases hupper

namespace Numeral

variable {n value : Nat} {digits : List Char}

/-- Whether a text is a numeral of a given value. -/
def IsNumeral (s : List Char) (n : Nat) : Prop :=
  ∃ digits, (s = digits ∨ s = '+' :: digits) ∧ digits ≠ [] ∧ (∀ c ∈ digits, c.isDigit = true) ∧
    Nat.ofDigitChars 10 digits 0 = n ∧ n < 2 ^ 64

/-- The digits read so far only add to the value, so only the last value has to be compared with the limit. -/
theorem le_ofDigitChars : value ≤ Nat.ofDigitChars 10 digits value := by
  rw [Nat.ofDigitChars_eq_ofDigitChars_zero]
  have := Nat.le_mul_of_pos_left value (Nat.pow_pos (n := digits.length) (show 0 < 10 by omega))
  omega

theorem readDigits_eq_ok_iff :
    readDigits value digits = .ok n ↔ (∀ c ∈ digits, c.isDigit = true) ∧
      Nat.ofDigitChars 10 digits value = n ∧ (digits ≠ [] → n < limit) := by
  induction digits generalizing value with
  | nil => simp [readDigits]
  | cons c digits ih =>
    rw [readDigits, digit?, Nat.ofDigitChars_cons]
    by_cases hc : c.isDigit = true
    · simp only [hc, ↓reduceIte, List.mem_cons, forall_eq_or_imp, true_and, ne_eq, reduceCtorEq,
        not_false_eq_true, forall_const]
      split
      · next hlt =>
        rw [ih]
        refine and_congr_right fun _ => and_congr_right fun hn => ?_
        refine ⟨fun h => ?_, fun h _ => h⟩
        by_cases hnil : digits = []
        · subst hnil
          rw [← hn]
          exact hlt
        · exact h hnil
      · next hge =>
        simp only [reduceCtorEq, false_iff, not_and, not_lt]
        rintro _ rfl
        exact (Nat.not_lt.mp hge).trans le_ofDigitChars
    · simp [hc]

/-- Reading accepts the numerals, with their values. -/
theorem read_eq_ok_iff : read s = .ok n ↔ IsNumeral s n := by
  have hplus : ¬ ('+').isDigit = true := by decide
  constructor
  · intro h
    unfold read at h
    split at h
    · cases h
    · cases h
    · next digits hne =>
      obtain ⟨hdigits, hvalue, hlt⟩ := readDigits_eq_ok_iff.mp h
      have hnil : digits ≠ [] := fun he => hne (by rw [he])
      exact ⟨digits, .inr rfl, hnil, hdigits, hvalue, hlt hnil⟩
    · next hnil _ _ =>
      obtain ⟨hdigits, hvalue, hlt⟩ := readDigits_eq_ok_iff.mp h
      exact ⟨s, .inl rfl, hnil, hdigits, hvalue, hlt hnil⟩
  · rintro ⟨digits, hs, hnil, hdigits, hvalue, hlt⟩
    have hok : readDigits 0 digits = .ok n :=
      readDigits_eq_ok_iff.mpr ⟨hdigits, hvalue, fun _ => hlt⟩
    obtain ⟨c, rest, rfl⟩ := List.exists_cons_of_ne_nil hnil
    rcases hs with rfl | rfl
    · have hc : c ≠ '+' := fun he => hplus (he ▸ hdigits c (by simp))
      unfold read
      split <;> simp_all
    · exact hok

theorem read?_eq_some_iff : read? s = some n ↔ IsNumeral s n := by
  rw [← read_eq_ok_iff, read?]
  cases read s <;> simp [Except.toOption]

theorem not_isBlank_of_isDigit {c : Char} (h : c.isDigit = true) : isBlank c = false := by
  rw [Char.isDigit, Bool.and_eq_true, decide_eq_true_eq, decide_eq_true_eq, ge_iff_le] at h
  rw [Bool.eq_false_iff]
  intro hblank
  simp only [isBlank, Bool.or_eq_true, Bool.and_eq_true, decide_eq_true_eq, beq_iff_eq,
    Char.le_def, Char.ext_iff, UInt32.le_iff_toNat_le, ← UInt32.toNat_inj] at hblank h
  simp only [Char.reduceVal, UInt32.reduceToNat] at hblank h
  omega

theorem isWord_toDigits (n : Nat) : IsWord (Nat.toDigits 10 n) :=
  ⟨Nat.toDigits_ne_nil, fun _ hc =>
    not_isBlank_of_isDigit (Nat.isDigit_of_mem_toDigits (by omega) (by omega) hc)⟩

/-- A number that fits into 64 bits, written in decimal digits, is a numeral of itself. -/
theorem isNumeral_toDigits (h : n < 2 ^ 64) : IsNumeral (Nat.toDigits 10 n) n :=
  ⟨_, .inl rfl, Nat.toDigits_ne_nil,
    fun _ hc => Nat.isDigit_of_mem_toDigits (by omega) (by omega) hc,
    Nat.ofDigitChars_ten_toDigits, h⟩

end Numeral

end FiniteAutomata.Text
