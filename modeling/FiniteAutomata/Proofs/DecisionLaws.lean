import FiniteAutomata.Proofs.RegularLaws

/-!
# Decisions about composed automata

Whether a union, a concatenation, a star or a plus has an empty or an infinite language follows from the answers for
its operands: no determinization of a composed automaton adds or hides a cycle that counts. Both decisions
answer from the language alone (`Dfa.WellFormed.decides_iff`), so what remains is when unions, products and
stars of languages are empty and when they are infinite.
-/
namespace FiniteAutomata

open Computability

section Languages

variable {K L : Language Char}

theorem exists_mem_add_iff : (∃ w, w ∈ K + L) ↔ (∃ w, w ∈ K) ∨ ∃ w, w ∈ L := by
  simp only [Language.mem_add, exists_or]

theorem exists_mem_mul_iff : (∃ w, w ∈ K * L) ↔ (∃ w, w ∈ K) ∧ ∃ w, w ∈ L := by
  constructor
  · rintro ⟨_, u, hu, v, hv, rfl⟩
    exact ⟨⟨u, hu⟩, v, hv⟩
  · rintro ⟨⟨u, hu⟩, v, hv⟩
    exact ⟨u ++ v, Language.append_mem_mul hu hv⟩

theorem infinite_add_iff :
    Set.Infinite (K + L : Language Char) ↔ Set.Infinite K ∨ Set.Infinite L := Set.infinite_union

/-- With one factor fixed, different words have different products, so one word of the other factor is enough. -/
theorem infinite_mul_iff : Set.Infinite (K * L : Language Char) ↔
    Set.Infinite K ∧ (∃ w, w ∈ L) ∨ Set.Infinite L ∧ ∃ w, w ∈ K :=
  Set.infinite_image2 (fun _ _ _ _ _ _ h => List.append_cancel_right h)
    fun _ _ _ _ _ _ h => List.append_cancel_left h

theorem infinite_kstar_iff : Set.Infinite (L∗ : Language Char) ↔ ∃ w, w ≠ [] ∧ w ∈ L := by
  constructor
  · intro hinfinite
    by_contra hnone
    refine hinfinite ((Set.finite_singleton []).subset fun w hw => ?_)
    obtain ⟨words, rfl, hwords⟩ := Language.mem_kstar.mp hw
    refine List.flatten_eq_nil_iff.mpr fun v hv => ?_
    by_contra hne
    exact hnone ⟨v, hne, hwords v hv⟩
  · rintro ⟨w, hne, hw⟩ hfinite
    obtain ⟨bound, hbound⟩ := (hfinite.image List.length).bddAbove
    have hpower : (List.replicate (bound + 1) w).flatten ∈ L∗ :=
      Language.join_mem_kstar fun v hv => List.eq_of_mem_replicate hv ▸ hw
    have hle := hbound (Set.mem_image_of_mem List.length hpower)
    have hpos := List.length_pos_iff.mpr hne
    have hmul := Nat.le_mul_of_pos_right (bound + 1) hpos
    simp only [List.length_flatten, List.map_replicate, List.sum_replicate_nat] at hle
    omega

theorem infinite_mul_kstar_iff :
    Set.Infinite (L * L∗ : Language Char) ↔ ∃ w, w ≠ [] ∧ w ∈ L := by
  rw [infinite_mul_iff, infinite_kstar_iff]
  constructor
  · rintro (⟨hinfinite, -⟩ | ⟨hword, -⟩)
    · obtain ⟨w, hw, hne⟩ := hinfinite.exists_notMem_finite (Set.finite_singleton [])
      exact ⟨w, hne, hw⟩
    · exact hword
  · rintro ⟨w, hne, hw⟩
    exact .inr ⟨⟨w, hne, hw⟩, w, hw⟩

end Languages

namespace Dfa

variable {a b d : Dfa} {empty infinite emptyA infiniteA emptyB infiniteB : Bool}

/-- The answers of the two decisions. -/
structure Decides (d : Dfa) (empty infinite : Bool) : Prop where
  isLanguageEmpty? : d.isLanguageEmpty? = some empty
  isLanguageInfinite? : d.isLanguageInfinite? = some infinite

/-- An automaton has one answer to each decision. -/
theorem Decides.unique {empty' infinite' : Bool} (h : d.Decides empty infinite)
    (h' : d.Decides empty' infinite') : empty = empty' ∧ infinite = infinite' := by
  obtain ⟨hempty, hinfinite⟩ := h
  obtain ⟨hempty', hinfinite'⟩ := h'
  rw [hempty, Option.some_inj] at hempty'
  rw [hinfinite, Option.some_inj] at hinfinite'
  exact ⟨hempty', hinfinite'⟩

namespace WellFormed

/-- Both decisions answer, and they answer what is true of the language. -/
theorem decides_iff (h : d.WellFormed) : d.Decides empty infinite ↔
    (empty = true ↔ ¬ ∃ w, w ∈ d.language) ∧ (infinite = true ↔ Set.Infinite d.language) := by
  obtain ⟨empty', hempty, hiff⟩ := h.isLanguageEmpty?_eq
  obtain ⟨infinite', hinfinite, hiff'⟩ := h.isLanguageInfinite?_eq
  rw [← not_exists] at hiff
  rw [h.hasUsefulCycle_iff] at hiff'
  rw [← hiff, ← hiff', ← Bool.eq_iff_iff, ← Bool.eq_iff_iff]
  constructor
  · intro hd
    exact hd.unique ⟨hempty, hinfinite⟩
  · rintro ⟨rfl, rfl⟩
    exact ⟨hempty, hinfinite⟩

theorem exists_decides (h : d.WellFormed) : ∃ empty infinite, d.Decides empty infinite := by
  obtain ⟨empty, hempty, -⟩ := h.isLanguageEmpty?_eq
  obtain ⟨infinite, hinfinite, -⟩ := h.isLanguageInfinite?_eq
  exact ⟨empty, infinite, hempty, hinfinite⟩

/-- A word that is as long as the number of states settles both decisions if it is accepted. -/
theorem decides_of_long {w : Word} (h : d.WellFormed) (hword : d.recognize? w = some true)
    (hlen : d.numStates ≤ w.length) : d.Decides false true := by
  have hword := h.recognize?_eq_true_iff.mp hword
  refine h.decides_iff.mpr ⟨?_, ?_⟩
  · simpa using ⟨w, hword⟩
  · simpa using h.hasUsefulCycle_iff.mp (h.hasUsefulCycle_of_long hword hlen)

theorem decides_union (ha : a.WellFormed) (hb : b.WellFormed) (hda : a.Decides emptyA infiniteA)
    (hdb : b.Decides emptyB infiniteB) :
    ∃ c, a.union? b = some c ∧ c.Decides (emptyA && emptyB) (infiniteA || infiniteB) := by
  obtain ⟨c, hc, hwf, hlang⟩ := ha.exists_union? hb
  obtain ⟨hemptyA, hinfiniteA⟩ := ha.decides_iff.mp hda
  obtain ⟨hemptyB, hinfiniteB⟩ := hb.decides_iff.mp hdb
  refine ⟨c, hc, hwf.decides_iff.mpr ⟨?_, ?_⟩⟩
  · rw [hlang, Bool.and_eq_true, hemptyA, hemptyB, exists_mem_add_iff, not_or]
  · rw [hlang, Bool.or_eq_true, hinfiniteA, hinfiniteB, infinite_add_iff]

theorem decides_concat (ha : a.WellFormed) (hb : b.WellFormed) (hda : a.Decides emptyA infiniteA)
    (hdb : b.Decides emptyB infiniteB) :
    ∃ c, a.concat? b = some c ∧
      c.Decides (emptyA || emptyB) (infiniteA && !emptyB || infiniteB && !emptyA) := by
  obtain ⟨c, hc, hwf, hlang⟩ := ha.exists_concat? hb
  obtain ⟨hemptyA, hinfiniteA⟩ := ha.decides_iff.mp hda
  obtain ⟨hemptyB, hinfiniteB⟩ := hb.decides_iff.mp hdb
  refine ⟨c, hc, hwf.decides_iff.mpr ⟨?_, ?_⟩⟩
  · rw [hlang, Bool.or_eq_true, hemptyA, hemptyB, exists_mem_mul_iff, not_and_or]
  · have hsome {empty : Bool} {L : Language Char} (h : empty = true ↔ ¬ ∃ w, w ∈ L) :
        (!empty) = true ↔ ∃ w, w ∈ L := by
      rw [Bool.not_eq_true', ← Bool.not_eq_true, h, not_not]
    rw [hlang, infinite_mul_iff, Bool.or_eq_true, Bool.and_eq_true, Bool.and_eq_true, hinfiniteA,
      hinfiniteB, hsome hemptyA, hsome hemptyB]

theorem decides_star (ha : a.WellFormed) : ∃ c infinite, a.star? = some c ∧ c.Decides false infinite ∧
    (infinite = true ↔ ∃ w, w ≠ [] ∧ a.recognize? w = some true) := by
  obtain ⟨c, hc, hwf, hlang⟩ := ha.exists_star?
  obtain ⟨empty, infinite, hdc⟩ := hwf.exists_decides
  obtain ⟨hempty, hinfinite⟩ := hwf.decides_iff.mp hdc
  rw [hlang] at hempty hinfinite
  have hnil : ∃ w, w ∈ a.language∗ := ⟨[], Language.nil_mem_kstar _⟩
  obtain rfl : empty = false := Bool.eq_false_iff.mpr fun h => hempty.mp h hnil
  refine ⟨c, infinite, hc, hdc, ?_⟩
  simp only [hinfinite, infinite_kstar_iff, ha.recognize?_eq_true_iff]

theorem decides_plus (ha : a.WellFormed) (hda : a.Decides emptyA infiniteA) :
    ∃ c infinite, a.plus? = some c ∧ c.Decides emptyA infinite ∧
      (infinite = true ↔ ∃ w, w ≠ [] ∧ a.recognize? w = some true) := by
  obtain ⟨c, hc, hwf, hlang⟩ := ha.exists_plus?
  obtain ⟨empty, infinite, hdc⟩ := hwf.exists_decides
  obtain ⟨hempty, hinfinite⟩ := hwf.decides_iff.mp hdc
  rw [hlang] at hempty hinfinite
  have hnil : ∃ w, w ∈ a.language∗ := ⟨[], Language.nil_mem_kstar _⟩
  rw [exists_mem_mul_iff, and_iff_left hnil, ← (ha.decides_iff.mp hda).1] at hempty
  obtain rfl : empty = emptyA := Bool.eq_iff_iff.mpr hempty
  refine ⟨c, infinite, hc, hdc, ?_⟩
  simp only [hinfinite, infinite_mul_kstar_iff, ha.recognize?_eq_true_iff]

end WellFormed

/-- The decisions about a composed automaton are those about its operands, taken together. -/
theorem Constructible.decides_operations (ha : a.Constructible) (hb : b.Constructible) :
    ∃ emptyA infiniteA emptyB infiniteB, a.Decides emptyA infiniteA ∧ b.Decides emptyB infiniteB ∧
      (∃ c, a.union? b = some c ∧ c.Decides (emptyA && emptyB) (infiniteA || infiniteB)) ∧
      (∃ c, a.concat? b = some c ∧
        c.Decides (emptyA || emptyB) (infiniteA && !emptyB || infiniteB && !emptyA)) ∧
      (∃ c infinite, a.star? = some c ∧ c.Decides false infinite ∧
        (infinite = true ↔ ∃ w, w ≠ [] ∧ a.recognize? w = some true)) ∧
      ∃ c infinite, a.plus? = some c ∧ c.Decides emptyA infinite ∧
        (infinite = true ↔ ∃ w, w ≠ [] ∧ a.recognize? w = some true) := by
  have hwfa := ha.wellFormed
  have hwfb := hb.wellFormed
  obtain ⟨emptyA, infiniteA, hda⟩ := hwfa.exists_decides
  obtain ⟨emptyB, infiniteB, hdb⟩ := hwfb.exists_decides
  exact ⟨emptyA, infiniteA, emptyB, infiniteB, hda, hdb, hwfa.decides_union hwfb hda hdb,
    hwfa.decides_concat hwfb hda hdb, hwfa.decides_star, hwfa.decides_plus hda⟩

theorem decides_operations_evenAs_oddBs : evenAs.Constructible ∧ oddBs.Constructible ∧
    (∃ c, evenAs.union? oddBs = some c ∧ c.Decides false true) ∧
    (∃ c, evenAs.concat? oddBs = some c ∧ c.Decides false true) ∧
    (∃ c, evenAs.star? = some c ∧ c.Decides false true) ∧
    ∃ c, evenAs.plus? = some c ∧ c.Decides false true := by
  have heven : evenAs.Decides false true :=
    constructible_evenAs.wellFormed.decides_of_long (w := ['a', 'a']) (by decide) (by decide)
  have hodd : oddBs.Decides false true :=
    constructible_oddBs.wellFormed.decides_of_long (w := ['b', 'b', 'b']) (by decide) (by decide)
  have hword : ∃ w, w ≠ [] ∧ evenAs.recognize? w = some true := ⟨['a', 'a'], by decide, by decide⟩
  obtain ⟨emptyA, infiniteA, emptyB, infiniteB, hda, hdb, hunion, hconcat,
    ⟨c, infinite, hc, hstar, hiff⟩, d, infinite', hd, hplus, hiff'⟩ :=
    Constructible.decides_operations constructible_evenAs constructible_oddBs
  obtain ⟨rfl, rfl⟩ := hda.unique heven
  obtain ⟨rfl, rfl⟩ := hdb.unique hodd
  obtain rfl := hiff.mpr hword
  obtain rfl := hiff'.mpr hword
  exact ⟨constructible_evenAs, constructible_oddBs, hunion, hconcat, ⟨c, hc, hstar⟩, d, hd, hplus⟩

end Dfa

end FiniteAutomata
