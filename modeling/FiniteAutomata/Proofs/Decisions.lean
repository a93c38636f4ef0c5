import FiniteAutomata.Dfa.Decision
import FiniteAutomata.Proofs.Constructible
import FiniteAutomata.Proofs.Transposition
import Mathlib.Computability.DFA
import Mathlib.Data.Set.Finite.List

/-!
# Emptiness and infiniteness

Paths in the graph of a well-formed automaton are runs, so the searches answer questions about words. The language is
empty if and only if no run from the start is accepted, and infinite if and only if some accepted run goes through
a cycle. A run as long as the number of states has one. Cycles can be cut out, so the words that are shorter than the
number of states tell whether the language is empty. A cycle can also be run through any number of times, so infiniteness
is the same as having words of any length, and as having one of a length between the number of states and twice that
number.
-/
namespace FiniteAutomata.Dfa

open Search

variable {d : Dfa} {s t v w : Nat} {word : Word}

@[simp] theorem size_graph : d.graph.size = d.numStates := by simp [graph, Digraph.size, numStates]

theorem mem_next_graph : w ∈ d.graph.next v ↔ ∃ row, d.rows[v]? = some row ∧ w ∈ row := by
  simp only [Digraph.next, graph, Array.getElem?_map]
  cases d.rows[v]? with
  | none => simp [show (∅ : SortedSet Nat).toList = [] from rfl]
  | some row => simp [← SortedSet.mem_def]

namespace WellFormed

theorem mem_next_graph_iff (h : d.WellFormed) :
    w ∈ d.graph.next v ↔ ∃ c, d.transition? v c = some w := by
  simp only [mem_next_graph, transition?_eq_some_iff]
  constructor
  · rintro ⟨row, hrow, hw⟩
    obtain ⟨i, hi⟩ := Array.mem_iff_getElem?.mp hw
    have hlt : i < d.alphabet.toList.length := by
      have hsize := h.row_size row (Array.mem_of_getElem? hrow)
      have := (Array.getElem?_eq_some_iff.mp hi).1
      rw [hsize] at this
      exact this
    exact ⟨_, row, i, hrow, Alphabet.indexOf?_eq_some_iff.mpr (List.getElem?_eq_getElem hlt), hi⟩
  · rintro ⟨c, row, i, hrow, -, hi⟩
    exact ⟨row, hrow, Array.mem_of_getElem? hi⟩

theorem closed_graph (h : d.WellFormed) : d.graph.Closed := by
  intro v _ w hw
  obtain ⟨c, hc⟩ := h.mem_next_graph_iff.mp hw
  rw [size_graph]
  exact h.target_lt hc

theorem reaches_graph_iff (h : d.WellFormed) :
    Reaches d.graph.next v w ↔ ∃ word, Run d.Moves v word w := by
  constructor
  · intro hpath
    induction hpath with
    | refl => exact ⟨[], .refl v⟩
    | tail _ hedge ih =>
      obtain ⟨word, hrun⟩ := ih
      obtain ⟨c, hc⟩ := h.mem_next_graph_iff.mp hedge
      exact ⟨word ++ [c], hrun.append (.read (moves_some.mpr hc) (.refl _))⟩
  · rintro ⟨word, hrun⟩
    induction hrun with
    | refl s => exact .refl s
    | silent hmove => exact absurd hmove not_moves_none
    | read hmove _ ih =>
      exact (Reaches.edge (h.mem_next_graph_iff.mpr ⟨_, moves_some.mp hmove⟩)).trans ih

theorem cycle_graph_iff (h : d.WellFormed) :
    Relation.TransGen (fun a b => b ∈ d.graph.next a) v v ↔
      ∃ word, word ≠ [] ∧ Run d.Moves v word v := by
  rw [Relation.TransGen.head'_iff]
  constructor
  · rintro ⟨w, hedge, hpath⟩
    obtain ⟨c, hc⟩ := h.mem_next_graph_iff.mp hedge
    obtain ⟨word, hrun⟩ := h.reaches_graph_iff.mp hpath
    exact ⟨c :: word, by simp, .read (moves_some.mpr hc) hrun⟩
  · rintro ⟨word, hne, hrun⟩
    obtain ⟨c, word, rfl⟩ := List.exists_cons_of_ne_nil hne
    obtain ⟨w, hc, hrest⟩ := run_cons_iff.mp hrun
    exact ⟨w, h.mem_next_graph_iff.mpr ⟨c, hc⟩, h.reaches_graph_iff.mpr ⟨word, hrest⟩⟩

theorem exists_reachable? (h : d.WellFormed) :
    ∃ reached, d.graph.reachable? d.start = some reached ∧
      ∀ v, v ∈ reached ↔ ∃ word, Run d.Moves d.start word v := by
  have hstart : d.start < d.graph.size := by simpa using h.start_lt
  obtain ⟨reached, hreached, hmem⟩ := h.closed_graph.exists_reachable? hstart
  exact ⟨reached, hreached, fun v => (hmem v).trans h.reaches_graph_iff⟩

/-- The emptiness decision answers, and it answers yes exactly if no word is accepted. -/
theorem isLanguageEmpty?_eq (h : d.WellFormed) :
    ∃ empty, d.isLanguageEmpty? = some empty ∧ (empty = true ↔ ∀ word, word ∉ d.language) := by
  obtain ⟨reached, hreached, hmem⟩ := h.exists_reachable?
  refine ⟨_, by rw [isLanguageEmpty?, hreached]; rfl, ?_⟩
  rw [List.all_eq_true]
  constructor
  · rintro hall word ⟨t, hacc, hrun⟩
    have ht := hall t ((hmem t).mpr ⟨word, hrun⟩)
    simp [hacc] at ht
  · intro hnone t ht
    obtain ⟨word, hrun⟩ := (hmem t).mp ht
    rw [Bool.not_eq_true', Bool.eq_false_iff]
    exact fun hacc => hnone word ⟨t, hacc, hrun⟩

end WellFormed

/-- Some run from the start to an accepting state goes through a cycle. -/
def HasUsefulCycle (d : Dfa) : Prop :=
  ∃ s f x y z, Run d.Moves d.start x s ∧ y ≠ [] ∧ Run d.Moves s y s ∧ Run d.Moves s z f ∧
    d.isAccepting f = true

theorem mem_acceptingStates : s ∈ d.acceptingStates ↔ d.isAccepting s = true := by
  simp only [acceptingStates, List.mem_filter, List.mem_range, and_iff_right_iff_imp, isAccepting]
  intro h
  by_contra hs
  rw [Array.getElem?_eq_none (by omega)] at h
  simp at h

namespace WellFormed

theorem exists_reachableFrom? (h : d.WellFormed) :
    ∃ reversed reached, d.graph.transpose? = some reversed ∧
      reversed.reachableFrom? d.acceptingStates = some reached ∧
      ∀ v, v ∈ reached ↔ ∃ f word, d.isAccepting f = true ∧ Run d.Moves v word f := by
  obtain ⟨reversed, hreversed, htranspose⟩ := h.closed_graph.exists_transpose?
  have hsources : ∀ f ∈ d.acceptingStates, f < reversed.size := by
    intro f hf
    rw [htranspose.size_eq, size_graph]
    exact h.lt_of_isAccepting (mem_acceptingStates.mp hf)
  obtain ⟨reached, hreached, hmem⟩ := htranspose.closed.exists_reachableFrom? hsources
  refine ⟨reversed, reached, hreversed, hreached, fun v => ?_⟩
  have hback (f : Nat) : Reaches reversed.next f v ↔ Reaches d.graph.next v f := htranspose.reaches_iff
  rw [hmem]
  constructor
  · rintro ⟨f, hf, hpath⟩
    obtain ⟨word, hrun⟩ := h.reaches_graph_iff.mp ((hback f).mp hpath)
    exact ⟨f, word, mem_acceptingStates.mp hf, hrun⟩
  · rintro ⟨f, word, hf, hrun⟩
    exact ⟨f, mem_acceptingStates.mpr hf, (hback f).mpr (h.reaches_graph_iff.mpr ⟨word, hrun⟩)⟩

/-- The infiniteness decision answers, and it finds the cycles that accepted runs go through. -/
theorem isLanguageInfinite?_eq (h : d.WellFormed) :
    ∃ infinite, d.isLanguageInfinite? = some infinite ∧ (infinite = true ↔ d.HasUsefulCycle) := by
  obtain ⟨fromStart, hfrom, hmemfrom⟩ := h.exists_reachable?
  obtain ⟨reversed, toAccepting, hreversed, hto, hmemto⟩ := h.exists_reachableFrom?
  obtain ⟨c, hc, hcyclic⟩ := Components.isCyclic?_eq h.closed_graph
  have hanswer : ∀ v ∈ (fromStart.inter toAccepting).toList, ∃ cyclic,
      c.isCyclic? d.graph v = some cyclic ∧
        (cyclic = true ↔ ∃ word, word ≠ [] ∧ Run d.Moves v word v) := by
    intro v hv
    obtain ⟨word, hrun⟩ := (hmemfrom v).mp (SortedSet.mem_inter.mp hv).1
    obtain ⟨cyclic, hv, hiff⟩ := hcyclic v (by rw [size_graph]; exact h.lt_of_run h.start_lt hrun)
    exact ⟨cyclic, hv, hiff.trans h.cycle_graph_iff⟩
  have hall : (fromStart.inter toAccepting).toList.mapM (c.isCyclic? d.graph) =
      some ((fromStart.inter toAccepting).toList.map fun v => (c.isCyclic? d.graph v).getD false) := by
    refine mapM_eq_some_map fun v hv => ?_
    obtain ⟨cyclic, hv, -⟩ := hanswer v hv
    rw [hv, Option.getD_some]
  have heq : d.isLanguageInfinite? = some ((fromStart.inter toAccepting).toList.any fun v =>
      (c.isCyclic? d.graph v).getD false) := by
    rw [isLanguageInfinite?, hfrom, hreversed]
    simp [hto, hc, hall]
  refine ⟨_, heq, ?_⟩
  rw [List.any_eq_true]
  constructor
  · rintro ⟨v, hv, hcyc⟩
    obtain ⟨cyclic, hget, hiff⟩ := hanswer v hv
    obtain ⟨hvfrom, hvto⟩ := SortedSet.mem_inter.mp hv
    obtain ⟨x, hx⟩ := (hmemfrom v).mp hvfrom
    obtain ⟨f, z, hf, hz⟩ := (hmemto v).mp hvto
    rw [hget, Option.getD_some] at hcyc
    obtain ⟨y, hne, hy⟩ := hiff.mp hcyc
    exact ⟨v, f, x, y, z, hx, hne, hy, hz, hf⟩
  · rintro ⟨v, f, x, y, z, hx, hne, hy, hz, hf⟩
    have hv : v ∈ fromStart.inter toAccepting :=
      SortedSet.mem_inter.mpr ⟨(hmemfrom v).mpr ⟨x, hx⟩, (hmemto v).mpr ⟨f, z, hf, hz⟩⟩
    obtain ⟨cyclic, hget, hiff⟩ := hanswer v hv
    exact ⟨v, hv, by rw [hget, Option.getD_some, hiff]; exact ⟨y, hne, hy⟩⟩

end WellFormed

section Pumping

theorem run_replicate {y : Word} (hrun : Run d.Moves s y s) (k : Nat) :
    Run d.Moves s (List.replicate k y).flatten s := by
  induction k with
  | zero => exact .refl s
  | succ k ih =>
    rw [List.replicate_succ, List.flatten_cons]
    exact hrun.append ih

/-- A cycle on an accepted run can be run through any number of times. -/
theorem HasUsefulCycle.exists_long (h : d.HasUsefulCycle) (k : Nat) :
    ∃ word ∈ d.language, k ≤ word.length := by
  obtain ⟨s, f, x, y, z, hx, hne, hy, hz, hf⟩ := h
  refine ⟨x ++ ((List.replicate k y).flatten ++ z),
    ⟨f, hf, hx.append ((run_replicate hy k).append hz)⟩, ?_⟩
  have hpos := List.length_pos_iff.mpr hne
  have hle : k ≤ k * y.length := Nat.le_mul_of_pos_right k hpos
  simp only [List.length_append, List.length_flatten, List.map_replicate, List.sum_replicate_nat]
  omega

/-- The automaton as one of the library, on the states and symbols that it has. -/
def toDFA (d : Dfa) (h : d.WellFormed) : DFA {c // c ∈ d.alphabet} (Fin d.numStates) where
  step s c := ⟨(d.transition? s c).getD 0, by
    obtain ⟨t, ht, hlt⟩ := h.exists_transition s.2 c.2
    rwa [ht]⟩
  start := ⟨d.start, h.start_lt⟩
  accept := {s | d.isAccepting s = true}

theorem evalFrom_toDFA (h : d.WellFormed) {s t : Fin d.numStates} {word : List {c // c ∈ d.alphabet}} :
    (d.toDFA h).evalFrom s word = t ↔ Run d.Moves s (word.map (·.1)) t := by
  induction word generalizing s with
  | nil => rw [DFA.evalFrom_nil, List.map_nil, run_nil_iff, Fin.ext_iff, eq_comm]
  | cons c word ih =>
    obtain ⟨t', ht, hlt⟩ := h.exists_transition s.2 c.2
    have hstep : (d.toDFA h).step s c = ⟨t', hlt⟩ := Fin.ext (by simp [toDFA, ht])
    rw [DFA.evalFrom_cons, ih, List.map_cons, run_cons_iff, hstep]
    simp [ht]

/-- A run that is as long as the number of states comes through some state twice, the second time within that
length. -/
theorem WellFormed.exists_cycle (h : d.WellFormed) (hs : s < d.numStates)
    (hrun : Run d.Moves s word t) (hlen : d.numStates ≤ word.length) :
    ∃ q x y z, word = x ++ y ++ z ∧ x.length + y.length ≤ d.numStates ∧ y ≠ [] ∧
      Run d.Moves s x q ∧ Run d.Moves q y q ∧ Run d.Moves q z t := by
  have hword : ∀ c ∈ word, c ∈ d.alphabet := mem_alphabet_of_run hrun
  lift word to List {c // c ∈ d.alphabet} using hword
  rw [List.length_map] at hlen
  have heval := (evalFrom_toDFA h (s := ⟨s, hs⟩) (t := ⟨t, h.lt_of_run hs hrun⟩)).mpr hrun
  obtain ⟨q, x, y, z, rfl, hle, hne, hx, hy, hz⟩ :=
    (d.toDFA h).evalFrom_split (by rwa [Fintype.card_fin]) heval
  rw [Fintype.card_fin] at hle
  rw [evalFrom_toDFA] at hx hy hz
  exact ⟨q, x.map (·.1), y.map (·.1), z.map (·.1), by simp, by simpa using hle,
    fun he => hne (List.map_eq_nil_iff.mp he), hx, hy, hz⟩

/-- A run can be cut at the states that it comes through twice, until it is shorter than the number of states. -/
theorem WellFormed.exists_short_run (h : d.WellFormed) (hs : s < d.numStates)
    (hrun : Run d.Moves s word t) :
    ∃ short : Word, short.length < d.numStates ∧ Run d.Moves s short t := by
  induction hn : word.length using Nat.strong_induction_on generalizing word with
  | _ n ih =>
    by_cases hlt : word.length < d.numStates
    · exact ⟨word, hlt, hrun⟩
    · obtain ⟨q, x, y, z, rfl, -, hne, hx, -, hz⟩ := h.exists_cycle hs hrun (Nat.not_lt.mp hlt)
      have hpos := List.length_pos_iff.mpr hne
      have hcut : (x ++ z).length < n := by
        simp only [List.length_append] at hn ⊢
        omega
      exact ih _ hcut (hx.append hz) rfl

theorem WellFormed.hasUsefulCycle_of_long (h : d.WellFormed) (hword : word ∈ d.language)
    (hlen : d.numStates ≤ word.length) : d.HasUsefulCycle := by
  obtain ⟨f, hf, hrun⟩ := hword
  obtain ⟨q, x, y, z, -, -, hne, hx, hy, hz⟩ := h.exists_cycle h.start_lt hrun hlen
  exact ⟨q, f, x, y, z, hx, hne, hy, hz, hf⟩

/-- The shortest of the words that are at least as long as the number of states is shorter than twice that,
since it could be shortened by a cycle otherwise. -/
theorem WellFormed.exists_length_lt (h : d.WellFormed) (hword : word ∈ d.language)
    (hlen : d.numStates ≤ word.length) :
    ∃ short ∈ d.language, d.numStates ≤ short.length ∧ short.length < 2 * d.numStates := by
  induction hn : word.length using Nat.strong_induction_on generalizing word with
  | _ n ih =>
    by_cases hlt : word.length < 2 * d.numStates
    · exact ⟨word, hword, hlen, hlt⟩
    · obtain ⟨f, hf, hrun⟩ := hword
      obtain ⟨q, x, y, z, rfl, hle, hne, hx, -, hz⟩ := h.exists_cycle h.start_lt hrun hlen
      have hpos := List.length_pos_iff.mpr hne
      simp only [List.length_append] at hlen hlt hn
      -- What is cut out is at most as long as the number of states, so enough is left.
      exact ih (x ++ z).length (by rw [List.length_append]; omega) ⟨f, hf, hx.append hz⟩
        (by rw [List.length_append]; omega) rfl

instance finiteChar : Finite Char := .of_injective Char.ordinal fun _ _ => Char.ordinal_inj.mp

/-- There are only finitely many words below any length, so an infinite language has words above it. -/
theorem WellFormed.hasUsefulCycle_iff (h : d.WellFormed) :
    d.HasUsefulCycle ↔ Set.Infinite d.language := by
  constructor
  · intro hcycle hfinite
    obtain ⟨bound, hbound⟩ := (hfinite.image List.length).bddAbove
    obtain ⟨word, hword, hlen⟩ := hcycle.exists_long (bound + 1)
    have hle := hbound (Set.mem_image_of_mem List.length hword)
    omega
  · intro hinfinite
    by_contra hcycle
    refine hinfinite ((List.finite_length_lt Char d.numStates).subset fun word hword => ?_)
    by_contra hlen
    exact hcycle (h.hasUsefulCycle_of_long hword (Nat.not_lt.mp hlen))

end Pumping

/-- The emptiness decision answers. It answers yes exactly if every word is rejected, and exactly if all words
that are shorter than the number of states are. -/
theorem Constructible.isLanguageEmpty?_iff (h : d.Constructible) :
    ∃ empty, d.isLanguageEmpty? = some empty ∧
      (empty = true ↔ ∀ word, d.recognize? word = some false) ∧
      (empty = true ↔ ∀ word : Word, word.length < d.numStates → d.recognize? word = some false) := by
  have hwf := h.wellFormed
  obtain ⟨empty, hempty, hiff⟩ := hwf.isLanguageEmpty?_eq
  simp only [← hwf.recognize?_eq_false_iff] at hiff
  refine ⟨empty, hempty, hiff, hiff.trans ⟨fun hall word _ => hall word, fun hshort word => ?_⟩⟩
  rw [hwf.recognize?_eq_false_iff]
  rintro ⟨f, hf, hrun⟩
  obtain ⟨short, hlt, hrun⟩ := hwf.exists_short_run hwf.start_lt hrun
  exact hwf.recognize?_eq_false_iff.mp (hshort short hlt) ⟨f, hf, hrun⟩

/-- The infiniteness decision answers. It answers yes exactly if there are accepted words of any length, and exactly
if there is one whose length is at least the number of states and less than twice that. -/
theorem Constructible.isLanguageInfinite?_iff (h : d.Constructible) :
    ∃ infinite, d.isLanguageInfinite? = some infinite ∧
      (infinite = true ↔ ∀ k, ∃ word, k ≤ word.length ∧ d.recognize? word = some true) ∧
      (infinite = true ↔ ∃ word, d.numStates ≤ word.length ∧ word.length < 2 * d.numStates ∧
        d.recognize? word = some true) := by
  have hwf := h.wellFormed
  obtain ⟨infinite, hinfinite, hiff⟩ := hwf.isLanguageInfinite?_eq
  refine ⟨infinite, hinfinite, ?_, ?_⟩
  · rw [hiff]
    constructor
    · intro hcycle k
      obtain ⟨word, hword, hlen⟩ := hcycle.exists_long k
      exact ⟨word, hlen, hwf.recognize?_eq_true_iff.mpr hword⟩
    · intro hlong
      obtain ⟨word, hlen, hword⟩ := hlong d.numStates
      exact hwf.hasUsefulCycle_of_long (hwf.recognize?_eq_true_iff.mp hword) hlen
  · rw [hiff]
    constructor
    · intro hcycle
      obtain ⟨word, hword, hlen⟩ := hcycle.exists_long d.numStates
      obtain ⟨short, hshort, hle, hlt⟩ := hwf.exists_length_lt hword hlen
      exact ⟨short, hle, hlt, hwf.recognize?_eq_true_iff.mpr hshort⟩
    · rintro ⟨word, hlen, -, hword⟩
      exact hwf.hasUsefulCycle_of_long (hwf.recognize?_eq_true_iff.mp hword) hlen

end FiniteAutomata.Dfa

namespace FiniteAutomata

/-- A table for the words with an even number of symbols. -/
def Description.evenAs : Description where
  kind := .dfa
  mode := .strict
  numStates := 2
  alphabet := Alphabet.ofChars ['a']
  start := 0
  accepting := SortedSet.ofList [0]
  transitions := [⟨0, some 'a', 1⟩, ⟨1, some 'a', 0⟩]

theorem Description.parsed_evenAs : evenAs.Parsed :=
  .inl ⟨"DFA\n2\na\n0\n0\n0 a 1\n1 a 0\n", rfl⟩

def Dfa.evenAs : Dfa := .ofTable Description.evenAs.toHeader Description.evenAs.transitions

theorem Dfa.constructible_evenAs : evenAs.Constructible :=
  .ofDescription Description.parsed_evenAs rfl

theorem Dfa.isLanguageEmpty?_evenAs : evenAs.Constructible ∧ evenAs.isLanguageEmpty? = some false := by
  obtain ⟨empty, hempty, hiff, -⟩ := Constructible.isLanguageEmpty?_iff constructible_evenAs
  have hword : evenAs.recognize? [] = some true := by decide
  have hno : ¬ empty = true := by
    rw [hiff]
    intro hall
    rw [hall] at hword
    cases hword
  rw [Bool.not_eq_true] at hno
  exact ⟨constructible_evenAs, hno ▸ hempty⟩

theorem Dfa.isLanguageInfinite?_evenAs : evenAs.Constructible ∧
    evenAs.numStates = 2 ∧ evenAs.recognize? ['a', 'a'] = some true ∧
      ∃ infinite, evenAs.isLanguageInfinite? = some infinite ∧
        (infinite = true ↔ ∀ k, ∃ word, k ≤ word.length ∧ evenAs.recognize? word = some true) ∧
        (infinite = true ↔ ∃ word, evenAs.numStates ≤ word.length ∧
          word.length < 2 * evenAs.numStates ∧ evenAs.recognize? word = some true) :=
  have h : evenAs.Constructible := .ofDescription Description.parsed_evenAs rfl
  ⟨h, by decide, by decide, Dfa.Constructible.isLanguageInfinite?_iff h⟩

end FiniteAutomata
