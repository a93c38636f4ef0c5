import FiniteAutomata.Proofs.Decisions
import FiniteAutomata.Proofs.Renumbering

/-!
# Every access is in range

The operations that fill tables trust the numbers in them: what is added to a state that does not exist is lost, and a
row that is too long loses its end. Each of them has a checked form here, which answers `none` at the first state, row
or symbol that it looks up and that does not exist. On well-formed automata a checked form answers what the operation
does, so that nothing is ever lost. All automata that can be built are well-formed; so no question about them
and no operation on them, for any word, leaves the tables.
-/
namespace FiniteAutomata

/-- A fold answers if each step does, from everything that satisfies an invariant which the steps keep. -/
theorem foldlM_eq_some_foldl {α β : Type} {P : β → Prop} {f : β → α → β} {f? : β → α → Option β}
    {l : List α} {b : β} (hstep : ∀ b, P b → ∀ a ∈ l, f? b a = some (f b a) ∧ P (f b a)) (hb : P b) :
    l.foldlM f? b = some (l.foldl f b) := by
  induction l generalizing b with
  | nil => rfl
  | cons a l ih =>
    obtain ⟨ha, hkeep⟩ := hstep b hb a List.mem_cons_self
    rw [List.foldlM_cons, ha, List.foldl_cons]
    exact ih (fun b hb a ha => hstep b hb a (List.mem_cons_of_mem _ ha)) hkeep

/-- Looking up the positions of a list one after another answers the list. -/
theorem mapM_range_eq_some {α : Type} {f : Nat → Option α} {l : List α}
    (hf : ∀ i (hi : i < l.length), f i = some l[i]) : (List.range l.length).mapM f = some l := by
  induction l generalizing f with
  | nil => rfl
  | cons a l ih =>
    have hrest : (List.range l.length).mapM (f ∘ Nat.succ) = some l :=
      ih fun i hi => hf (i + 1) (Nat.succ_lt_succ hi)
    rw [List.length_cons, List.range_succ_eq_map, List.mapM_cons, List.mapM_map, hrest, hf 0 (by simp)]
    rfl

namespace Nfa

variable {a b n source : Nfa} {s k : Nat} {label : Option Char}

def addMove? (source : Nat) (label : Option Char) (target : Nat) (n : Nfa) : Option Nfa :=
  if source < n.numStates then some (n.addMove source label target) else none

def markAccepting? (n : Nfa) (s : Nat) : Option Nfa :=
  if s < n.accepting.size then some (n.markAccepting s) else none

/-- The transitions of a state, label by label. -/
def transitionsFrom? (n : Nfa) (s : Nat) : Option (List Transition) :=
  (n.labels.mapM fun label => (n.targets? s label).map (·.map (Transition.mk s label))).map List.flatten

def transitions? (n : Nfa) : Option (List Transition) :=
  (n.states.mapM n.transitionsFrom?).map List.flatten

theorem labels_ascending (n : Nfa) : n.labels.Pairwise fun a b => compare a b = .lt := by
  refine List.pairwise_cons.mpr ⟨fun label hlabel => ?_, ?_⟩
  · obtain ⟨c, -, rfl⟩ := List.mem_map.mp hlabel
    rfl
  · exact List.pairwise_map.mpr n.alphabet.symbols.ascending

theorem compare_of_label_lt {m m' : Move} (h : compare m.label m'.label = .lt) : compare m m' = .lt := by
  change (compare m.label m'.label).then (compare m.target m'.target) = .lt
  rw [h]
  rfl

theorem map_targets : (n.targets s label).map (Move.mk label) = (n.movesFrom s).filter (·.label = label) := by
  rw [targets, List.map_filterMap, ← List.filterMap_eq_filter]
  refine List.filterMap_congr fun m _ => ?_
  obtain ⟨l, t⟩ := m
  by_cases hl : l = label <;> simp [hl, Option.guard]

theorem map_targets_ascending (n : Nfa) (s : Nat) (label : Option Char) :
    ((n.targets s label).map (Move.mk label)).Pairwise fun a b => compare a b = .lt := by
  rw [map_targets]
  exact (n.moves[s]?.getD ∅).ascending.filter _

/-- The moves of a state, label by label. -/
def labelledMoves (n : Nfa) (s : Nat) : List Move :=
  n.labels.flatMap fun label => (n.targets s label).map (Move.mk label)

theorem labelledMoves_ascending (n : Nfa) (s : Nat) :
    (n.labelledMoves s).Pairwise fun a b => compare a b = .lt := by
  refine List.pairwise_flatMap.mpr
    ⟨fun label _ => n.map_targets_ascending s label, n.labels_ascending.imp fun hlt x hx y hy => ?_⟩
  obtain ⟨t, -, rfl⟩ := List.mem_map.mp hx
  obtain ⟨u, -, rfl⟩ := List.mem_map.mp hy
  exact compare_of_label_lt hlt

/-- No move has a label outside the alphabet, so going through the labels misses none; and both lists ascend. -/
theorem WellFormed.labelledMoves_eq (h : n.WellFormed) : n.labelledMoves s = n.movesFrom s := by
  refine SortedSet.eq_of_ascending (n.labelledMoves_ascending s) (n.moves[s]?.getD ∅).ascending fun m => ?_
  rw [labelledMoves, List.mem_flatMap]
  constructor
  · rintro ⟨label, -, hm⟩
    obtain ⟨t, ht, rfl⟩ := List.mem_map.mp hm
    exact moves_iff_mem.mp ht
  · intro hm
    have hmove : n.Moves s m.label m.target := moves_iff_mem.mpr hm
    exact ⟨m.label, h.label_mem_labels hmove, List.mem_map_of_mem hmove⟩

theorem WellFormed.transitionsFrom?_eq (h : n.WellFormed) (hs : s < n.numStates) :
    n.transitionsFrom? s = some ((n.movesFrom s).map fun m => ⟨s, m.label, m.target⟩) := by
  have htargets : ∀ label ∈ n.labels, (n.targets? s label).map (·.map (Transition.mk s label)) =
      some ((n.targets s label).map (Transition.mk s label)) := by
    intro label _
    rw [targets?, if_pos hs, Option.map_some]
  rw [transitionsFrom?, mapM_eq_some_map htargets, Option.map_some, ← h.labelledMoves_eq, labelledMoves,
    List.map_flatMap, List.flatMap_def]
  simp only [List.map_map]
  rfl

theorem WellFormed.transitions?_eq (h : n.WellFormed) : n.transitions? = some n.transitions := by
  have hfrom : ∀ s ∈ n.states, n.transitionsFrom? s = _ :=
    fun s hs => h.transitionsFrom?_eq (List.mem_range.mp hs)
  rw [transitions?, mapM_eq_some_map hfrom, Option.map_some, ← List.flatMap_def, transitions]

/-- The copies at `offset` of the transitions of `source`, whose sources must exist. -/
def copyShifted? (target source : Nfa) (offset : Nat) : Option Nfa := do
  (← source.transitions?).foldlM
    (fun n t => n.addMove? (t.source + offset) t.label (t.target + offset)) target

def markShifted? (target source : Nfa) (offset : Nat) : Option Nfa :=
  source.acceptingStates.foldlM (fun n s => n.markAccepting? (s + offset)) target

def linkAccepting? (target source : Nfa) (hub : Nat) : Option Nfa :=
  source.acceptingStates.foldlM (fun n s => n.addMove? s none hub) target

theorem addMove?_eq {target : Nat} (hs : s < n.numStates) :
    n.addMove? s label target = some (n.addMove s label target) := if_pos hs

theorem WellFormed.copyShifted?_eq (h : source.WellFormed) (hfits : source.numStates + k ≤ n.numStates) :
    n.copyShifted? source k = some (n.copyShifted source k) := by
  rw [copyShifted?, h.transitions?_eq]
  refine foldlM_eq_some_foldl (P := fun m => m.numStates = n.numStates) (fun m hm t ht => ?_) rfl
  have hsource := (mem_transitions.mp ht).source_lt
  exact ⟨addMove?_eq (by omega), numStates_addMove.trans hm⟩

theorem WellFormed.linkAccepting?_eq (h : source.WellFormed) {hub : Nat}
    (hfits : source.numStates ≤ n.numStates) :
    n.linkAccepting? source hub = some (n.linkAccepting source hub) := by
  refine foldlM_eq_some_foldl (P := fun m => m.numStates = n.numStates) (fun m hm s hs => ?_) rfl
  have hlt := h.lt_of_isAccepting (mem_acceptingStates.mp hs)
  exact ⟨addMove?_eq (by omega), numStates_addMove.trans hm⟩

theorem WellFormed.markShifted?_eq (h : source.WellFormed) (hfits : source.numStates + k ≤ n.accepting.size) :
    n.markShifted? source k = some (n.markShifted source k) := by
  refine foldlM_eq_some_foldl (P := fun m => m.accepting.size = n.accepting.size) (fun m hm s hs => ?_) rfl
  have hlt := h.lt_of_isAccepting (mem_acceptingStates.mp hs)
  exact ⟨if_pos (by omega), (Array.size_modify ..).trans hm⟩

def union? (a b : Nfa) : Option Nfa := do
  let offset := 1 + a.numStates
  let blank := withStates (1 + a.numStates + b.numStates) (a.alphabet.union b.alphabet) 0
  let entered ← (← blank.addMove? 0 none (a.start + 1)).addMove? 0 none (b.start + offset)
  let copied ← (← entered.copyShifted? a 1).copyShifted? b offset
  (← copied.markShifted? a 1).markShifted? b offset

def concat? (a b : Nfa) : Option Nfa := do
  let offset := a.numStates
  let blank := withStates (a.numStates + b.numStates) (a.alphabet.union b.alphabet) a.start
  let copied ← (← blank.copyShifted? a 0).copyShifted? b offset
  (← copied.linkAccepting? a (b.start + offset)).markShifted? b offset

def star? (a : Nfa) : Option Nfa := do
  let hub := a.numStates
  let copied ← (withStates (a.numStates + 1) a.alphabet hub).copyShifted? a 0
  (← (← copied.addMove? hub none a.start).linkAccepting? a hub).markAccepting? hub

def plus? (a : Nfa) : Option Nfa := do a.concat? (← a.star?)

theorem WellFormed.union?_eq (ha : a.WellFormed) (hb : b.WellFormed) : a.union? b = some (a.union b) := by
  simp only [union?, Option.bind_eq_bind]
  rw [addMove?_eq (by simp), Option.bind_some, addMove?_eq (by simp), Option.bind_some,
    ha.copyShifted?_eq (by simp; omega), Option.bind_some,
    hb.copyShifted?_eq (by simp [copyShifted_frame]; omega), Option.bind_some,
    ha.markShifted?_eq (by simp [copyShifted_frame, addMove]; omega), Option.bind_some,
    hb.markShifted?_eq (by simp [markShifted_frame, copyShifted_frame, addMove]; omega)]
  rfl

theorem WellFormed.concat?_eq (ha : a.WellFormed) (hb : b.WellFormed) :
    a.concat? b = some (a.concat b) := by
  simp only [concat?, Option.bind_eq_bind]
  rw [ha.copyShifted?_eq (by simp), Option.bind_some,
    hb.copyShifted?_eq (by simp [copyShifted_frame]; omega), Option.bind_some,
    ha.linkAccepting?_eq (by simp [copyShifted_frame]), Option.bind_some,
    hb.markShifted?_eq (by simp [linkAccepting_frame, copyShifted_frame]; omega)]
  rfl

theorem WellFormed.star?_eq (ha : a.WellFormed) : a.star? = some a.star := by
  simp only [star?, Option.bind_eq_bind]
  rw [ha.copyShifted?_eq (by simp), Option.bind_some, addMove?_eq (by simp [copyShifted_frame]),
    Option.bind_some, ha.linkAccepting?_eq (by simp [copyShifted_frame]), Option.bind_some,
    markAccepting?, if_pos (by simp [linkAccepting_frame, copyShifted_frame, addMove])]
  rfl

theorem WellFormed.plus?_eq (ha : a.WellFormed) : a.plus? = some a.plus := by
  rw [plus?, ha.star?_eq]
  exact ha.concat?_eq ha.star

/-- The subset construction with the numbers of all sets looked up among those that have a row. -/
def powerTable? (n : Nfa) : Option Dfa := do
  let sets ← n.powerSets?
  let rows ← sets.values.mapM fun set => do
    return (← (← n.images? set).mapM sets.indexOf?).toArray
  return {
    alphabet := n.alphabet
    start := 1
    rows
    accepting := sets.values.map fun set => set.toList.any n.isAccepting }

/-- In the end all images of a known set are known, so that each entry of its row is the number of a row. -/
theorem WellFormed.powerTable?_eq (h : n.WellFormed) : n.powerTable? = n.determinize? := by
  obtain ⟨sets, hsets, hfrontier, -⟩ := h.powerSets?_eq
  have hrow : ∀ set ∈ sets.values,
      (do return (← (← n.images? set).mapM sets.indexOf?).toArray : Option (Array Nat)) =
        some (n.alphabet.toList.map fun c => (sets.indexOf? (n.stepOf set c)).getD 0).toArray := by
    intro set hset
    have hindex : ∀ image ∈ n.alphabet.toList.map (n.stepOf set),
        sets.indexOf? image = some ((sets.indexOf? image).getD 0) := by
      intro image himage
      obtain ⟨c, hc, rfl⟩ := List.mem_map.mp himage
      -- Nothing is pending any more, so the images of the set have been discovered.
      have hknown := (hfrontier.images_mem set hset).resolve_left List.not_mem_nil c hc
      obtain ⟨j, hj⟩ := Option.isSome_iff_exists.mp (Numbering.isSome_indexOf?_iff.mpr hknown)
      rw [hj, Option.getD_some]
    rw [h.images?_eq (hfrontier.closedSet set hset), Option.bind_eq_bind, Option.bind_some,
      mapM_eq_some_map hindex, List.map_map]
    rfl
  rw [h.determinize?_of_powerSets? hsets hfrontier, powerTable?, hsets, Option.bind_eq_bind, Option.bind_some,
    array_mapM_eq_some_map hrow]
  rfl

end Nfa

namespace Dfa

variable {a b d : Dfa} {s : Nat}

/-- The transitions of a state, entry by entry. -/
def transitionsFrom? (d : Dfa) (s : Nat) : Option (List Transition) := do
  let row ← d.rows[s]?
  (List.range row.size).mapM fun i => do return ⟨s, some (← d.alphabet.symbol? i), ← row[i]?⟩

def transitions? (d : Dfa) : Option (List Transition) :=
  (d.states.mapM d.transitionsFrom?).map List.flatten

theorem WellFormed.transitionsFrom?_eq (h : d.WellFormed) (hs : s < d.numStates) :
    d.transitionsFrom? s = some ((d.movesFrom s).map fun m => ⟨s, some m.1, m.2⟩) := by
  have hrow : d.rows[s]? = some d.rows[s] := Array.getElem?_eq_getElem hs
  have hsize : d.rows[s].size = d.alphabet.toList.length := h.row_size _ (Array.getElem_mem hs)
  have hmoves := movesFrom_of_row hrow
  have hlength : d.rows[s].size = ((d.movesFrom s).map fun m => (⟨s, some m.1, m.2⟩ : Transition)).length := by
    simp [hmoves, ← hsize]
  rw [transitionsFrom?, hrow, Option.bind_eq_bind, Option.bind_some, hlength]
  refine mapM_range_eq_some fun i hi => ?_
  have hrange : i < d.rows[s].size := hlength ▸ hi
  rw [Alphabet.symbol?, List.getElem?_eq_getElem (hsize ▸ hrange), Array.getElem?_eq_getElem hrange]
  simp [hmoves]

theorem WellFormed.transitions?_eq (h : d.WellFormed) : d.transitions? = some d.transitions := by
  have hfrom : ∀ s ∈ d.states, d.transitionsFrom? s = _ :=
    fun s hs => h.transitionsFrom?_eq (List.mem_range.mp hs)
  rw [transitions?, mapM_eq_some_map hfrom, Option.map_some, ← List.flatMap_def, transitions]

def graph? (d : Dfa) : Option Digraph := do
  (← d.transitions?).foldlM (fun g t => g.addEdge? t.source t.target) (.edgeless d.numStates)

/-- The graph that adding the edges one by one builds is the one whose sets of successors are read off the rows. -/
theorem WellFormed.graph?_eq (h : d.WellFormed) : d.graph? = some d.graph := by
  have hsources : ∀ t ∈ d.transitions, t.source < (Digraph.edgeless d.numStates).size := by
    intro t ht
    obtain ⟨c, -, hmove⟩ := mem_transitions.mp ht
    rw [Digraph.size_edgeless]
    exact source_lt_of_transition? hmove
  have hadd : d.graph? = some (d.transitions.foldl (fun g t => g.addEdge t.source t.target)
      (.edgeless d.numStates)) := by
    rw [graph?, h.transitions?_eq]
    exact (Digraph.foldlM_addEdge? _ _).trans (if_pos hsources)
  rw [hadd]
  -- Both graphs have a vertex for each state, so it remains to compare their edges.
  refine congrArg some (Digraph.ext_next (by simp) fun v w => ?_)
  rw [Digraph.mem_next_foldl_addEdge, or_iff_right Digraph.not_mem_next_edgeless, Digraph.size_edgeless,
    h.mem_next_graph_iff]
  constructor
  · rintro ⟨-, t, ht, rfl, rfl⟩
    obtain ⟨c, -, hmove⟩ := mem_transitions.mp ht
    exact ⟨c, hmove⟩
  · rintro ⟨c, hmove⟩
    exact ⟨source_lt_of_transition? hmove, ⟨v, some c, w⟩, mem_transitions.mpr (moves_some.mpr hmove), rfl, rfl⟩

def toNfa? (d : Dfa) : Option Nfa := do
  let blank := Nfa.withStates d.numStates d.alphabet d.start
  (← d.transitions?).foldlM (fun n t => n.addMove? t.source t.label t.target)
    { blank with accepting := d.accepting }

theorem WellFormed.toNfa?_eq (h : d.WellFormed) : d.toNfa? = some d.toNfa := by
  rw [toNfa?, h.transitions?_eq]
  refine foldlM_eq_some_foldl (P := fun n => n.numStates = d.numStates) (fun n hn t ht => ?_)
    (by simp [Nfa.numStates, Nfa.withStates])
  obtain ⟨c, -, hmove⟩ := mem_transitions.mp ht
  have hsource := source_lt_of_transition? hmove
  exact ⟨Nfa.addMove?_eq (by omega), Nfa.numStates_addMove.trans hn⟩

/-- An operation on one nondeterministic automaton, carried out on a deterministic one. -/
def lift? (op : Nfa → Option Nfa) (a : Dfa) : Option Dfa := do
  (← op (← a.toNfa?)).powerTable?

/-- An operation on two nondeterministic automata, carried out on deterministic ones. -/
def lift₂? (op : Nfa → Nfa → Option Nfa) (a b : Dfa) : Option Dfa := do
  (← op (← a.toNfa?) (← b.toNfa?)).powerTable?

theorem WellFormed.lift?_eq (h : a.WellFormed) {op : Nfa → Option Nfa} {n : Nfa}
    (hop : op a.toNfa = some n) (hn : n.WellFormed) : a.lift? op = n.determinize? := by
  rw [lift?, h.toNfa?_eq, Option.bind_eq_bind, Option.bind_some, hop, Option.bind_some]
  exact hn.powerTable?_eq

theorem WellFormed.lift₂?_eq (ha : a.WellFormed) (hb : b.WellFormed) {op : Nfa → Nfa → Option Nfa} {n : Nfa}
    (hop : op a.toNfa b.toNfa = some n) (hn : n.WellFormed) : a.lift₂? op b = n.determinize? := by
  rw [lift₂?, ha.toNfa?_eq, hb.toNfa?_eq, Option.bind_eq_bind, Option.bind_some, Option.bind_some, hop,
    Option.bind_some]
  exact hn.powerTable?_eq

end Dfa

/-- Nothing that is asked of the automaton or made of it leaves its tables. -/
structure Nfa.StaysInRange (n : Nfa) : Prop where
  simulate : ∀ w, ∃ answer, n.simulate? w = some answer
  transitions : n.transitions? = some n.transitions
  determinize : ∃ d, n.powerTable? = some d ∧ n.determinize? = some d
  union : ∀ b : Nfa, b.Constructible → n.union? b = some (n.union b)
  concat : ∀ b : Nfa, b.Constructible → n.concat? b = some (n.concat b)
  star : n.star? = some n.star
  plus : n.plus? = some n.plus

/-- Nothing that is asked of the automaton or made of it leaves its tables. The decisions search the graph, which
is the one that `graph?` answers. -/
structure Dfa.StaysInRange (d : Dfa) : Prop where
  recognize : ∀ w, ∃ answer, d.recognize? w = some answer
  transitions : d.transitions? = some d.transitions
  graph : d.graph? = some d.graph
  isLanguageEmpty : ∃ empty, d.isLanguageEmpty? = some empty
  isLanguageInfinite : ∃ infinite, d.isLanguageInfinite? = some infinite
  toNfa : d.toNfa? = some d.toNfa
  union : ∀ b : Dfa, b.Constructible → ∃ e, d.lift₂? Nfa.union? b = some e ∧ d.union? b = some e
  concat : ∀ b : Dfa, b.Constructible → ∃ e, d.lift₂? Nfa.concat? b = some e ∧ d.concat? b = some e
  star : ∃ e, d.lift? Nfa.star? = some e ∧ d.star? = some e
  plus : ∃ e, d.lift? Nfa.plus? = some e ∧ d.plus? = some e

theorem Nfa.WellFormed.staysInRange {n : Nfa} (h : n.WellFormed) : n.StaysInRange where
  simulate w := by
    obtain ⟨answer, hanswer, -⟩ := h.simulate?_eq w
    exact ⟨answer, hanswer⟩
  transitions := h.transitions?_eq
  determinize := by
    obtain ⟨d, hd, -⟩ := h.exists_determinize?
    exact ⟨d, h.powerTable?_eq.trans hd, hd⟩
  union b hb := h.union?_eq hb.wellFormed
  concat b hb := h.concat?_eq hb.wellFormed
  star := h.star?_eq
  plus := h.plus?_eq

theorem Dfa.WellFormed.staysInRange {d : Dfa} (h : d.WellFormed) : d.StaysInRange where
  recognize w := by
    obtain ⟨answer, hanswer, -⟩ := h.recognize?_eq w
    exact ⟨answer, hanswer⟩
  transitions := h.transitions?_eq
  graph := h.graph?_eq
  isLanguageEmpty := by
    obtain ⟨empty, hempty, -⟩ := h.isLanguageEmpty?_eq
    exact ⟨empty, hempty⟩
  isLanguageInfinite := by
    obtain ⟨infinite, hinfinite, -⟩ := h.isLanguageInfinite?_eq
    exact ⟨infinite, hinfinite⟩
  toNfa := h.toNfa?_eq
  union b hb := by
    have hb := hb.wellFormed
    obtain ⟨e, he, -⟩ := h.exists_union? hb
    have hop := h.toNfa.union?_eq hb.toNfa
    exact ⟨e, (h.lift₂?_eq hb hop (h.toNfa.union hb.toNfa)).trans he, he⟩
  concat b hb := by
    have hb := hb.wellFormed
    obtain ⟨e, he, -⟩ := h.exists_concat? hb
    have hop := h.toNfa.concat?_eq hb.toNfa
    exact ⟨e, (h.lift₂?_eq hb hop (h.toNfa.concat hb.toNfa)).trans he, he⟩
  star := by
    obtain ⟨e, he, -⟩ := h.exists_star?
    exact ⟨e, (h.lift?_eq h.toNfa.star?_eq h.toNfa.star).trans he, he⟩
  plus := by
    obtain ⟨e, he, -⟩ := h.exists_plus?
    exact ⟨e, (h.lift?_eq h.toNfa.plus?_eq h.toNfa.plus).trans he, he⟩

/-- Every automaton that can be built has a state and is well-formed, and therefore nothing that is asked of it or
made of it leaves its tables. -/
theorem constructible_staysInRange :
    (∀ n : Nfa, n.Constructible → 0 < n.numStates ∧ n.WellFormed ∧ n.StaysInRange) ∧
    ∀ d : Dfa, d.Constructible → 0 < d.numStates ∧ d.WellFormed ∧ d.StaysInRange := by
  constructor
  · intro n hn
    have hwf := hn.wellFormed
    exact ⟨Nat.zero_lt_of_lt hwf.start_lt, hwf, hwf.staysInRange⟩
  · intro d hd
    have hwf := hd.wellFormed
    exact ⟨Nat.zero_lt_of_lt hwf.start_lt, hwf, hwf.staysInRange⟩

theorem constructible_staysInRange_endsInB_evenAs :
    ((Nfa.ofDescription .endsInB).star.Constructible ∧ (Nfa.ofDescription .endsInB).star.WellFormed ∧
      (Nfa.ofDescription .endsInB).star.StaysInRange) ∧
    Dfa.evenAs.Constructible ∧ Dfa.evenAs.WellFormed ∧ Dfa.evenAs.StaysInRange := by
  have hstar : (Nfa.ofDescription .endsInB).star.Constructible := .star Nfa.constructible_endsInB
  exact ⟨⟨hstar, (constructible_staysInRange.1 _ hstar).2⟩, Dfa.constructible_evenAs,
    (constructible_staysInRange.2 _ Dfa.constructible_evenAs).2⟩

end FiniteAutomata
