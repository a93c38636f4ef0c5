import FiniteAutomata.Graph.Components
import FiniteAutomata.Proofs.LeavingOrder

/-!
# Components are strongly connected

Two vertices of a closed graph are in one component if and only if each can be reached from the other
(`Components.ofGraph?_eq`). Each search of the second pass starts from the first vertex of the leaving order that
is not painted yet. What is not painted is a part of the order where exits return, so what leads to that
vertex is led to from it, and the search paints one component. A vertex lies on a cycle if and only if its
component is not trivial (`Components.isCyclic?_eq`).
-/
namespace FiniteAutomata

open Search

namespace Digraph

variable {g : Digraph} {s t v w : Nat}

@[simp] theorem size_addEdge : (g.addEdge s t).size = g.size := by simp [size, addEdge]

theorem mem_next_addEdge : w ∈ (g.addEdge s t).next v ↔ w ∈ g.next v ∨ v < g.size ∧ v = s ∧ w = t := by
  simp only [next, addEdge, Array.getElem?_modify, size]
  by_cases hs : s = v
  · subst hs
    rcases Nat.lt_or_ge s g.successors.size with hlt | hge
    · rw [if_pos rfl, Array.getElem?_eq_getElem hlt]
      simp only [Option.map_some, Option.getD_some, ← SortedSet.mem_def, SortedSet.mem_insert, hlt,
        true_and]
      exact or_comm
    · simp [Nat.not_lt.mpr hge]
  · simp [hs, Ne.symm hs]

theorem hasEdge?_eq (hs : s < g.size) : g.hasEdge? s t = some (decide (t ∈ g.next s)) := by
  have hget : g.successors[s]? = some g.successors[s] := Array.getElem?_eq_getElem hs
  simp [hasEdge?, successors?, next, hget, SortedSet.mem_def]

theorem ext_next {g g' : Digraph} (hsize : g.size = g'.size) (hnext : ∀ v w, w ∈ g.next v ↔ w ∈ g'.next v) :
    g = g' := by
  obtain ⟨successors⟩ := g
  obtain ⟨successors'⟩ := g'
  refine congrArg mk (Array.ext hsize fun v hv hv' => SortedSet.ext fun w => ?_)
  have hw := hnext v w
  rw [next, next, Array.getElem?_eq_getElem hv, Array.getElem?_eq_getElem hv'] at hw
  exact hw

section Edges

variable {α : Type} {source target : α → Nat}

@[simp] theorem size_foldl_addEdge (edges : List α) (g : Digraph) :
    (edges.foldl (fun r e => r.addEdge (source e) (target e)) g).size = g.size := by
  induction edges generalizing g with
  | nil => rfl
  | cons e edges ih => rw [List.foldl_cons, ih, size_addEdge]

theorem mem_next_foldl_addEdge {edges : List α} :
    w ∈ (edges.foldl (fun r e => r.addEdge (source e) (target e)) g).next v ↔
      w ∈ g.next v ∨ v < g.size ∧ ∃ e ∈ edges, source e = v ∧ target e = w := by
  induction edges generalizing g with
  | nil => simp
  | cons e edges ih =>
    rw [List.foldl_cons, ih, mem_next_addEdge, size_addEdge, List.exists_mem_cons_iff]
    grind

end Edges

@[simp] theorem size_edgeless (n : Nat) : (edgeless n).size = n := by simp [edgeless, size]

theorem not_mem_next_edgeless {n : Nat} : w ∉ (edgeless n).next v := by
  simp only [next, edgeless, Array.getElem?_replicate]
  split <;> exact SortedSet.not_mem_empty w

theorem foldlM_addEdge? {α : Type} {source target : α → Nat} (edges : List α) (g : Digraph) :
    edges.foldlM (fun r e => r.addEdge? (source e) (target e)) g =
      if ∀ e ∈ edges, source e < g.size then
        some (edges.foldl (fun r e => r.addEdge (source e) (target e)) g)
      else
        none := by
  induction edges generalizing g with
  | nil => rfl
  | cons e edges ih =>
    rw [List.foldlM_cons, addEdge?, List.foldl_cons]
    by_cases he : source e < g.size
    · rw [if_pos he, Option.bind_eq_bind, Option.bind_some, ih, size_addEdge]
      simp [he]
    · simp [he]

/-- The edges that start at some vertices, turned around. -/
def turned (g : Digraph) (vs : List Nat) : Digraph :=
  vs.foldr (fun v reversed => (g.next v).foldl (fun r w => r.addEdge w v) reversed) (edgeless g.size)

theorem turned_cons {v : Nat} {vs : List Nat} :
    g.turned (v :: vs) = (g.next v).foldl (fun r w => r.addEdge w v) (g.turned vs) := rfl

theorem size_turned (g : Digraph) (vs : List Nat) : (g.turned vs).size = g.size := by
  induction vs with
  | nil => exact size_edgeless _
  | cons v vs ih => rw [turned_cons, size_foldl_addEdge, ih]

/-- Turning the edges around one by one succeeds if all of them are in range. -/
theorem transpose?_eq_ite : g.transpose? = if g.Closed then some (g.turned g.vertices) else none := by
  have hfold (vs : List Nat) :
      vs.foldrM (fun v reversed => (g.next v).foldlM (fun r w => r.addEdge? w v) reversed) (edgeless g.size) =
        if ∀ v ∈ vs, ∀ w ∈ g.next v, w < g.size then some (g.turned vs) else none := by
    induction vs with
    | nil => simp [turned]
    | cons v vs ih =>
      rw [List.foldrM_cons, ih]
      by_cases hvs : ∀ v ∈ vs, ∀ w ∈ g.next v, w < g.size
      · rw [if_pos hvs, Option.bind_eq_bind, Option.bind_some, foldlM_addEdge?, size_turned, turned_cons]
        exact if_congr (by rw [List.forall_mem_cons, and_iff_left hvs]) rfl rfl
      · rw [if_neg hvs, if_neg fun h => hvs (List.forall_mem_cons.mp h).2]
        rfl
  exact hfold g.vertices

theorem Closed.mem_next_turned (hg : g.Closed) {vs : List Nat} :
    w ∈ (g.turned vs).next v ↔ w ∈ vs ∧ v ∈ g.next w := by
  induction vs with
  | nil =>
    simp only [List.not_mem_nil, false_and, iff_false]
    exact not_mem_next_edgeless
  | cons x vs ih =>
    rw [turned_cons, mem_next_foldl_addEdge, ih, size_turned, List.mem_cons]
    constructor
    · rintro (⟨hw, hv⟩ | ⟨-, _, hv, rfl, rfl⟩)
      · exact ⟨.inr hw, hv⟩
      · exact ⟨.inl rfl, hv⟩
    · rintro ⟨rfl | hw, hv⟩
      · exact .inr ⟨hg.lt_of_mem_next hv, v, hv, rfl, rfl⟩
      · exact .inl ⟨hw, hv⟩

/-- Reversing succeeds on closed graphs and turns every edge around. -/
theorem Closed.transpose?_eq (hg : g.Closed) :
    ∃ reversed, g.transpose? = some reversed ∧ reversed.size = g.size ∧
      ∀ v w, w ∈ reversed.next v ↔ v ∈ g.next w := by
  refine ⟨g.turned g.vertices, by rw [transpose?_eq_ite, if_pos hg], size_turned g _, fun v w => ?_⟩
  rw [hg.mem_next_turned]
  exact and_iff_right_of_imp fun h => List.mem_range.mpr (source_lt_of_mem_next h)

end Digraph

/-- Each of two vertices can be reached from the other. -/
def Mutual (next : Nat → List Nat) (v w : Nat) : Prop := Reaches next v w ∧ Reaches next w v

namespace Mutual

variable {next : Nat → List Nat} {u v w : Nat}

theorem symm (h : Mutual next v w) : Mutual next w v := ⟨h.2, h.1⟩

theorem trans (huv : Mutual next u v) (hvw : Mutual next v w) : Mutual next u w :=
  ⟨huv.1.trans hvw.1, hvw.2.trans huv.2⟩

/-- A vertex lies on a cycle if it has a loop or is not alone in its component. -/
theorem cycle_iff : Relation.TransGen (fun a b => b ∈ next a) v v ↔
    v ∈ next v ∨ ∃ w, w ≠ v ∧ Mutual next v w := by
  constructor
  · intro h
    obtain ⟨w, hedge, hpath⟩ := Relation.TransGen.head'_iff.mp h
    by_cases hw : w = v
    · exact .inl (hw ▸ hedge)
    · exact .inr ⟨w, hw, .edge hedge, hpath⟩
  · rintro (h | ⟨w, hw, hvw, hwv⟩)
    · exact .single h
    · rcases Relation.reflTransGen_iff_eq_or_transGen.mp hvw with heq | hcycle
      · exact absurd heq hw
      · exact hcycle.trans_left hwv

end Mutual

namespace Components

variable {next reversed : Nat → List Nat} {size colour : Nat} {marks : Array (Option Nat)}

/-- The painted vertices make up whole components, each with a colour of its own, and what leads to a
painted vertex has been painted no later. -/
structure Painted (next : Nat → List Nat) (size : Nat) (marks : Array (Option Nat)) (colour : Nat) :
    Prop where
  size_eq : marks.size = size
  colour_lt : ∀ v i : Nat, marks[v]? = some (some i) → i < colour
  used : ∀ i < colour, ∃ v : Nat, marks[v]? = some (some i)
  same_iff : ∀ v i : Nat, marks[v]? = some (some i) → ∀ w : Nat, marks[w]? = some (some i) ↔ Mutual next v w
  source_le : ∀ v i : Nat, marks[v]? = some (some i) → ∀ u < size, v ∈ next u →
    ∃ j ≤ i, marks[u]? = some (some j)

section Painting

variable (hnext : ∀ v < size, ∀ w ∈ next v, w < size) (hreversed : ∀ v w, w ∈ reversed v ↔ v ∈ next w)
include hnext hreversed

/-- From the first unpainted vertex of the order, a search against the edges finds its component. -/
theorem Painted.paints_iff (h : Painted next size marks colour) {r : Nat} {order : List Nat}
    (hr : marks[r]? = some none) (hexits : ExitsReturn next (r :: order)) (hnodup : (r :: order).Nodup)
    (horder : ∀ v : Nat, marks[v]? = some none → v ∈ r :: order) (v : Nat) :
    Paints reversed marks [r] v ↔ Mutual next r v := by
  have hrsize : r < size := h.size_eq ▸ (Array.getElem?_eq_some_iff.mp hr).1
  constructor
  · intro hpaints
    have hv := horder v hpaints.unmarked
    obtain ⟨p, hp, -, hpath⟩ := hpaints
    rw [List.mem_singleton] at hp
    subst hp
    have hback : Relation.ReflTransGen (fun a b => b ∈ next a ∧ b ∈ p :: order) v p := by
      clear hv
      induction hpath with
      | refl => exact .refl
      | @tail a b hpath hedge ih =>
        have ha : Paints reversed marks [p] a := ⟨p, by simp, hr, hpath⟩
        exact .head ⟨(hreversed a b).mp hedge.1, horder a ha.unmarked⟩ ih
    exact ⟨hexits.reaches_of_path hnodup hback hv, hback.lift id fun a b hedge => hedge.1⟩
  · intro hmutual
    refine ⟨r, by simp, hr, ?_⟩
    obtain ⟨hto, hback⟩ := hmutual
    induction hback using Relation.ReflTransGen.head_induction_on with
    | refl => exact .refl
    | @head a b hedge hback ih =>
      have ha : marks[a]? = some none := by
        have hlt : a < marks.size := by
          rw [h.size_eq]
          exact hto.mem_of_closed (S := {u | u < size}) hnext hrsize
        cases hmark : marks[a] with
        | none => rw [Array.getElem?_eq_getElem hlt, hmark]
        | some i =>
          -- A painted vertex has its whole component painted, so the root would be painted too.
          have hroot := (h.same_iff a i (by rw [Array.getElem?_eq_getElem hlt, hmark]) r).mpr
            ⟨.head hedge hback, hto⟩
          rw [hr] at hroot
          cases hroot
      exact (ih (hto.trans (.edge hedge))).tail ⟨(hreversed b a).mpr hedge, ha⟩

theorem Painted.of_paint? (h : Painted next size marks colour) {r : Nat} {order : List Nat}
    (hr : marks[r]? = some none) (hexits : ExitsReturn next (r :: order)) (hnodup : (r :: order).Nodup)
    (horder : ∀ v : Nat, marks[v]? = some none → v ∈ r :: order) {painted : Array (Option Nat)}
    (hpaint : paint? reversed colour marks [r] = some painted) (hsize : painted.size = marks.size) :
    Painted next size painted (colour + 1) := by
  have hpaints := h.paints_iff hnext hreversed hr hexits hnodup horder
  have hnew (v : Nat) (hv : Mutual next r v) : painted[v]? = some (some colour) :=
    paint?_getElem?_of_paints hpaint ((hpaints v).mpr hv)
  have hold (v : Nat) (hv : ¬ Mutual next r v) : painted[v]? = marks[v]? :=
    paint?_getElem?_of_not_paints hpaint (mt (hpaints v).mp hv)
  have hkeep (v i : Nat) (hv : marks[v]? = some (some i)) : painted[v]? = some (some i) := by
    have hout : ¬ Paints reversed marks [r] v := fun h => by
      rw [h.unmarked] at hv
      cases hv
    rw [paint?_getElem?_of_not_paints hpaint hout, hv]
  refine ⟨hsize.trans h.size_eq, fun v i hv => ?_, fun i hi => ?_, fun v i hv w => ?_,
    fun v i hv u hu hedge => ?_⟩
  · by_cases hmutual : Mutual next r v
    · rw [hnew v hmutual, Option.some_inj, Option.some_inj] at hv
      omega
    · rw [hold v hmutual] at hv
      have := h.colour_lt v i hv
      omega
  · rcases Nat.lt_succ_iff_lt_or_eq.mp hi with hi | rfl
    · obtain ⟨v, hv⟩ := h.used i hi
      exact ⟨v, hkeep v i hv⟩
    · exact ⟨r, hnew r ⟨.refl r, .refl r⟩⟩
  · by_cases hmutual : Mutual next r v
    · rw [hnew v hmutual, Option.some_inj, Option.some_inj] at hv
      subst hv
      by_cases hw : Mutual next r w
      · exact iff_of_true (hnew w hw) (hmutual.symm.trans hw)
      · refine iff_of_false (fun hcolour => ?_) fun hvw => hw (hmutual.trans hvw)
        rw [hold w hw] at hcolour
        have := h.colour_lt w colour hcolour
        omega
    · rw [hold v hmutual] at hv
      by_cases hw : Mutual next r w
      · refine iff_of_false (fun hcolour => ?_) fun hvw => hmutual (hw.trans hvw.symm)
        rw [hnew w hw, Option.some_inj, Option.some_inj] at hcolour
        have := h.colour_lt v i hv
        omega
      · rw [hold w hw]
        exact h.same_iff v i hv w
  · by_cases hmutual : Mutual next r v
    · rw [hnew v hmutual, Option.some_inj, Option.some_inj] at hv
      subst hv
      -- What leads to the new component has been painted before, or this search paints it.
      have hlt : u < marks.size := h.size_eq.symm ▸ hu
      cases hmark : marks[u] with
      | none =>
        have hunmarked : marks[u]? = some none := by rw [Array.getElem?_eq_getElem hlt, hmark]
        obtain ⟨p, hp, hpnone, hpath⟩ := (hpaints v).mpr hmutual
        have hpath := hpath.tail ⟨(hreversed v u).mpr hedge, hunmarked⟩
        exact ⟨colour, Nat.le_refl colour, paint?_getElem?_of_paints hpaint ⟨p, hp, hpnone, hpath⟩⟩
      | some j =>
        have hmarked : marks[u]? = some (some j) := by rw [Array.getElem?_eq_getElem hlt, hmark]
        exact ⟨j, Nat.le_of_lt (h.colour_lt u j hmarked), hkeep u j hmarked⟩
    · rw [hold v hmutual] at hv
      obtain ⟨j, hj, hmarked⟩ := h.source_le v i hv u hu hedge
      exact ⟨j, hj, hkeep u j hmarked⟩

/-- Painting from every vertex of the order paints every vertex, each component in one colour. -/
theorem Painted.exists_paintAll? (hback : ∀ v < size, ∀ w ∈ reversed v, w < size)
    (h : Painted next size marks colour) {order : List Nat} (hrange : ∀ v ∈ order, v < size)
    (hexits : ExitsReturn next order) (hnodup : order.Nodup)
    (horder : ∀ v : Nat, marks[v]? = some none → v ∈ order) :
    ∃ painted count, paintAll? reversed colour marks order = some (painted, count) ∧
      Painted next size painted count ∧ ∀ v : Nat, painted[v]? ≠ some none := by
  induction order generalizing marks colour with
  | nil => exact ⟨marks, colour, rfl, h, fun v hv => List.not_mem_nil (horder v hv)⟩
  | cons r order ih =>
    have hrest : ∀ v ∈ order, v < size := fun v hv => hrange v (by simp [hv])
    have hnodup' := (List.nodup_cons.mp hnodup).2
    rw [paintAll?]
    split
    · next hr =>
      have hlt : r < marks.size := h.size_eq.symm ▸ hrange r (by simp)
      rw [Array.getElem?_eq_getElem hlt] at hr
      cases hr
    · next hr =>
      have hroot : ∀ p ∈ [r], p < marks.size := by simpa [h.size_eq] using hrange r (by simp)
      have hstays : ∀ v < marks.size, ∀ w ∈ reversed v, w < marks.size := by rwa [h.size_eq]
      obtain ⟨painted, hpaint, hsize⟩ : ∃ painted, paint? reversed colour marks [r] = some painted ∧
          painted.size = marks.size := exists_paint? hroot hstays
      rw [hpaint, Option.bind_eq_bind, Option.bind_some]
      refine ih (h.of_paint? hnext hreversed hr hexits hnodup horder hpaint hsize) hrest hexits.2 hnodup'
        fun v hv => ?_
      have hunpainted : ¬ Paints reversed marks [r] v := fun hpaints => by
        rw [paint?_getElem?_of_paints hpaint hpaints] at hv
        cases hv
      rw [paint?_getElem?_of_not_paints hpaint hunpainted] at hv
      refine (List.mem_cons.mp (horder v hv)).resolve_left ?_
      rintro rfl
      exact hunpainted ⟨v, by simp, hv, .refl⟩
    · next i hr =>
      refine ih h hrest hexits.2 hnodup' fun v hv => ?_
      refine (List.mem_cons.mp (horder v hv)).resolve_left ?_
      rintro rfl
      rw [hr] at hv
      cases hv

end Painting

theorem exists_members_ofColours (marks : Array (Option Nat)) {count i : Nat} (hi : i < count) :
    ∃ set, (ofColours marks count).members[i]? = some set ∧
      ∀ v, v ∈ set ↔ v < marks.size ∧ marks[v]?.join.getD count = i := by
  have hfold (vs : List Nat) : ∃ set : SortedSet Nat,
      (vs.foldr (fun v sets => sets.modify (marks[v]?.join.getD count) (·.insert v))
        (Array.replicate count ∅))[i]? = some set ∧
      ∀ v, v ∈ set ↔ v ∈ vs ∧ marks[v]?.join.getD count = i := by
    induction vs with
    | nil => exact ⟨∅, by simp [hi], by simp⟩
    | cons x vs ih =>
      obtain ⟨set, hset, hmem⟩ := ih
      rw [List.foldr_cons, Array.getElem?_modify, hset]
      by_cases hx : marks[x]?.join.getD count = i
      · refine ⟨set.insert x, by simp [hx], fun v => ?_⟩
        rw [SortedSet.mem_insert, hmem, List.mem_cons]
        constructor
        · rintro (rfl | ⟨hv, hi⟩)
          · exact ⟨.inl rfl, hx⟩
          · exact ⟨.inr hv, hi⟩
        · rintro ⟨rfl | hv, hi⟩
          · exact .inl rfl
          · exact .inr ⟨hv, hi⟩
      · refine ⟨set, by simp [hx], fun v => ?_⟩
        rw [hmem, List.mem_cons]
        refine and_congr_left fun hv => ⟨.inr, fun h => h.resolve_left ?_⟩
        rintro rfl
        exact hx hv
  obtain ⟨set, hset, hmem⟩ := hfold (List.range marks.size)
  exact ⟨set, hset, fun v => by rw [hmem, List.mem_range]⟩

theorem size_members_ofColours (marks : Array (Option Nat)) (count : Nat) :
    (ofColours marks count).members.size = count := by
  have hfold (vs : List Nat) : (vs.foldr (fun v sets => sets.modify (marks[v]?.join.getD count) (·.insert v))
      (Array.replicate count (∅ : SortedSet Nat))).size = count := by
    induction vs with
    | nil => simp
    | cons x vs ih => simpa using ih
  exact hfold _

section Marked

variable {count i v : Nat} (h : Painted next size marks count) (hmarked : ∀ v : Nat, marks[v]? ≠ some none)
include hmarked

theorem exists_colour (hv : v < marks.size) : ∃ i, marks[v]? = some (some i) := by
  cases hmark : marks[v] with
  | none => exact absurd (by rw [Array.getElem?_eq_getElem hv, hmark]) (hmarked v)
  | some i => exact ⟨i, by rw [Array.getElem?_eq_getElem hv, hmark]⟩

/-- The component of a vertex is its colour. -/
theorem componentOf?_ofColours : (ofColours marks count).componentOf? v = some i ↔
    marks[v]? = some (some i) := by
  unfold componentOf? ofColours
  rw [Array.getElem?_map]
  cases hmark : marks[v]? with
  | none => simp
  | some mark =>
    cases mark with
    | none => exact absurd hmark (hmarked v)
    | some j => simp

include h

/-- The members of a component are the vertices of its colour. -/
theorem Painted.mem_members_iff :
    (∃ set, (ofColours marks count).members[i]? = some set ∧ v ∈ set) ↔ marks[v]? = some (some i) := by
  constructor
  · rintro ⟨set, hset, hv⟩
    have hi : i < count := by
      have hsize := (Array.getElem?_eq_some_iff.mp hset).1
      rwa [size_members_ofColours] at hsize
    obtain ⟨set', hset', hmem⟩ := exists_members_ofColours marks hi
    obtain rfl : set = set' := Option.some_inj.mp (hset.symm.trans hset')
    obtain ⟨hlt, hcolour⟩ := (hmem v).mp hv
    obtain ⟨j, hj⟩ := exists_colour hmarked hlt
    rw [hj] at hcolour ⊢
    exact congrArg (some ∘ some) hcolour
  · intro hv
    obtain ⟨set, hset, hmem⟩ := exists_members_ofColours marks (h.colour_lt v i hv)
    exact ⟨set, hset, (hmem v).mpr ⟨(Array.getElem?_eq_some_iff.mp hv).1, by simp [hv]⟩⟩

theorem Painted.exists_component (hv : v < size) :
    ∃ i set, (ofColours marks count).componentOf? v = some i ∧
      (ofColours marks count).members[i]? = some set ∧ ∀ w, w ∈ set ↔ Mutual next v w := by
  obtain ⟨i, hi⟩ := exists_colour hmarked (h.size_eq.symm ▸ hv)
  obtain ⟨set, hset, -⟩ := (h.mem_members_iff hmarked).mpr hi
  refine ⟨i, set, (componentOf?_ofColours hmarked).mpr hi, hset, fun w => ?_⟩
  rw [← h.same_iff v i hi, ← h.mem_members_iff hmarked]
  constructor
  · exact fun hw => ⟨set, hset, hw⟩
  · rintro ⟨set', hset', hw⟩
    obtain rfl : set = set' := Option.some_inj.mp (hset.symm.trans hset')
    exact hw

end Marked

/-- The components of a closed graph come from colours that have been given to all of its vertices. -/
theorem ofGraph?_eq_ofColours {g : Digraph} (hg : g.Closed) :
    ∃ marks count, ofGraph? g = some (ofColours marks count) ∧ Painted g.next g.size marks count ∧
      ∀ v : Nat, marks[v]? ≠ some none := by
  obtain ⟨reversed, hreversed, -, hflip⟩ := hg.transpose?_eq
  obtain ⟨order, horder, hperm, hexits⟩ := hg.leavingOrder?_eq
  have hunpainted : Painted g.next g.size (Array.replicate g.size none) 0 := by
    refine ⟨by simp, fun v i hv => ?_, fun i hi => absurd hi (Nat.not_lt_zero i), fun v i hv => ?_,
      fun v i hv => ?_⟩ <;>
      simp [Array.getElem?_replicate] at hv
  have hmem (v : Nat) : v ∈ order ↔ v < g.size := hperm.mem_iff.trans List.mem_range
  have hcovered : ∀ v : Nat, (Array.replicate g.size (none : Option Nat))[v]? = some none → v ∈ order := by
    intro v hv
    refine (hmem v).mpr ?_
    simpa using (Array.getElem?_eq_some_iff.mp hv).1
  have hback : ∀ v < g.size, ∀ w ∈ reversed.next v, w < g.size := fun v _ w hw =>
    Digraph.source_lt_of_mem_next ((hflip v w).mp hw)
  obtain ⟨marks, count, hpaint, hpainted, hmarked⟩ := hunpainted.exists_paintAll?
    (fun _ _ _ hw => hg.lt_of_mem_next hw) hflip hback (fun v hv => (hmem v).mp hv) hexits
    (hperm.nodup_iff.mpr List.nodup_range) hcovered
  refine ⟨marks, count, ?_, hpainted, hmarked⟩
  rw [ofGraph?, horder, hreversed, Option.bind_eq_bind, Option.bind_some, Option.bind_eq_bind, Option.bind_some,
    hpaint]
  rfl

/-- Each vertex of a closed graph has a component, whose members are the vertices that it can reach and that
can reach it. -/
theorem ofGraph?_eq {g : Digraph} (hg : g.Closed) :
    ∃ c, ofGraph? g = some c ∧ ∀ v < g.size, ∃ i set, c.componentOf? v = some i ∧
      c.members[i]? = some set ∧ ∀ w, w ∈ set ↔ Mutual g.next v w := by
  obtain ⟨marks, count, hc, hpainted, hmarked⟩ := ofGraph?_eq_ofColours hg
  exact ⟨_, hc, fun v hv => hpainted.exists_component hmarked hv⟩

/-- A vertex of a closed graph lies on a cycle if and only if its component is not trivial. -/
theorem isCyclic?_eq {g : Digraph} (hg : g.Closed) :
    ∃ c, ofGraph? g = some c ∧ ∀ v < g.size, ∃ cyclic, c.isCyclic? g v = some cyclic ∧
      (cyclic = true ↔ Relation.TransGen (fun a b => b ∈ g.next a) v v) := by
  obtain ⟨c, hc, hcomponents⟩ := ofGraph?_eq hg
  refine ⟨c, hc, fun v hv => ?_⟩
  obtain ⟨i, set, hi, hset, hmem⟩ := hcomponents v hv
  have hself : v ∈ set.toList := (hmem v).mpr ⟨.refl v, .refl v⟩
  have hloop : g.hasSelfLoop? v = some (decide (v ∈ g.next v)) := Digraph.hasEdge?_eq hv
  rw [Mutual.cycle_iff]
  rcases hlist : set.toList with _ | ⟨x, _ | ⟨y, rest⟩⟩
  · rw [hlist] at hself
    cases hself
  · obtain rfl : v = x := by simpa [hlist] using hself
    refine ⟨decide (v ∈ g.next v), by simp [isCyclic?, hi, isTrivial?, hset, hlist, hloop], ?_⟩
    rw [decide_eq_true_eq, iff_self_or]
    rintro ⟨w, hw, hmutual⟩
    have hwset : w ∈ set.toList := (hmem w).mpr hmutual
    rw [hlist, List.mem_singleton] at hwset
    exact absurd hwset hw
  · have hother : ∃ w ∈ set.toList, w ≠ v := by
      have hxy : x ≠ y := by
        have hnodup := set.nodup
        rw [hlist, List.nodup_cons] at hnodup
        rintro rfl
        exact hnodup.1 (by simp)
      by_cases hx : x = v
      · exact ⟨y, by simp [hlist], hx ▸ hxy.symm⟩
      · exact ⟨x, by simp [hlist], hx⟩
    obtain ⟨w, hw, hne⟩ := hother
    exact ⟨true, by simp [isCyclic?, hi, isTrivial?, hset, hlist],
      iff_of_true rfl (.inr ⟨w, hne, (hmem w).mp hw⟩)⟩

end Components

end FiniteAutomata
