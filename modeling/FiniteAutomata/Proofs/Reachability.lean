import FiniteAutomata.Graph.Digraph
import Mathlib.Logic.Relation

/-!
# Searches find what can be reached

`Reaches next v w` says that some path of any length leads from `v` to `w`. The collecting search answers
exactly the vertices that its sources reach, and refuses exactly if one of them is out of range
(`reach?_eq_some_iff`). Painting marks exactly what can be reached past the marks that were there before
(`paint?_getElem?_of_paints`, `paint?_getElem?_of_not_paints`).
-/
namespace FiniteAutomata.Search

variable {next : Nat → List Nat} {size : Nat}

/-- A path of zero or more edges leads from the first vertex to the second. -/
def Reaches (next : Nat → List Nat) : Nat → Nat → Prop :=
  Relation.ReflTransGen fun v w => w ∈ next v

theorem Reaches.refl (v : Nat) : Reaches next v v := Relation.ReflTransGen.refl

theorem Reaches.trans {u v w : Nat} (huv : Reaches next u v) (hvw : Reaches next v w) :
    Reaches next u w := Relation.ReflTransGen.trans huv hvw

theorem Reaches.edge {v w : Nat} (h : w ∈ next v) : Reaches next v w := Relation.ReflTransGen.single h

/-- A path along edges that have been turned around is a path back. -/
theorem reaches_reversed_iff {reversed : Nat → List Nat} (h : ∀ v w, w ∈ reversed v ↔ v ∈ next w) {v w : Nat} :
    Reaches reversed w v ↔ Reaches next v w := by
  have hswap : (fun a b => b ∈ reversed a) = Function.swap fun a b => b ∈ next a := by
    funext a b
    exact propext (h a b)
  rw [Reaches, hswap, Relation.reflTransGen_swap]
  rfl

/-- What contains the successors of its members contains all that they reach. -/
theorem Reaches.mem_of_closed {S : Set Nat} (hS : ∀ v ∈ S, ∀ w ∈ next v, w ∈ S) {v w : Nat}
    (h : Reaches next v w) (hv : v ∈ S) : w ∈ S := by
  induction h with
  | refl => exact hv
  | tail _ hedge ih => exact hS _ ih _ hedge

def ReachedFrom (next : Nat → List Nat) (sources : List Nat) (w : Nat) : Prop :=
  ∃ v ∈ sources, Reaches next v w

theorem ReachedFrom.of_mem {sources : List Nat} {v : Nat} (h : v ∈ sources) :
    ReachedFrom next sources v := ⟨v, h, .refl v⟩

theorem ReachedFrom.expand {v w : Nat} {rest : List Nat} (h : ReachedFrom next (next v ++ rest) w) :
    ReachedFrom next (v :: rest) w := by
  obtain ⟨u, hu, huw⟩ := h
  rcases List.mem_append.mp hu with hu | hu
  · exact ⟨v, by simp, (Reaches.edge hu).trans huw⟩
  · exact ⟨u, by simp [hu], huw⟩

theorem ReachedFrom.cons {v w : Nat} {rest : List Nat} (h : ReachedFrom next rest w) :
    ReachedFrom next (v :: rest) w := by
  obtain ⟨u, hu, huw⟩ := h
  exact ⟨u, by simp [hu], huw⟩

theorem reachedFrom_append {sources sources' : List Nat} {w : Nat} :
    ReachedFrom next (sources ++ sources') w ↔ ReachedFrom next sources w ∨ ReachedFrom next sources' w := by
  simp only [ReachedFrom, List.mem_append, or_and_right, exists_or]

theorem ReachedFrom.mono {sources sources' : List Nat} (h : ∀ v ∈ sources, v ∈ sources') {w : Nat}
    (hw : ReachedFrom next sources w) : ReachedFrom next sources' w := by
  obtain ⟨v, hv, hvw⟩ := hw
  exact ⟨v, h v hv, hvw⟩

/-- What can be reached from all that can be reached is nothing new. -/
theorem reachedFrom_of_reached {sources reached : List Nat} (h : ∀ v, v ∈ reached ↔ ReachedFrom next sources v)
    {w : Nat} : ReachedFrom next reached w ↔ ReachedFrom next sources w := by
  constructor
  · rintro ⟨v, hv, hvw⟩
    obtain ⟨u, hu, huv⟩ := (h v).mp hv
    exact ⟨u, hu, huv.trans hvw⟩
  · intro hw
    exact ⟨w, (h w).mpr hw, .refl w⟩

/-- All that a search collects was there before or can be reached. -/
theorem collect?_sound {found result : Std.TreeSet Nat} {pending : List Nat}
    (h : collect? size next found pending = some result) {w : Nat} (hw : w ∈ result) :
    w ∈ found ∨ w < size ∧ ReachedFrom next pending w := by
  fun_induction collect? size next found pending with
  | case1 =>
    cases h
    exact .inl hw
  | case2 found v rest hv ih => exact (ih h).imp_right fun ⟨hlt, hr⟩ => ⟨hlt, hr.cons⟩
  | case3 found v rest hv hlt ih =>
    rcases ih h with hf | ⟨hlt, hr⟩
    · rcases Std.TreeSet.mem_insert.mp hf with hvw | hf
      · obtain rfl := Std.LawfulEqOrd.eq_of_compare hvw
        exact .inr ⟨hlt, .of_mem (by simp)⟩
      · exact .inl hf
    · exact .inr ⟨hlt, hr.expand⟩
  | case4 => cases h

/-- A search collects what was there before, what it is given, and all successors of what it adds. -/
theorem collect?_complete {found result : Std.TreeSet Nat} {pending : List Nat}
    (h : collect? size next found pending = some result) :
    (∀ w ∈ found, w ∈ result) ∧ (∀ w ∈ pending, w ∈ result) ∧
      ∀ v ∈ result, v ∈ found ∨ ∀ w ∈ next v, w ∈ result := by
  fun_induction collect? size next found pending with
  | case1 =>
    cases h
    exact ⟨fun _ hw => hw, by simp, fun _ hv => .inl hv⟩
  | case2 found v rest hv ih =>
    obtain ⟨hfound, hrest, hclosed⟩ := ih h
    refine ⟨hfound, fun w hw => ?_, hclosed⟩
    rcases List.mem_cons.mp hw with rfl | hw
    · exact hfound _ hv
    · exact hrest w hw
  | case3 found v rest hv hlt ih =>
    obtain ⟨hfound, hrest, hclosed⟩ := ih h
    have hvr : v ∈ result := hfound v (by simp)
    refine ⟨fun w hw => hfound w (by simp [hw]), fun w hw => ?_, fun u hu => ?_⟩
    · rcases List.mem_cons.mp hw with rfl | hw
      · exact hvr
      · exact hrest w (by simp [hw])
    · rcases hclosed u hu with hf | hn
      · rcases Std.TreeSet.mem_insert.mp hf with hvu | hf
        · obtain rfl := Std.LawfulEqOrd.eq_of_compare hvu
          exact .inr fun w hw => hrest w (by simp [hw])
        · exact .inl hf
      · exact .inr hn
  | case4 => cases h

/-- A search fails only on a vertex out of range that it can reach. -/
theorem collect?_eq_none {found : Std.TreeSet Nat} {pending : List Nat}
    (h : collect? size next found pending = none) : ∃ w, size ≤ w ∧ ReachedFrom next pending w := by
  fun_induction collect? size next found pending with
  | case1 => cases h
  | case2 found v rest hv ih =>
    obtain ⟨w, hw, hr⟩ := ih h
    exact ⟨w, hw, hr.cons⟩
  | case3 found v rest hv hlt ih =>
    obtain ⟨w, hw, hr⟩ := ih h
    exact ⟨w, hw, hr.expand⟩
  | case4 found v rest hv hlt => exact ⟨v, by omega, .of_mem (by simp)⟩

theorem mem_reach? {sources : List Nat} {result : SortedSet Nat}
    (h : reach? size next sources = some result) {w : Nat} :
    w ∈ result ↔ ReachedFrom next sources w := by
  obtain ⟨tree, htree, rfl⟩ := Option.map_eq_some_iff.mp h
  obtain ⟨_, hsources, hclosed⟩ := collect?_complete htree
  rw [SortedSet.mem_ofTree]
  constructor
  · intro hw
    rcases collect?_sound htree hw with hf | ⟨_, hr⟩
    · simp at hf
    · exact hr
  · rintro ⟨v, hv, hvw⟩
    refine hvw.mem_of_closed (S := {u | u ∈ tree}) (fun u hu x hx => ?_) (hsources v hv)
    rcases hclosed u hu with hf | hn
    · simp at hf
    · exact hn x hx

/-- A search answers the set of what its sources reach, if all of that is in range. -/
theorem reach?_eq_some_iff {sources : List Nat} {result : SortedSet Nat} :
    reach? size next sources = some result ↔
      (∀ w, w ∈ result ↔ ReachedFrom next sources w) ∧ ∀ w ∈ result, w < size := by
  constructor
  · intro h
    refine ⟨fun w => mem_reach? h, fun w hw => ?_⟩
    obtain ⟨tree, htree, rfl⟩ := Option.map_eq_some_iff.mp h
    rcases collect?_sound htree (SortedSet.mem_ofTree.mp hw) with hf | ⟨hlt, _⟩
    · simp at hf
    · exact hlt
  · rintro ⟨hmem, hrange⟩
    cases h : reach? size next sources with
    | some other => rw [SortedSet.ext fun w => (mem_reach? h).trans (hmem w).symm]
    | none =>
      obtain ⟨w, hw, hr⟩ := collect?_eq_none (Option.map_eq_none_iff.mp h)
      have := hrange w ((hmem w).mpr hr)
      omega

/-- A search fails if and only if it reaches a vertex out of range. -/
theorem reach?_eq_none_iff {sources : List Nat} :
    reach? size next sources = none ↔ ∃ w, size ≤ w ∧ ReachedFrom next sources w := by
  constructor
  · intro h
    exact collect?_eq_none (Option.map_eq_none_iff.mp h)
  · rintro ⟨w, hw, hr⟩
    cases h : reach? size next sources with
    | none => rfl
    | some result =>
      obtain ⟨hmem, hrange⟩ := reach?_eq_some_iff.mp h
      have := hrange w ((hmem w).mpr hr)
      omega

/-- A search sees no more of its sources than what they reach. -/
theorem reach?_congr {sources sources' : List Nat}
    (h : ∀ w, ReachedFrom next sources w ↔ ReachedFrom next sources' w) :
    reach? size next sources = reach? size next sources' := by
  ext result
  rw [reach?_eq_some_iff, reach?_eq_some_iff]
  simp only [h]

/-- The order and the repetition of the sources do not matter. -/
theorem reach?_congr_mem {sources sources' : List Nat} (h : ∀ v, v ∈ sources ↔ v ∈ sources') :
    reach? size next sources = reach? size next sources' :=
  reach?_congr fun _ => ⟨.mono fun v hv => (h v).mp hv, .mono fun v hv => (h v).mpr hv⟩

/-- A search from vertices in range along edges that stay in range succeeds. -/
theorem exists_reach? {sources : List Nat} (hsources : ∀ v ∈ sources, v < size)
    (hnext : ∀ v < size, ∀ w ∈ next v, w < size) :
    ∃ result, reach? size next sources = some result := by
  cases h : reach? size next sources with
  | some result => exact ⟨result, rfl⟩
  | none =>
    obtain ⟨w, hw, v, hv, hvw⟩ := collect?_eq_none (Option.map_eq_none_iff.mp h)
    have : w < size := hvw.mem_of_closed (S := {u | u < size}) hnext (hsources v hv)
    omega

variable {colour v : Nat} {marks : Array (Option Nat)} {pending : List Nat}

/-- Some pending vertex leads to `v`, and nothing on the way is marked yet. -/
def Paints (next : Nat → List Nat) (marks : Array (Option Nat)) (pending : List Nat) (v : Nat) : Prop :=
  ∃ p ∈ pending, marks[p]? = some none ∧
    Relation.ReflTransGen (fun a b => b ∈ next a ∧ marks[b]? = some none) p v

theorem Paints.unmarked (h : Paints next marks pending v) : marks[v]? = some none := by
  obtain ⟨p, -, hp, hpath⟩ := h
  induction hpath with
  | refl => exact hp
  | tail _ hedge _ => exact hedge.2

theorem getElem?_setIfInBounds_some (hv : marks[v]? = some none) (w : Nat) :
    (marks.setIfInBounds v (some colour))[w]? = if v = w then some (some colour) else marks[w]? := by
  rw [Array.getElem?_setIfInBounds, if_pos (Array.getElem?_eq_some_iff.mp hv).1]

theorem Paints.of_setIfInBounds {rest : List Nat} {w : Nat} (hv : marks[v]? = some none)
    (h : Paints next (marks.setIfInBounds v (some colour)) (next v ++ rest) w) :
    Paints next marks (v :: rest) w := by
  have hold (b : Nat) (hb : (marks.setIfInBounds v (some colour))[b]? = some none) :
      marks[b]? = some none := by
    rw [getElem?_setIfInBounds_some hv] at hb
    split at hb
    · cases hb
    · exact hb
  obtain ⟨p, hp, hpnone, hpath⟩ := h
  have hpath : Relation.ReflTransGen (fun a b => b ∈ next a ∧ marks[b]? = some none) p w :=
    hpath.lift id fun a b hedge => ⟨hedge.1, hold b hedge.2⟩
  rcases List.mem_append.mp hp with hp | hp
  · exact ⟨v, by simp, hv, .head ⟨hp, hold p hpnone⟩ hpath⟩
  · exact ⟨p, by simp [hp], hold p hpnone, hpath⟩

/-- Painting changes only what it can reach past marks. -/
theorem paint?_sound {result : Array (Option Nat)} (h : paint? next colour marks pending = some result)
    (w : Nat) : result[w]? = marks[w]? ∨
      Paints next marks pending w ∧ result[w]? = some (some colour) := by
  fun_induction paint? next colour marks pending with
  | case1 =>
    cases h
    exact .inl rfl
  | case2 => cases h
  | case3 marks v rest hv ih =>
    rcases ih h with heq | ⟨hpaints, hcolour⟩
    · rw [heq, getElem?_setIfInBounds_some hv]
      by_cases hw : v = w
      · subst hw
        exact .inr ⟨⟨v, by simp, hv, .refl⟩, if_pos rfl⟩
      · exact .inl (if_neg hw)
    · exact .inr ⟨hpaints.of_setIfInBounds hv, hcolour⟩
  | case4 marks v rest _ hv ih =>
    exact (ih h).imp_right fun ⟨⟨p, hp, hpath⟩, hcolour⟩ => ⟨⟨p, by simp [hp], hpath⟩, hcolour⟩

/-- What is marked stays marked. -/
theorem paint?_marked {result : Array (Option Nat)} (h : paint? next colour marks pending = some result)
    {w : Nat} (hw : marks[w]? ≠ some none) : result[w]? ≠ some none := by
  rcases paint?_sound h w with heq | ⟨-, heq⟩
  · rwa [heq]
  · rw [heq]
    simp

/-- Painting marks what it is given, and all successors of what it marks. -/
theorem paint?_complete {result : Array (Option Nat)} (h : paint? next colour marks pending = some result) :
    (∀ p ∈ pending, result[p]? ≠ some none) ∧
      ∀ w, result[w]? ≠ marks[w]? → ∀ x ∈ next w, result[x]? ≠ some none := by
  fun_induction paint? next colour marks pending with
  | case1 =>
    cases h
    simp
  | case2 => cases h
  | case3 marks v rest hv ih =>
    obtain ⟨hpending, hclosed⟩ := ih h
    refine ⟨fun p hp => ?_, fun w hw x hx => ?_⟩
    · rcases List.mem_cons.mp hp with rfl | hp
      · refine paint?_marked h ?_
        rw [getElem?_setIfInBounds_some hv, if_pos rfl]
        simp
      · exact hpending p (by simp [hp])
    · by_cases hvw : v = w
      · subst hvw
        exact hpending x (by simp [hx])
      · refine hclosed w ?_ x hx
        rwa [getElem?_setIfInBounds_some hv, if_neg hvw]
  | case4 marks v rest _ hv ih =>
    obtain ⟨hpending, hclosed⟩ := ih h
    refine ⟨fun p hp => ?_, hclosed⟩
    rcases List.mem_cons.mp hp with rfl | hp
    · refine paint?_marked h ?_
      rw [hv]
      simp
    · exact hpending p hp

theorem paint?_getElem?_of_not_paints {result : Array (Option Nat)}
    (h : paint? next colour marks pending = some result) (hv : ¬ Paints next marks pending v) :
    result[v]? = marks[v]? :=
  (paint?_sound h v).resolve_right fun hpaints => hv hpaints.1

theorem paint?_getElem?_of_paints {result : Array (Option Nat)}
    (h : paint? next colour marks pending = some result) (hv : Paints next marks pending v) :
    result[v]? = some (some colour) := by
  have hmarked : result[v]? ≠ some none := by
    obtain ⟨p, hp, hpnone, hpath⟩ := hv
    obtain ⟨hpending, hclosed⟩ := paint?_complete h
    have hchanged : marks[v]? = some none ∧ result[v]? ≠ some none := by
      induction hpath with
      | refl => exact ⟨hpnone, hpending p hp⟩
      | tail _ hedge ih =>
        exact ⟨hedge.2, hclosed _ (by rw [ih.1]; exact ih.2) _ hedge.1⟩
    exact hchanged.2
  rcases paint?_sound h v with heq | ⟨-, heq⟩
  · rw [heq, hv.unmarked] at hmarked
    exact absurd rfl hmarked
  · exact heq

/-- Painting from vertices in range along edges that stay in range succeeds, and keeps a mark for each vertex. -/
theorem exists_paint? (hpending : ∀ p ∈ pending, p < marks.size)
    (hnext : ∀ v < marks.size, ∀ w ∈ next v, w < marks.size) :
    ∃ result, paint? next colour marks pending = some result ∧ result.size = marks.size := by
  fun_induction paint? next colour marks pending with
  | case1 marks => exact ⟨marks, rfl, rfl⟩
  | case2 marks v rest hv =>
    have hlt := hpending v (by simp)
    rw [Array.getElem?_eq_getElem hlt] at hv
    cases hv
  | case3 marks v rest hv ih =>
    rw [Array.size_setIfInBounds] at ih
    refine ih (fun p hp => ?_) hnext
    rcases List.mem_append.mp hp with hp | hp
    · exact hnext v (hpending v (by simp)) p hp
    · exact hpending p (by simp [hp])
  | case4 marks v rest _ hv ih => exact ih (fun p hp => hpending p (by simp [hp])) hnext

end FiniteAutomata.Search
