import Std.Data.TreeSet

/-!
# Finite sets in ascending order

`SortedSet` lists the members of a finite set once each, smallest first. The representation is
canonical: two sets with the same members are equal (`SortedSet.ext`), so sets can be compared,
numbered and printed through their lists.
-/
namespace FiniteAutomata

/-- A finite set, held as the strictly ascending list of its members. -/
structure SortedSet (α : Type) [Ord α] where
  toList : List α
  ascending : toList.Pairwise fun a b => compare a b = .lt

namespace SortedSet

variable {α : Type} [Ord α]

instance : Membership α (SortedSet α) := ⟨fun s a => a ∈ s.toList⟩

theorem mem_def {s : SortedSet α} {a : α} : a ∈ s ↔ a ∈ s.toList := Iff.rfl

theorem toList_injective : ∀ {s t : SortedSet α}, s.toList = t.toList → s = t
  | ⟨_, _⟩, ⟨_, _⟩, rfl => rfl

instance [DecidableEq α] : DecidableEq (SortedSet α) := fun s t =>
  decidable_of_iff (s.toList = t.toList) ⟨toList_injective, congrArg toList⟩

/-- Sets are ordered like their lists. -/
instance : Ord (SortedSet α) := ⟨compareOn toList⟩

instance [Std.TransOrd α] : Std.TransOrd (SortedSet α) :=
  inferInstanceAs (Std.TransCmp (compareOn toList))

instance [Std.LawfulEqOrd α] : Std.LawfulEqOrd (SortedSet α) where
  compare_self := Std.ReflOrd.compare_self (α := List α)
  eq_of_compare h := toList_injective (Std.LawfulEqOrd.eq_of_compare h)

instance [DecidableEq α] (a : α) (s : SortedSet α) : Decidable (a ∈ s) :=
  inferInstanceAs (Decidable (a ∈ s.toList))

def empty : SortedSet α := ⟨[], .nil⟩

instance : EmptyCollection (SortedSet α) := ⟨empty⟩

instance : Inhabited (SortedSet α) := ⟨empty⟩

@[simp] theorem not_mem_empty (a : α) : a ∉ (∅ : SortedSet α) := List.not_mem_nil

def isEmpty (s : SortedSet α) : Bool := s.toList.isEmpty

def size (s : SortedSet α) : Nat := s.toList.length

/-- Puts `a` in its place in an ascending list, unless the list already has it. -/
def insertInto (a : α) : List α → List α
  | [] => [a]
  | b :: rest =>
    match compare a b with
    | .lt => a :: b :: rest
    | .eq => b :: rest
    | .gt => b :: insertInto a rest

variable [Std.TransOrd α] [Std.LawfulEqOrd α]

omit [Std.TransOrd α] in
theorem mem_insertInto {a x : α} {l : List α} : x ∈ insertInto a l ↔ x = a ∨ x ∈ l := by
  induction l with
  | nil => simp [insertInto]
  | cons b rest ih =>
    unfold insertInto
    split
    · simp
    · next h => simp [Std.LawfulEqOrd.eq_of_compare h]
    · simp [ih, or_left_comm]

theorem insertInto_ascending {a : α} {l : List α}
    (h : l.Pairwise fun x y => compare x y = .lt) :
    (insertInto a l).Pairwise fun x y => compare x y = .lt := by
  induction l with
  | nil => simp [insertInto]
  | cons b rest ih =>
    have hb := List.pairwise_cons.mp h
    unfold insertInto
    split
    · next hlt =>
      refine List.pairwise_cons.mpr ⟨fun y hy => ?_, h⟩
      rcases List.mem_cons.mp hy with rfl | hy
      · exact hlt
      · exact Std.TransCmp.lt_trans hlt (hb.1 y hy)
    · exact h
    · next hgt =>
      refine List.pairwise_cons.mpr ⟨fun y hy => ?_, ih hb.2⟩
      rcases mem_insertInto.mp hy with rfl | hy
      · exact Std.OrientedCmp.gt_iff_lt.mp hgt
      · exact hb.1 y hy

def insert (a : α) (s : SortedSet α) : SortedSet α :=
  ⟨insertInto a s.toList, insertInto_ascending s.ascending⟩

@[simp] theorem mem_insert {a x : α} {s : SortedSet α} : x ∈ s.insert a ↔ x = a ∨ x ∈ s :=
  mem_insertInto

/-- The set of the members of `l`, whatever their order and repetition. -/
def ofList (l : List α) : SortedSet α := l.foldr insert ∅

@[simp] theorem mem_ofList {l : List α} {x : α} : x ∈ ofList l ↔ x ∈ l := by
  induction l with
  | nil => simp [ofList]
  | cons a l ih => simpa [ofList] using or_congr Iff.rfl ih

def ofTree (t : Std.TreeSet α) : SortedSet α := ⟨t.toList, t.ordered_toList⟩

@[simp] theorem mem_ofTree {t : Std.TreeSet α} {a : α} : a ∈ ofTree t ↔ a ∈ t :=
  Std.TreeSet.mem_toList

/-- What two ascending lists have in common. -/
def common : List α → List α → List α
  | [], _ => []
  | _, [] => []
  | a :: s, b :: t =>
    match compare a b with
    | .lt => common s (b :: t)
    | .eq => a :: common s t
    | .gt => common (a :: s) t
termination_by s t => s.length + t.length

omit [Std.TransOrd α] [Std.LawfulEqOrd α] in
theorem common_sublist (s t : List α) : (common s t).Sublist s := by
  fun_induction common s t with
  | case1 => exact .slnil
  | case2 => exact List.nil_sublist _
  | case3 _ _ _ _ _ ih => exact ih.cons _
  | case4 _ _ _ _ _ ih => exact ih.cons_cons _
  | case5 _ _ _ _ _ ih => exact ih

omit [Std.TransOrd α] in
theorem not_mem_of_lt {a : α} {l : List α} (h : ∀ y ∈ l, compare a y = .lt) : a ∉ l :=
  fun ha => by simpa using h a ha

theorem mem_common {s t : List α} (hs : s.Pairwise fun x y => compare x y = .lt)
    (ht : t.Pairwise fun x y => compare x y = .lt) {x : α} :
    x ∈ common s t ↔ x ∈ s ∧ x ∈ t := by
  fun_induction common s t with
  | case1 => simp
  | case2 => simp
  | case3 a s b t h ih =>
    have hb := List.pairwise_cons.mp ht
    rw [ih (List.pairwise_cons.mp hs).2 ht, List.mem_cons (a := x) (b := a)]
    refine ⟨fun hx => ⟨.inr hx.1, hx.2⟩, fun hx => ⟨hx.1.resolve_left ?_, hx.2⟩⟩
    rintro rfl
    refine not_mem_of_lt (fun y hy => ?_) hx.2
    rcases List.mem_cons.mp hy with rfl | hy
    · exact h
    · exact Std.TransCmp.lt_trans h (hb.1 y hy)
  | case4 a s b t h ih =>
    have ha := List.pairwise_cons.mp hs
    have hb := List.pairwise_cons.mp ht
    obtain rfl := Std.LawfulEqOrd.eq_of_compare h
    have := not_mem_of_lt ha.1
    have := not_mem_of_lt hb.1
    rw [List.mem_cons, ih ha.2 hb.2, List.mem_cons, List.mem_cons]
    grind
  | case5 a s b t h ih =>
    have ha := List.pairwise_cons.mp hs
    rw [ih hs (List.pairwise_cons.mp ht).2, List.mem_cons (a := x) (b := b)]
    refine ⟨fun hx => ⟨hx.1, .inr hx.2⟩, fun hx => ⟨hx.1, hx.2.resolve_left ?_⟩⟩
    rintro rfl
    refine not_mem_of_lt (fun y hy => ?_) hx.1
    have h := Std.OrientedCmp.gt_iff_lt.mp h
    rcases List.mem_cons.mp hy with rfl | hy
    · exact h
    · exact Std.TransCmp.lt_trans h (ha.1 y hy)

def inter (s t : SortedSet α) : SortedSet α :=
  ⟨common s.toList t.toList, s.ascending.sublist (common_sublist _ _)⟩

@[simp] theorem mem_inter {s t : SortedSet α} {x : α} : x ∈ s.inter t ↔ x ∈ s ∧ x ∈ t :=
  mem_common s.ascending t.ascending

omit [Std.LawfulEqOrd α] in
theorem nodup (s : SortedSet α) : s.toList.Nodup :=
  s.ascending.imp fun h heq => by subst heq; simp at h

omit [Std.LawfulEqOrd α] in
/-- Ascending lists with the same members are the same list. -/
theorem eq_of_ascending {l l' : List α} (h : l.Pairwise fun a b => compare a b = .lt)
    (h' : l'.Pairwise fun a b => compare a b = .lt) (hmem : ∀ a, a ∈ l ↔ a ∈ l') : l = l' :=
  List.Perm.eq_of_pairwise
    (fun a b _ _ (hab : compare a b = .lt) hba => absurd hba (Std.OrientedCmp.not_lt_of_lt hab)) h h'
    ((List.perm_ext_iff_of_nodup (nodup ⟨l, h⟩) (nodup ⟨l', h'⟩)).mpr hmem)

omit [Std.LawfulEqOrd α] in
/-- Sets with the same members are the same set. -/
theorem ext {s t : SortedSet α} (h : ∀ a, a ∈ s ↔ a ∈ t) : s = t :=
  toList_injective (eq_of_ascending s.ascending t.ascending h)

end SortedSet

end FiniteAutomata
