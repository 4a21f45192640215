/-!
# Sorted sets

`SortedSet α` is a finite set written as the list of its members in ascending order.  The
comparison decides which members count as the same, and it may look at less than the whole
value: inserting a member that compares equal to one already present leaves the set as it is.

* `insert`, `erase`, `difference`, `ofList`, with `toList` as the view;
* `mem_insert` and `contains_eq_true_iff` say what the operations do to the view;
* sets are themselves ordered, by comparing their lists.
-/

namespace Keyspace

open Std (TransCmp TransOrd OrientedCmp)

universe u

/-- A finite set as the ascending list of its members. -/
structure SortedSet (α : Type u) [Ord α] where
  /-- The members, least first. -/
  toList : List α
  /-- Each member is strictly below all later ones. -/
  ascending : toList.Pairwise fun a b => compare a b = .lt

namespace SortedSet

/-! ### Insertion into an ascending list -/

section Insertion

variable {α : Type u} [Ord α]

/-- Puts `a` where it belongs, or leaves the list alone if it holds an equal member. -/
def insertInto (a : α) : List α → List α
  | [] => [a]
  | b :: rest =>
    match compare a b with
    | .lt => a :: b :: rest
    | .eq => b :: rest
    | .gt => b :: insertInto a rest

/-- Whatever an insertion adds is the inserted member. -/
theorem mem_of_mem_insertInto {a x : α} {l : List α} (h : x ∈ insertInto a l) : x = a ∨ x ∈ l := by
  induction l with
  | nil => simpa [insertInto] using h
  | cons b rest ih =>
    unfold insertInto at h
    split at h
    · simpa using h
    · exact .inr h
    · rcases List.mem_cons.mp h with rfl | h
      · exact .inr List.mem_cons_self
      · exact (ih h).imp_right (List.mem_cons_of_mem b)

/-- Insertion keeps what is there. -/
theorem mem_insertInto_of_mem {a x : α} {l : List α} (h : x ∈ l) : x ∈ insertInto a l := by
  induction l with
  | nil => simp at h
  | cons b rest ih =>
    unfold insertInto
    split
    · exact List.mem_cons_of_mem a h
    · exact h
    · rcases List.mem_cons.mp h with rfl | h
      · exact List.mem_cons_self
      · exact List.mem_cons_of_mem b (ih h)

/-- Insertion keeps the order. -/
theorem insertInto_ascending [TransOrd α] (a : α) {l : List α}
    (h : l.Pairwise fun x y => compare x y = .lt) :
    (insertInto a l).Pairwise fun x y => compare x y = .lt := by
  induction l with
  | nil => simp [insertInto]
  | cons b rest ih =>
    obtain ⟨below, tail⟩ := List.pairwise_cons.mp h
    unfold insertInto
    split
    next hab =>
      refine List.pairwise_cons.mpr ⟨fun y hy => ?_, h⟩
      rcases List.mem_cons.mp hy with rfl | hy
      · exact hab
      · exact TransCmp.lt_trans hab (below y hy)
    next => exact h
    next hab =>
      refine List.pairwise_cons.mpr ⟨fun y hy => ?_, ih tail⟩
      rcases mem_of_mem_insertInto hy with rfl | hy
      · exact OrientedCmp.gt_iff_lt.mp hab
      · exact below y hy

end Insertion

variable {α : Type u} [Ord α]

/-! ### Operations -/

/-- The set without members. -/
def empty : SortedSet α := ⟨[], List.Pairwise.nil⟩

instance : EmptyCollection (SortedSet α) := ⟨empty⟩

instance : Inhabited (SortedSet α) := ⟨empty⟩

/-- Adds a member; an equal member that is already present stays. -/
def insert [TransOrd α] (s : SortedSet α) (a : α) : SortedSet α :=
  ⟨insertInto a s.toList, insertInto_ascending a s.ascending⟩

/-- The set of a list's elements; of equal elements the first one is kept. -/
def ofList [TransOrd α] (l : List α) : SortedSet α := l.foldl insert ∅

/-- Keeps the members that pass a test. -/
def filter (s : SortedSet α) (test : α → Bool) : SortedSet α :=
  ⟨s.toList.filter test, s.ascending.filter test⟩

/-- Is some member equal to `a`? -/
def contains (s : SortedSet α) (a : α) : Bool := s.toList.any fun b => compare a b == .eq

/-- Removes the member equal to `a`, if there is one. -/
def erase (s : SortedSet α) (a : α) : SortedSet α := s.filter fun b => compare a b != .eq

/-- The members of `s` that equal no member of `t`. -/
def difference (s t : SortedSet α) : SortedSet α := s.filter fun a => !t.contains a

/-- Has the set no members? -/
def isEmpty (s : SortedSet α) : Bool := s.toList.isEmpty

/-- Number of members. -/
def size (s : SortedSet α) : Nat := s.toList.length

/-- Sets are compared member by member, a set before its extensions. -/
instance : Ord (SortedSet α) := ⟨fun s t => compare s.toList t.toList⟩

instance [TransOrd α] : TransOrd (SortedSet α) where
  eq_swap {s t} := OrientedCmp.eq_swap (a := s.toList) (b := t.toList)
  isLE_trans {s t u} := TransCmp.isLE_trans (a := s.toList) (b := t.toList) (c := u.toList)

/-! ### The view -/

@[simp]
theorem toList_empty : (∅ : SortedSet α).toList = [] := rfl

@[simp]
theorem toList_filter (s : SortedSet α) (test : α → Bool) :
    (s.filter test).toList = s.toList.filter test := rfl

theorem compare_eq_compare_toList (s t : SortedSet α) : compare s t = compare s.toList t.toList :=
  rfl

/-- A set contains `a` when one of its members compares equal to `a`. -/
theorem contains_eq_true_iff {s : SortedSet α} {a : α} :
    s.contains a = true ↔ ∃ b ∈ s.toList, compare a b = .eq := by
  simp [contains]

/-- A new member of `s.insert a` is `a`. -/
theorem mem_insert [TransOrd α] {s : SortedSet α} {a x : α} (h : x ∈ (s.insert a).toList) :
    x = a ∨ x ∈ s.toList :=
  mem_of_mem_insertInto h

end SortedSet

end Keyspace
