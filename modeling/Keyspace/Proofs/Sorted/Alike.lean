import Keyspace.Sorted.Map
import Mathlib.Data.List.Forall2

/-!
# Sets that compare equal

Members that compare equal need not be equal, and the same is true of sets of them.  Sets compare
equal if their members do so one by one (`compare_eq_eq_iff`), and the operations cannot tell such
sets apart: they have as many members, contain the same, and stay alike when alike members are
removed or inserted.  A map finds one value at all keys that compare equal (`find?_congr`).
-/

namespace Keyspace

open Std (TransCmp TransOrd OrientedCmp)

variable {α : Type} [Ord α]

/-! ### Lists -/

/-- Lists that compare equal do so element by element. -/
theorem forall₂_of_compare_list_eq :
    ∀ {as bs : List α}, compare as bs = .eq →
      List.Forall₂ (fun a b => compare a b = .eq) as bs := by
  intro as
  induction as with
  | nil =>
    intro bs h
    rw [List.compare_nil_left_eq_eq.mp h]
    exact .nil
  | cons a as ih =>
    intro bs h
    cases bs with
    | nil => exact absurd h (by simp)
    | cons b bs =>
      rw [List.compare_cons_cons, Ordering.then_eq_eq] at h
      exact .cons h.1 (ih h.2)

theorem compare_list_eq_eq_iff {as bs : List α} :
    compare as bs = .eq ↔ List.Forall₂ (fun a b => compare a b = .eq) as bs := by
  refine ⟨forall₂_of_compare_list_eq, fun h => ?_⟩
  induction h with
  | nil => exact List.compare_nil_left_eq_eq.mpr rfl
  | cons hab _ ih => rw [List.compare_cons_cons, hab, ih, Ordering.eq_then]

/-- Lists compare as their first elements do, unless these compare equal. -/
theorem compare_list_eq_of_forall {as as' : List α} {o : Ordering} (has : as ≠ []) (has' : as' ≠ [])
    (ho : o ≠ .eq) (h : ∀ a ∈ as, ∀ a' ∈ as', compare a a' = o) : compare as as' = o := by
  obtain ⟨a, as, rfl⟩ := List.exists_cons_of_ne_nil has
  obtain ⟨a', as', rfl⟩ := List.exists_cons_of_ne_nil has'
  rw [List.compare_cons_cons, h a List.mem_cons_self a' List.mem_cons_self]
  cases o with
  | eq => exact absurd rfl ho
  | lt | gt => rfl

/-- Lists of related elements compare the same way, if related elements do. -/
theorem compare_list_congr {β : Type} [Ord β] {R S : α → β → Prop}
    (h : ∀ a a' b b', R a b → S a' b' → compare a a' = compare b b') {as as' : List α}
    {bs bs' : List β} (hR : List.Forall₂ R as bs) (hS : List.Forall₂ S as' bs') :
    compare as as' = compare bs bs' := by
  induction hR generalizing as' bs' with
  | nil => cases hS <;> rfl
  | cons hab _ ih =>
    cases hS with
    | nil => rfl
    | cons hab' hS => rw [List.compare_cons_cons, List.compare_cons_cons, h _ _ _ _ hab hab', ih hS]

/-! ### Sets -/

namespace SortedSet

variable {s t s' t' : SortedSet α} {a b : α}

/-- Sets compare equal member by member. -/
theorem compare_eq_eq_iff :
    compare s t = .eq ↔ List.Forall₂ (fun a b => compare a b = .eq) s.toList t.toList :=
  compare_list_eq_eq_iff

theorem isEmpty_congr (h : compare s t = .eq) : s.isEmpty = t.isEmpty := by
  have hlists := compare_eq_eq_iff.mp h
  rw [isEmpty, isEmpty]
  generalize s.toList = as, t.toList = bs at hlists
  cases hlists <;> rfl

variable [TransOrd α]

theorem contains_congr (h : compare s t = .eq) (hab : compare a b = .eq) :
    s.contains a = t.contains b := by
  have hlists := compare_eq_eq_iff.mp h
  rw [contains, contains]
  generalize s.toList = as, t.toList = bs at hlists
  induction hlists with
  | nil => rfl
  | @cons x y _ _ hxy _ ih =>
    rw [List.any_cons, List.any_cons, ih, TransCmp.congr_left hab, TransCmp.congr_right hxy]

theorem difference_congr (h : compare s t = .eq) (h' : compare s' t' = .eq) :
    compare (s.difference s') (t.difference t') = .eq := by
  have hlists := compare_eq_eq_iff.mp h
  refine compare_eq_eq_iff.mpr ?_
  rw [difference, difference, toList_filter, toList_filter]
  refine List.rel_filter (fun a b hab => ?_) hlists
  show (!s'.contains a) = true ↔ (!t'.contains b) = true
  rw [contains_congr h' hab]

theorem forall₂_insertInto {as bs : List α}
    (h : List.Forall₂ (fun a b => compare a b = .eq) as bs) (hab : compare a b = .eq) :
    List.Forall₂ (fun a b => compare a b = .eq) (insertInto a as) (insertInto b bs) := by
  induction h with
  | nil => exact .cons hab .nil
  | @cons x y _ _ hxy hrest ih =>
    -- both insertions take the same branch
    have hbranch : compare a x = compare b y := by
      rw [TransCmp.congr_left hab, TransCmp.congr_right hxy]
    rw [insertInto, insertInto, ← hbranch]
    cases compare a x with
    | lt => exact .cons hab (.cons hxy hrest)
    | eq => exact .cons hxy hrest
    | gt => exact .cons hxy ih

theorem insert_congr (h : compare s t = .eq) (hab : compare a b = .eq) :
    compare (s.insert a) (t.insert b) = .eq :=
  compare_eq_eq_iff.mpr (forall₂_insertInto (compare_eq_eq_iff.mp h) hab)

theorem foldl_insert_congr {as bs : List α} (h : compare s t = .eq)
    (hlists : List.Forall₂ (fun a b => compare a b = .eq) as bs) :
    compare (as.foldl insert s) (bs.foldl insert t) = .eq := by
  induction hlists generalizing s t with
  | nil => exact h
  | cons hab _ ih => exact ih (insert_congr h hab)

end SortedSet

/-! ### Maps -/

theorem SortedMap.find?_congr [TransOrd α] {ν : Type} {m : SortedMap α ν} {a b : α}
    (h : compare a b = .eq) : m.find? a = m.find? b := by
  rw [find?, find?]
  congr 2
  funext e
  rw [TransCmp.congr_left h]

end Keyspace
