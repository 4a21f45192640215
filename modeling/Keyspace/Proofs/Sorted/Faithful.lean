import Keyspace.Proofs.Lists
import Keyspace.Proofs.Sorted.Alike
import Keyspace.Proofs.Sorted.Set

/-!
# Sets of faithful values

Of several members that compare equal a set keeps one, and which one depends on the order in which
they came.  Where only equal values compare equal (`Faithful`) there is nothing to choose:
`actsExactly_of_faithful` says that every operation on sets of such values has the members that its
name promises, down to what the comparison does not look at.
-/

namespace Keyspace

open Std (TransOrd ReflCmp)

variable {α : Type} [Ord α]

/-- Only equal ones among the values in question compare equal. -/
def Faithful (P : α → Prop) : Prop := ∀ a b, P a → P b → compare a b = .eq → a = b

/-- Lists of faithful values are faithful. -/
theorem Faithful.list {P : α → Prop} (h : Faithful P) : Faithful fun l : List α => ∀ a ∈ l, P a :=
  fun _ _ has hbs heq => eq_of_forall₂ (forall₂_of_compare_list_eq heq) h has hbs

namespace SortedSet

/-- All members are among the values in question. -/
def HoldsOnly (P : α → Prop) (s : SortedSet α) : Prop := ∀ a ∈ s.toList, P a

variable [TransOrd α]

/-- On sets of the values in question, comparisons find equal sets and equal members, and operations
have the very members that went into them. -/
structure ActsExactly (P : α → Prop) : Prop where
  eq_of_compare_eq : ∀ s t : SortedSet α, s.HoldsOnly P → t.HoldsOnly P → compare s t = .eq → s = t
  contains_iff : ∀ (s : SortedSet α) (a : α), s.HoldsOnly P → P a →
    (s.contains a = true ↔ a ∈ s.toList)
  mem_ofList_iff : ∀ l : List α, (∀ a ∈ l, P a) → ∀ x, x ∈ (ofList l).toList ↔ x ∈ l
  mem_insert_iff : ∀ (s : SortedSet α) (a : α), s.HoldsOnly P → P a →
    ∀ x, x ∈ (s.insert a).toList ↔ x = a ∨ x ∈ s.toList
  mem_erase_iff : ∀ (s : SortedSet α) (a : α), s.HoldsOnly P → P a →
    ∀ x, x ∈ (s.erase a).toList ↔ x ∈ s.toList ∧ x ≠ a
  mem_difference_iff : ∀ s t : SortedSet α, s.HoldsOnly P → t.HoldsOnly P →
    ∀ x, x ∈ (s.difference t).toList ↔ x ∈ s.toList ∧ x ∉ t.toList

variable {P : α → Prop} (h : Faithful P)
include h

/-- An inserted value is a member itself. -/
theorem mem_insert_iff_of_faithful {s : SortedSet α} {a x : α} (hs : s.HoldsOnly P) (ha : P a) :
    x ∈ (s.insert a).toList ↔ x = a ∨ x ∈ s.toList := by
  refine ⟨mem_insert, ?_⟩
  rintro (rfl | hx)
  · -- whatever stands in its place compares equal to it
    obtain ⟨b, hb, heq⟩ := exists_mem_insertInto x s.toList
    have hPb : P b := by
      rcases mem_of_mem_insertInto hb with rfl | hb
      · exact ha
      · exact hs b hb
    rw [h x b ha hPb heq] at hb ⊢
    exact hb
  · exact mem_insertInto_of_mem hx

/-- Among faithful values it makes no difference which of several equal members a set keeps. -/
theorem actsExactly_of_faithful : ActsExactly P where
  eq_of_compare_eq := by
    intro s t hs ht heq
    apply eq_of_toList_eq
    -- sets compare as their lists do
    exact h.list _ _ hs ht heq
  contains_iff := by
    intro s a hs ha
    rw [contains_eq_true_iff]
    constructor
    · rintro ⟨b, hb, heq⟩
      rwa [h a b ha (hs b hb) heq]
    · exact fun hmem => ⟨a, hmem, ReflCmp.compare_self⟩
  mem_ofList_iff := by
    intro l hl x
    exact mem_toList_ofList_of_faithful fun a ha b hb => h a b (hl a ha) (hl b hb)
  mem_insert_iff := fun s a hs ha x => mem_insert_iff_of_faithful h hs ha
  mem_erase_iff := by
    intro s a hs ha x
    rw [mem_toList_erase]
    refine and_congr_right fun hx => not_congr ⟨fun heq => ?_, ?_⟩
    · exact (h a x ha (hs x hx) heq).symm
    · rintro rfl
      exact ReflCmp.compare_self
  mem_difference_iff := by
    intro s t hs ht x
    rw [mem_toList_difference]
    refine and_congr_right fun hx => ⟨fun hne hmem => hne x hmem ReflCmp.compare_self, ?_⟩
    intro hnot y hy heq
    exact hnot (h x y (hs x hx) (ht y hy) heq ▸ hy)

end SortedSet

end Keyspace
