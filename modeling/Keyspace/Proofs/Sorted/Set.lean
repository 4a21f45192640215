import Keyspace.Sorted.Set
import Mathlib.Data.List.Perm.Subperm

/-!
# Members of sorted sets

A set has no other members than the list it was made from (`mem_of_mem_toList_ofList`), and for
every element of the list one that compares equal (`exists_mem_toList_ofList`).  If only equal
elements of the list compare equal, the set has exactly its elements
(`mem_toList_ofList_of_faithful`).

No member is listed twice (`nodup_toList`), there is one ascending list for given members
(`eq_of_ascending_of_mem_iff`, `forall₂_of_ascending`), so that the order of the list makes no
difference (`ofList_eq_of_perm`), and an ascending list stays as it is
(`toList_ofList_of_ascending`).  Further members leave the others in their order
(`sublist_of_ascending_of_subset`).  Members that are taken out of a set can be put back
(`union_difference`).
-/

namespace Keyspace.SortedSet

open Std (TransCmp TransOrd LawfulEqOrd ReflOrd LawfulEqCmp ReflCmp OrientedCmp)

variable {α : Type} [Ord α]

theorem eq_of_toList_eq {s t : SortedSet α} (h : s.toList = t.toList) : s = t := by
  cases s
  cases t
  obtain rfl : _ = _ := h
  rfl

/-! ### The set of a list -/

section OfList

variable [TransOrd α] {x : α} {l : List α}

theorem mem_of_mem_toList_ofList (h : x ∈ (ofList l).toList) : x ∈ l := by
  suffices general : ∀ (l : List α) (s : SortedSet α),
      x ∈ (l.foldl insert s).toList → x ∈ s.toList ∨ x ∈ l by
    simpa using general l ∅ h
  intro l
  induction l with
  | nil => exact fun s h => .inl h
  | cons a rest ih =>
    intro s h
    rcases ih (s.insert a) h with h | h
    · rcases mem_insert h with rfl | h
      · exact .inr List.mem_cons_self
      · exact .inl h
    · exact .inr (List.mem_cons_of_mem a h)

/-- An inserted element is a member, or some equal member was there before. -/
theorem exists_mem_insertInto (a : α) (l : List α) :
    ∃ b ∈ insertInto a l, compare a b = .eq := by
  induction l with
  | nil => exact ⟨a, List.mem_singleton_self a, ReflCmp.compare_self⟩
  | cons b rest ih =>
    unfold insertInto
    split
    · exact ⟨a, List.mem_cons_self, ReflCmp.compare_self⟩
    next heq => exact ⟨b, List.mem_cons_self, heq⟩
    · obtain ⟨c, hc, heq⟩ := ih
      exact ⟨c, List.mem_cons_of_mem b hc, heq⟩

theorem exists_mem_toList_ofList (h : x ∈ l) : ∃ y ∈ (ofList l).toList, compare x y = .eq := by
  -- what is a member stays one
  have stays : ∀ (l : List α) (s : SortedSet α) (y : α), y ∈ s.toList →
      y ∈ (l.foldl insert s).toList := by
    intro l
    induction l with
    | nil => exact fun s y hy => hy
    | cons a rest ih => exact fun s y hy => ih (s.insert a) y (mem_insertInto_of_mem hy)
  suffices general : ∀ (l : List α) (s : SortedSet α), x ∈ l →
      ∃ y ∈ (l.foldl insert s).toList, compare x y = .eq from general l ∅ h
  intro l
  induction l with
  | nil => exact fun s h => absurd h List.not_mem_nil
  | cons a rest ih =>
    intro s h
    rcases List.mem_cons.mp h with rfl | h
    · obtain ⟨y, hy, heq⟩ := exists_mem_insertInto x s.toList
      exact ⟨y, stays rest (s.insert x) y hy, heq⟩
    · exact ih (s.insert a) h

/-- If only equal elements of a list compare equal, its set has these and no other members. -/
theorem mem_toList_ofList_of_faithful (h : ∀ a ∈ l, ∀ b ∈ l, compare a b = .eq → a = b) :
    x ∈ (ofList l).toList ↔ x ∈ l := by
  constructor
  · exact mem_of_mem_toList_ofList
  · intro hx
    obtain ⟨y, hy, heq⟩ := exists_mem_toList_ofList hx
    rwa [h x hx y (mem_of_mem_toList_ofList hy) heq]

/-- The set of a list's elements has these and no other members. -/
theorem mem_toList_ofList [LawfulEqOrd α] : x ∈ (ofList l).toList ↔ x ∈ l :=
  mem_toList_ofList_of_faithful fun _ _ _ _ => LawfulEqCmp.eq_of_compare

/-- A set is written as its ascending list. -/
theorem toList_ofList_of_ascending (h : l.Pairwise fun a b => compare a b = .lt) :
    (ofList l).toList = l := by
  -- what is above all members is put at the end
  have last : ∀ (a : α) (l : List α), (∀ b ∈ l, compare b a = .lt) → insertInto a l = l ++ [a] := by
    intro a l
    induction l with
    | nil => exact fun _ => rfl
    | cons b rest ih =>
      intro h
      obtain ⟨hb, hrest⟩ := List.forall_mem_cons.mp h
      rw [insertInto, OrientedCmp.gt_of_lt hb]
      exact congrArg (b :: ·) (ih hrest)
  suffices general : ∀ (l : List α) (s : SortedSet α),
      (s.toList ++ l).Pairwise (fun a b => compare a b = .lt) →
      (l.foldl insert s).toList = s.toList ++ l from general l ∅ h
  intro l
  induction l with
  | nil => exact fun s _ => (List.append_nil _).symm
  | cons a rest ih =>
    intro s hs
    have hbelow : ∀ b ∈ s.toList, compare b a = .lt := fun b hb =>
      (List.pairwise_append.mp hs).2.2 b hb a List.mem_cons_self
    have hinsert : (s.insert a).toList = s.toList ++ [a] := last a s.toList hbelow
    rw [List.append_cons, ← hinsert] at hs
    rw [List.foldl_cons, ih (s.insert a) hs, hinsert, List.append_assoc, List.singleton_append]

end OfList

/-! ### Ascending lists -/

theorem nodup_of_ascending [ReflOrd α] {l : List α} (h : l.Pairwise fun a b => compare a b = .lt) :
    l.Nodup := by
  refine h.imp fun {a b} hlt heq => ?_
  subst heq
  rw [show compare a a = .eq from ReflCmp.compare_self] at hlt
  exact absurd hlt (by decide)

theorem nodup_toList [ReflOrd α] (s : SortedSet α) : s.toList.Nodup :=
  nodup_of_ascending s.ascending

/-- The elements of an ascending list compare as their positions do. -/
theorem compare_getElem_of_ascending [TransOrd α] {l : List α}
    (h : l.Pairwise fun a b => compare a b = .lt) {i j : ℕ} (hi : i < l.length)
    (hj : j < l.length) : compare l[i] l[j] = compare i j := by
  have hasc := List.pairwise_iff_getElem.mp h
  rcases Nat.lt_trichotomy i j with hij | rfl | hji
  · rw [hasc i j hi hj hij, Nat.compare_eq_lt.mpr hij]
  · rw [Nat.compare_eq_eq.mpr rfl]
    exact ReflCmp.compare_self
  · rw [OrientedCmp.gt_of_lt (hasc j i hj hi hji), Nat.compare_eq_gt.mpr hji]

/-- Two ascending lists with the same members are the same. -/
theorem eq_of_ascending_of_mem_iff [TransOrd α] {l l' : List α}
    (h : l.Pairwise fun a b => compare a b = .lt) (h' : l'.Pairwise fun a b => compare a b = .lt)
    (hmem : ∀ a, a ∈ l ↔ a ∈ l') : l = l' := by
  have hperm : l.Perm l' :=
    (List.perm_ext_iff_of_nodup (nodup_of_ascending h) (nodup_of_ascending h')).mpr hmem
  refine hperm.eq_of_pairwise (fun a b _ _ hab hba => ?_) h h'
  rw [Std.OrientedCmp.gt_of_lt hab] at hba
  exact absurd hba (by decide)

/-- What is above the head of one list equals no head that compares equal to it. -/
theorem exists_mem_of_exists_mem_cons [TransOrd α] {a b c : α} {rest : List α}
    (hab : compare a b = .eq) (hac : compare a c = .lt) (h : ∃ d ∈ b :: rest, compare c d = .eq) :
    ∃ d ∈ rest, compare c d = .eq := by
  obtain ⟨d, hd, hcd⟩ := h
  rcases List.mem_cons.mp hd with rfl | hd
  · have hlt : compare a d = .lt := TransCmp.lt_of_lt_of_eq hac hcd
    rw [hab] at hlt
    exact absurd hlt (by decide)
  · exact ⟨d, hd, hcd⟩

/-- Two ascending lists are the same up to comparison if every member of either compares equal to
one of the other. -/
theorem forall₂_of_ascending [TransOrd α] {l l' : List α}
    (h : l.Pairwise fun a b => compare a b = .lt) (h' : l'.Pairwise fun a b => compare a b = .lt)
    (hleft : ∀ a ∈ l, ∃ b ∈ l', compare a b = .eq) (hright : ∀ b ∈ l', ∃ a ∈ l, compare b a = .eq) :
    List.Forall₂ (fun a b => compare a b = .eq) l l' := by
  induction l generalizing l' with
  | nil =>
    cases l' with
    | nil => exact .nil
    | cons b rest' =>
      obtain ⟨a, ha, -⟩ := hright b List.mem_cons_self
      exact absurd ha List.not_mem_nil
  | cons a rest ih =>
    cases l' with
    | nil =>
      obtain ⟨b, hb, -⟩ := hleft a List.mem_cons_self
      exact absurd hb List.not_mem_nil
    | cons b rest' =>
      obtain ⟨hbelow, hrest⟩ := List.pairwise_cons.mp h
      obtain ⟨hbelow', hrest'⟩ := List.pairwise_cons.mp h'
      -- the least members compare equal, since neither can be below all of the other list
      have hab : compare a b = .eq := by
        obtain ⟨b', hb', hab'⟩ := hleft a List.mem_cons_self
        obtain ⟨a', ha', hba'⟩ := hright b List.mem_cons_self
        rcases List.mem_cons.mp hb' with rfl | hb'
        · exact hab'
        rcases List.mem_cons.mp ha' with rfl | ha'
        · exact OrientedCmp.eq_symm hba'
        have hba : compare b a = .lt :=
          TransCmp.lt_of_lt_of_eq (hbelow' b' hb') (OrientedCmp.eq_symm hab')
        rw [TransCmp.lt_trans hba (hbelow a' ha')] at hba'
        exact absurd hba' (by decide)
      have hba : compare b a = .eq := OrientedCmp.eq_symm hab
      refine .cons hab (ih hrest hrest' ?_ ?_)
      · intro c hc
        exact exists_mem_of_exists_mem_cons hab (hbelow c hc)
          (hleft c (List.mem_cons_of_mem a hc))
      · intro c hc
        exact exists_mem_of_exists_mem_cons hba (hbelow' c hc)
          (hright c (List.mem_cons_of_mem b hc))

/-- An ascending list is part of every ascending list with its members. -/
theorem sublist_of_ascending_of_subset [TransOrd α] {l l' : List α}
    (h : l.Pairwise fun a b => compare a b = .lt) (h' : l'.Pairwise fun a b => compare a b = .lt)
    (hmem : l ⊆ l') : l.Sublist l' := by
  obtain ⟨part, hperm, hpart⟩ := List.subperm_of_subset (nodup_of_ascending h) hmem
  have heq : l = part :=
    eq_of_ascending_of_mem_iff h (h'.sublist hpart) fun _ => hperm.mem_iff.symm
  exact heq ▸ hpart

/-- The order of a list does not show in its set, if only equal elements compare equal. -/
theorem ofList_eq_of_perm [TransOrd α] {l l' : List α} (hperm : l.Perm l')
    (h : ∀ a ∈ l, ∀ b ∈ l, compare a b = .eq → a = b) : ofList l = ofList l' := by
  have h' : ∀ a ∈ l', ∀ b ∈ l', compare a b = .eq → a = b := fun a ha b hb =>
    h a (hperm.mem_iff.mpr ha) b (hperm.mem_iff.mpr hb)
  refine eq_of_toList_eq (eq_of_ascending_of_mem_iff (ascending _) (ascending _) fun a => ?_)
  rw [mem_toList_ofList_of_faithful h, mem_toList_ofList_of_faithful h', hperm.mem_iff]

/-- Members that compare equal are the same member. -/
theorem eq_of_compare_eq [TransOrd α] {s : SortedSet α} {a b : α} (ha : a ∈ s.toList)
    (hb : b ∈ s.toList) (heq : compare a b = .eq) : a = b := by
  obtain ⟨i, hi, rfl⟩ := List.getElem_of_mem ha
  obtain ⟨j, hj, rfl⟩ := List.getElem_of_mem hb
  have hasc := List.pairwise_iff_getElem.mp s.ascending
  rcases Nat.lt_trichotomy i j with hij | rfl | hji
  · rw [hasc i j hi hj hij] at heq
    exact absurd heq (by decide)
  · rfl
  · rw [OrientedCmp.gt_of_lt (hasc j i hj hi hji)] at heq
    exact absurd heq (by decide)

theorem ascending_of_lt {l : List ℕ} (h : l.Pairwise (· < ·)) :
    l.Pairwise fun a b => compare a b = .lt :=
  h.imp fun hlt => Nat.compare_eq_lt.mpr hlt

/-! ### Members that are added -/

section Insertion

variable [TransOrd α] {s : SortedSet α} {a x : α}

theorem contains_insert :
    (s.insert a).contains x = true ↔ s.contains x = true ∨ compare x a = .eq := by
  rw [contains_eq_true_iff, contains_eq_true_iff]
  constructor
  · rintro ⟨b, hb, hxb⟩
    rcases mem_insert hb with rfl | hb
    · exact .inr hxb
    · exact .inl ⟨b, hb, hxb⟩
  · rintro (⟨b, hb, hxb⟩ | hxa)
    · exact ⟨b, mem_insertInto_of_mem hb, hxb⟩
    · obtain ⟨b, hb, hab⟩ := exists_mem_insertInto a s.toList
      exact ⟨b, hb, TransCmp.eq_trans hxa hab⟩

theorem contains_foldl_insert {l : List α} :
    (l.foldl insert s).contains x = true ↔ s.contains x = true ∨ ∃ a ∈ l, compare x a = .eq := by
  induction l generalizing s with
  | nil => simp
  | cons a rest ih =>
    rw [List.foldl_cons, ih, contains_insert, or_assoc]
    simp only [List.mem_cons, exists_eq_or_imp]

end Insertion

/-! ### Members that are removed -/

theorem mem_toList_erase {s : SortedSet α} {a x : α} :
    x ∈ (s.erase a).toList ↔ x ∈ s.toList ∧ compare a x ≠ .eq := by
  rw [erase, toList_filter, List.mem_filter, bne_iff_ne]

theorem mem_toList_difference {s t : SortedSet α} {x : α} :
    x ∈ (s.difference t).toList ↔ x ∈ s.toList ∧ ∀ y ∈ t.toList, compare x y ≠ .eq := by
  rw [difference, toList_filter, List.mem_filter, Bool.not_eq_true', Bool.eq_false_iff, Ne,
    contains_eq_true_iff]
  simp

/-- Removing all but some members leaves these. -/
theorem difference_difference [TransOrd α] {s t : SortedSet α} (h : t.toList ⊆ s.toList) :
    s.difference (s.difference t) = t := by
  apply eq_of_toList_eq
  apply eq_of_ascending_of_mem_iff (ascending _) (ascending _)
  intro x
  rw [mem_toList_difference]
  constructor
  · rintro ⟨hx, hkept⟩
    by_contra hnot
    -- `x` itself would have been removed
    have hmem : x ∈ (s.difference t).toList :=
      mem_toList_difference.mpr ⟨hx, fun y hy heq => hnot (eq_of_compare_eq hx (h hy) heq ▸ hy)⟩
    exact hkept x hmem ReflCmp.compare_self
  · intro hx
    refine ⟨h hx, fun y hy heq => ?_⟩
    obtain ⟨hy, hne⟩ := mem_toList_difference.mp hy
    obtain rfl := eq_of_compare_eq (h hx) hy heq
    exact hne x hx ReflCmp.compare_self

/-! ### Unions -/

/-- The members of two sets; of members that compare equal, that of the first set is kept. -/
def union [TransOrd α] (s t : SortedSet α) : SortedSet α := ofList (s.toList ++ t.toList)

/-- A set and what is removed from a greater one to get it make up the greater one. -/
theorem union_difference [TransOrd α] {s t : SortedSet α} (h : s.toList ⊆ t.toList) :
    s.union (t.difference s) = t := by
  have hsub : ∀ x ∈ s.toList ++ (t.difference s).toList, x ∈ t.toList := by
    intro x hx
    rcases List.mem_append.mp hx with hx | hx
    · exact h hx
    · exact (mem_toList_difference.mp hx).1
  apply eq_of_toList_eq
  apply eq_of_ascending_of_mem_iff (ascending _) (ascending _)
  intro x
  rw [union,
    mem_toList_ofList_of_faithful fun a ha b hb => eq_of_compare_eq (hsub a ha) (hsub b hb)]
  refine ⟨hsub x, fun hx => ?_⟩
  by_cases hs : x ∈ s.toList
  · exact List.mem_append_left _ hs
  · apply List.mem_append_right
    exact mem_toList_difference.mpr ⟨hx, fun y hy heq => hs (eq_of_compare_eq hx (h hy) heq ▸ hy)⟩

end Keyspace.SortedSet
