import Keyspace.Sorted.Map

/-!
# Entries of sorted maps

A change at one key keeps all other entries, and its own entry is new or has a changed value
(`mem_alterIn`).  Keys stay as they are (`exists_key_eq_of_mem`), and afterwards there is one that
compares equal to the changed key (`exists_compare_eq`).  A map that is made from a list has no keys
but those of the list (`exists_key_eq_of_mem_ofList`).  An insertion is seen at its own key only
(`find?_insert`).
-/

namespace Keyspace.SortedMap

open Std (TransCmp TransOrd OrientedCmp ReflCmp)

variable {κ : Type} [Ord κ] {ν : Type}

section Alteration

variable {k : κ} {change : Option ν → ν}

/-- Where the entries after a change come from. -/
theorem mem_alterIn {e : κ × ν} {l : List (κ × ν)} (h : e ∈ alterIn k change l) :
    e ∈ l ∨ e = (k, change none) ∨
      ∃ v, (e.1, v) ∈ l ∧ compare k e.1 = .eq ∧ e.2 = change (some v) := by
  induction l with
  | nil => exact .inr (.inl (List.mem_singleton.mp h))
  | cons head rest ih =>
    obtain ⟨j, v⟩ := head
    unfold alterIn at h
    split at h
    · rcases List.mem_cons.mp h with rfl | h
      · exact .inr (.inl rfl)
      · exact .inl h
    next heq =>
      rcases List.mem_cons.mp h with rfl | h
      · exact .inr (.inr ⟨v, List.mem_cons_self, heq, rfl⟩)
      · exact .inl (List.mem_cons_of_mem _ h)
    · rcases List.mem_cons.mp h with rfl | h
      · exact .inl List.mem_cons_self
      · rcases ih h with h | h | ⟨u, hu, heq, hchange⟩
        · exact .inl (List.mem_cons_of_mem _ h)
        · exact .inr (.inl h)
        · exact .inr (.inr ⟨u, List.mem_cons_of_mem _ hu, heq, hchange⟩)

theorem exists_key_eq_of_mem {d : κ × ν} {l : List (κ × ν)} (h : d ∈ l) :
    ∃ e ∈ alterIn k change l, e.1 = d.1 := by
  induction l with
  | nil => simp at h
  | cons head rest ih =>
    obtain ⟨j, v⟩ := head
    unfold alterIn
    split
    · exact ⟨d, List.mem_cons_of_mem _ h, rfl⟩
    · rcases List.mem_cons.mp h with rfl | h
      · exact ⟨_, List.mem_cons_self, rfl⟩
      · exact ⟨d, List.mem_cons_of_mem _ h, rfl⟩
    · rcases List.mem_cons.mp h with rfl | h
      · exact ⟨_, List.mem_cons_self, rfl⟩
      · obtain ⟨e, he, hkey⟩ := ih h
        exact ⟨e, List.mem_cons_of_mem _ he, hkey⟩

theorem exists_compare_eq [ReflCmp (compare : κ → κ → Ordering)] (l : List (κ × ν)) :
    ∃ e ∈ alterIn k change l, compare k e.1 = .eq := by
  induction l with
  | nil => exact ⟨_, List.mem_cons_self, ReflCmp.compare_self⟩
  | cons head rest ih =>
    obtain ⟨j, v⟩ := head
    unfold alterIn
    split
    · exact ⟨_, List.mem_cons_self, ReflCmp.compare_self⟩
    next heq => exact ⟨_, List.mem_cons_self, heq⟩
    · obtain ⟨e, he, heq⟩ := ih
      exact ⟨e, List.mem_cons_of_mem _ he, heq⟩

end Alteration

/-! ### The map of a list -/

theorem exists_key_eq_of_mem_ofList [TransOrd κ] {l : List (κ × ν)} {e : κ × ν}
    (h : e ∈ (ofList l).entries) : ∃ d ∈ l, d.1 = e.1 := by
  suffices general : ∀ (l : List (κ × ν)) (m : SortedMap κ ν),
      e ∈ (l.foldl (fun m e => m.insert e.1 e.2) m).entries →
        (∃ d ∈ m.entries, d.1 = e.1) ∨ ∃ d ∈ l, d.1 = e.1 by
    simpa using general l ∅ h
  intro l
  induction l with
  | nil => exact fun m h => .inl ⟨e, h, rfl⟩
  | cons a rest ih =>
    intro m h
    rcases ih _ h with ⟨d, hd, hkey⟩ | ⟨d, hd, hkey⟩
    · rcases key_of_mem_alterIn hd with hnew | ⟨d', hd', hold⟩
      · exact .inr ⟨a, List.mem_cons_self, hnew.symm.trans hkey⟩
      · exact .inl ⟨d', hd', hold.trans hkey⟩
    · exact .inr ⟨d, List.mem_cons_of_mem a hd, hkey⟩

/-! ### Insertions -/

section Insertion

variable [TransOrd κ] {m : SortedMap κ ν} {k : κ} {v : ν}

theorem find?_insert (j : κ) :
    (m.insert k v).find? j = if compare j k = .eq then some v else m.find? j := by
  rw [insert, alter, find?, find?]
  dsimp only
  generalize m.entries = l
  induction l with
  | nil => by_cases hj : compare j k = .eq <;> simp [alterIn, hj]
  | cons head rest ih =>
    obtain ⟨i, u⟩ := head
    unfold alterIn
    split
    · by_cases hj : compare j k = .eq <;> simp [List.find?_cons, hj]
    next heq =>
      have hsame : compare j i = .eq ↔ compare j k = .eq :=
        ⟨fun h => TransCmp.eq_trans h (OrientedCmp.eq_symm heq), fun h => TransCmp.eq_trans h heq⟩
      by_cases hj : compare j k = .eq
      · simp [hsame.mpr hj, hj]
      · simp [mt hsame.mp hj, hj]
    next hgt =>
      by_cases hji : compare j i = .eq
      · -- `k` is above `i`, hence above `j`
        have hjk : compare j k ≠ .eq := by
          intro hjk
          have hki := TransCmp.eq_trans (OrientedCmp.eq_symm hjk) hji
          exact absurd (hgt.symm.trans hki) (by simp)
        simp [hji, hjk]
      · simpa [List.find?_cons, hji] using ih

/-- A new key adds its value to the others. -/
theorem values_insert_perm (h : m.find? k = none) : (m.insert k v).values.Perm (v :: m.values) := by
  rw [find?, Option.map_eq_none_iff, List.find?_eq_none] at h
  rw [insert, alter, values, values]
  dsimp only
  revert h
  generalize m.entries = l
  intro h
  induction l with
  | nil => exact .refl _
  | cons head rest ih =>
    obtain ⟨i, u⟩ := head
    obtain ⟨hhead, hrest⟩ := List.forall_mem_cons.mp h
    unfold alterIn
    split
    · exact .refl _
    next heq => exact absurd (beq_iff_eq.mpr heq) hhead
    · exact ((ih hrest).cons u).trans (.swap v u _)

end Insertion

/-! ### Values -/

theorem mem_values_of_find? {m : SortedMap κ ν} {k : κ} {v : ν} (h : m.find? k = some v) :
    v ∈ m.values := by
  obtain ⟨e, he, rfl⟩ := Option.map_eq_some_iff.mp h
  exact List.mem_map_of_mem (List.mem_of_find?_eq_some he)

theorem mem_values_insert [TransOrd κ] {m : SortedMap κ ν} {k : κ} {v x : ν}
    (h : x ∈ (m.insert k v).values) : x = v ∨ x ∈ m.values := by
  obtain ⟨e, he, rfl⟩ := List.mem_map.mp h
  rcases mem_alterIn he with he | rfl | ⟨u, -, -, hv⟩
  · exact .inr (List.mem_map_of_mem he)
  · exact .inl rfl
  · exact .inl hv

end Keyspace.SortedMap
