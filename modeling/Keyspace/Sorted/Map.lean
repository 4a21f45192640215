import Keyspace.Sorted.Set

/-!
# Sorted maps

`SortedMap κ ν` holds one value for each of finitely many keys, as the list of its entries in
ascending order of the keys.  Writing to a key that compares equal to one already present keeps
that key and replaces its value.
-/

namespace Keyspace

open Std (TransCmp TransOrd OrientedCmp)

universe u v

/-- Finitely many keys with their values, least key first. -/
structure SortedMap (κ : Type u) [Ord κ] (ν : Type v) where
  /-- The entries, in ascending order of their keys. -/
  entries : List (κ × ν)
  /-- Each key is strictly below all later ones. -/
  ascending : entries.Pairwise fun a b => compare a.1 b.1 = .lt

namespace SortedMap

/-! ### Change at a key of an ascending list -/

section Alteration

variable {κ : Type u} [Ord κ] {ν : Type v}

/-- Applies `change` to the value at `k`, or to nothing where the key is new. -/
def alterIn (k : κ) (change : Option ν → ν) : List (κ × ν) → List (κ × ν)
  | [] => [(k, change none)]
  | (j, v) :: rest =>
    match compare k j with
    | .lt => (k, change none) :: (j, v) :: rest
    | .eq => (j, change (some v)) :: rest
    | .gt => (j, v) :: alterIn k change rest

/-- The keys after a change are the keys before it and the changed one. -/
theorem key_of_mem_alterIn {k : κ} {change : Option ν → ν} {e : κ × ν} {l : List (κ × ν)}
    (h : e ∈ alterIn k change l) : e.1 = k ∨ ∃ d ∈ l, d.1 = e.1 := by
  induction l with
  | nil =>
    rw [alterIn, List.mem_singleton] at h
    exact .inl (h ▸ rfl)
  | cons head rest ih =>
    obtain ⟨j, v⟩ := head
    unfold alterIn at h
    split at h
    · rcases List.mem_cons.mp h with rfl | h
      · exact .inl rfl
      · exact .inr ⟨e, h, rfl⟩
    · rcases List.mem_cons.mp h with rfl | h
      · exact .inr ⟨(j, v), List.mem_cons_self, rfl⟩
      · exact .inr ⟨e, List.mem_cons_of_mem _ h, rfl⟩
    · rcases List.mem_cons.mp h with rfl | h
      · exact .inr ⟨(j, v), List.mem_cons_self, rfl⟩
      · refine (ih h).imp_right fun ⟨d, hd, he⟩ => ⟨d, List.mem_cons_of_mem _ hd, he⟩

/-- A change keeps the order of the keys. -/
theorem alterIn_ascending [TransOrd κ] (k : κ) (change : Option ν → ν) {l : List (κ × ν)}
    (h : l.Pairwise fun a b => compare a.1 b.1 = .lt) :
    (alterIn k change l).Pairwise fun a b => compare a.1 b.1 = .lt := by
  induction l with
  | nil => simp [alterIn]
  | cons head rest ih =>
    obtain ⟨j, v⟩ := head
    obtain ⟨below, tail⟩ := List.pairwise_cons.mp h
    unfold alterIn
    split
    next hkj =>
      refine List.pairwise_cons.mpr ⟨fun e he => ?_, h⟩
      rcases List.mem_cons.mp he with rfl | he
      · exact hkj
      · exact TransCmp.lt_trans hkj (below e he)
    next => exact List.pairwise_cons.mpr ⟨below, tail⟩
    next hkj =>
      refine List.pairwise_cons.mpr ⟨fun e he => ?_, ih tail⟩
      rcases key_of_mem_alterIn he with hek | ⟨d, hd, hde⟩
      · rw [hek]
        exact OrientedCmp.gt_iff_lt.mp hkj
      · rw [← hde]
        exact below d hd

end Alteration

variable {κ : Type u} [Ord κ] {ν : Type v}

/-! ### Operations -/

/-- The map without entries. -/
def empty : SortedMap κ ν := ⟨[], List.Pairwise.nil⟩

instance : EmptyCollection (SortedMap κ ν) := ⟨empty⟩

instance : Inhabited (SortedMap κ ν) := ⟨empty⟩

/-- Changes the value at one key, which is added if it is missing. -/
def alter [TransOrd κ] (m : SortedMap κ ν) (k : κ) (change : Option ν → ν) : SortedMap κ ν :=
  ⟨alterIn k change m.entries, alterIn_ascending k change m.ascending⟩

/-- Writes a value; the key of an entry that is replaced stays. -/
def insert [TransOrd κ] (m : SortedMap κ ν) (k : κ) (v : ν) : SortedMap κ ν :=
  m.alter k fun _ => v

/-- The map of a list of entries; of entries with equal keys the last value stays. -/
def ofList [TransOrd κ] (entries : List (κ × ν)) : SortedMap κ ν :=
  entries.foldl (fun m e => m.insert e.1 e.2) ∅

/-- The value at a key. -/
def find? (m : SortedMap κ ν) (k : κ) : Option ν :=
  (m.entries.find? fun e => compare k e.1 == .eq).map (·.2)

/-- The keys, least first. -/
def keys (m : SortedMap κ ν) : List κ := m.entries.map (·.1)

/-- The values, in the order of their keys. -/
def values (m : SortedMap κ ν) : List ν := m.entries.map (·.2)

@[simp]
theorem entries_empty : (∅ : SortedMap κ ν).entries = [] := rfl

/-- The keys are strictly ascending. -/
theorem keys_ascending (m : SortedMap κ ν) :
    m.keys.Pairwise fun a b => compare a b = .lt :=
  List.pairwise_map.mpr m.ascending

end SortedMap

end Keyspace
