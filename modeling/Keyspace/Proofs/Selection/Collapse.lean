import Keyspace.Proofs.Selection.Tables
import Keyspace.Proofs.Sorted.Set
import Mathlib.Data.List.Induction

/-!
# Tables do not depend on the order of candidates

The keys of the tables are the set of the candidates' keys, and the members of a table are the
numbers of the candidates with its key (`Tables.tables_collapse_eq`), that is, of those that read
from it (`Tables.mem_members_iff`).  So candidates with the same keys in another order have the same
tables with as many members each (`Tables.map_tables_eq`), in the same places
(`Tables.home_eq_home`); only the numbers of the members are others.

Keys that compare equal have to be equal for this, since the first of them names the table.
-/

namespace Keyspace

open Std (TransCmp TransOrd OrientedCmp)

/-- A change at one key of a map whose values are given by a function. -/
theorem SortedMap.alterIn_map {κ ν : Type} [Ord κ] [TransOrd κ] {k : κ} {change : Option ν → ν}
    {f g : κ → ν} {keys : List κ} (hasc : keys.Pairwise fun a b => compare a b = .lt)
    (hnew : (∀ j ∈ keys, compare k j ≠ .eq) → change none = g k)
    (hold : ∀ j ∈ keys, compare k j = .eq → change (some (f j)) = g j)
    (hother : ∀ j ∈ keys, compare k j ≠ .eq → f j = g j) :
    alterIn k change (keys.map fun j => (j, f j))
      = (SortedSet.insertInto k keys).map fun j => (j, g j) := by
  induction keys with
  | nil => rw [List.map_nil, alterIn, SortedSet.insertInto, hnew (by simp)]; rfl
  | cons j rest ih =>
    obtain ⟨hbelow, hrest⟩ := List.pairwise_cons.mp hasc
    obtain ⟨holdj, hold⟩ := List.forall_mem_cons.mp hold
    obtain ⟨hotherj, hother⟩ := List.forall_mem_cons.mp hother
    -- the keys after one that is not below `k` are above `k`
    have habove : compare k j ≠ .gt → ∀ i ∈ rest, compare k i ≠ .eq := by
      intro hkj i hi heq
      have hle : (compare k j).isLE = true := by
        revert hkj
        cases compare k j <;> simp
      rw [TransCmp.lt_of_isLE_of_lt hle (hbelow i hi)] at heq
      exact absurd heq (by decide)
    have hmap : (∀ i ∈ rest, compare k i ≠ .eq) →
        (rest.map fun i => (i, f i)) = rest.map fun i => (i, g i) := fun h =>
      List.map_congr_left fun i hi => by rw [hother i hi (h i hi)]
    rw [List.map_cons, alterIn, SortedSet.insertInto]
    cases hkj : compare k j with
    | lt =>
      have hrest := habove (by simp [hkj])
      have hj := hotherj (by simp [hkj])
      have hk := hnew (List.forall_mem_cons.mpr ⟨by simp [hkj], hrest⟩)
      simp only [List.map_cons, hk, hj, hmap hrest]
    | eq =>
      simp only [List.map_cons, holdj hkj, hmap (habove (by simp [hkj]))]
    | gt =>
      have ih := ih hrest (fun h => hnew (List.forall_mem_cons.mpr ⟨by simp [hkj], h⟩)) hold hother
      simp only [List.map_cons, ih, hotherj (by simp [hkj])]

namespace Tables

/-! ### Groups -/

/-- The numbers of the candidates with a given key. -/
def membersOf (cs : List (Candidate × ℕ)) (key : TableKey) : List ℕ :=
  (cs.filter fun c => compare c.1.key key == .eq).map (·.2)

theorem membersOf_concat (cs : List (Candidate × ℕ)) (c : Candidate × ℕ) (key : TableKey) :
    membersOf (cs ++ [c]) key
      = membersOf cs key ++ if compare c.1.key key = .eq then [c.2] else [] := by
  rw [membersOf, membersOf, List.filter_append, List.map_append]
  by_cases h : compare c.1.key key = .eq
  · rw [if_pos h, List.filter_cons_of_pos (by simp [h])]
    rfl
  · rw [if_neg h, List.filter_cons_of_neg (by simp [h])]
    rfl

/-- There is a group for each key, with the numbers of its candidates. -/
theorem entries_foldl_groupStep (cs : List (Candidate × ℕ)) :
    (cs.foldl groupStep ∅).entries
      = (SortedSet.ofList (cs.map fun c => c.1.key)).toList.map fun key =>
          (key, membersOf cs key) := by
  -- from the back, since a candidate joins the groups of those before it
  induction cs using List.reverseRecOn with
  | nil => rfl
  | append_singleton cs c ih =>
    have hkeys : (SortedSet.ofList ((cs ++ [c]).map fun c => c.1.key)).toList
        = SortedSet.insertInto c.1.key (SortedSet.ofList (cs.map fun c => c.1.key)).toList := by
      rw [List.map_append, SortedSet.ofList, List.foldl_append]
      rfl
    rw [List.foldl_append, hkeys]
    show SortedMap.alterIn c.1.key _ (cs.foldl groupStep ∅).entries = _
    rw [ih]
    refine SortedMap.alterIn_map (SortedSet.ascending _) (fun hnew => ?_) (fun key _ heq => ?_)
      fun key _ hne => ?_
    · -- a key that no group has is that of no candidate before
      have hnone : membersOf cs c.1.key = [] := by
        refine List.map_eq_nil_iff.mpr (List.filter_eq_nil_iff.mpr fun d hd heq => ?_)
        rw [beq_iff_eq] at heq
        obtain ⟨key, hkey, hd⟩ := SortedSet.exists_mem_toList_ofList
          (List.mem_map_of_mem (f := fun c : Candidate × ℕ => c.1.key) hd)
        exact hnew key hkey (TransCmp.eq_trans (OrientedCmp.eq_symm heq) hd)
      have hself : compare c.1.key c.1.key = .eq := Std.ReflCmp.compare_self
      rw [membersOf_concat, if_pos hself, hnone]
      rfl
    · rw [membersOf_concat, if_pos heq]
      rfl
    · rw [membersOf_concat, if_neg hne, List.append_nil]

/-! ### Tables -/

variable {cs cs' : List Candidate}

/-- The tables of a list of candidates. -/
theorem tables_collapse_eq :
    (collapse cs).tables
      = (SortedSet.ofList (cs.map Candidate.key)).toList.map fun key =>
          ⟨key, membersOf cs.zipIdx key⟩ := by
  have hkeys : cs.zipIdx.map (fun c => c.1.key) = cs.map Candidate.key := by
    rw [← List.zipIdx_map_fst 0 cs, List.map_map, List.zipIdx_map_fst]
    rfl
  have hentries : (group cs).entries = _ := entries_foldl_groupStep cs.zipIdx
  rw [tables_collapse, hentries, hkeys, List.map_map]
  rfl

theorem keys_collapse :
    (collapse cs).tables.map Table.key = (SortedSet.ofList (cs.map Candidate.key)).toList := by
  rw [tables_collapse_eq, List.map_map]
  exact List.map_id _

/-- A table has as many members as there are candidates with its key. -/
theorem length_membersOf (key : TableKey) :
    (membersOf cs.zipIdx key).length
      = (cs.map Candidate.key).countP fun k => compare k key == .eq := by
  rw [membersOf, List.length_map, ← List.countP_eq_length_filter, ← List.zipIdx_map_fst 0 cs,
    List.map_map, List.countP_map, List.zipIdx_map_fst]
  rfl

theorem members_table {t : ℕ} (ht : t < (collapse cs).size) :
    ((collapse cs).table t).members = membersOf cs.zipIdx ((collapse cs).table t).key := by
  have ht' : t < (collapse cs).tables.length := ht
  rw [table, List.getD_eq_getElem _ _ ht']
  simp only [tables_collapse_eq, List.getElem_map]

/-- The members of a table are the candidates that read from it. -/
theorem mem_members_iff {t c : ℕ} (ht : t < (collapse cs).size) :
    c ∈ ((collapse cs).table t).members ↔ c < cs.length ∧ (collapse cs).home c = t := by
  constructor
  · intro h
    obtain ⟨hc, hkey⟩ := compare_key_of_mem_members h
    have hhome := TransCmp.eq_trans (OrientedCmp.eq_symm (compare_key_home hc)) hkey
    exact ⟨hc, eq_of_compare_key (home_lt_size hc) ht hhome⟩
  · rintro ⟨hc, rfl⟩
    rw [members_table ht, membersOf]
    have hmem : (cs[c], c) ∈ cs.zipIdx :=
      List.mem_zipIdx_iff_getElem?.mpr (List.getElem?_eq_getElem hc)
    refine List.mem_map.mpr ⟨_, List.mem_filter.mpr ⟨hmem, ?_⟩, rfl⟩
    exact beq_iff_eq.mpr (compare_key_home hc)

theorem home_eq_findIdx_key {c : ℕ} (hc : c < cs.length) :
    (collapse cs).home c
      = ((collapse cs).tables.map Table.key).findIdx fun key => compare cs[c].key key == .eq := by
  rw [home_eq_findIdx hc, List.findIdx_map]
  rfl

theorem size_eq_length_keys : (collapse cs).size = ((collapse cs).tables.map Table.key).length :=
  (List.length_map _).symm

theorem key_table (t : ℕ) :
    ((collapse cs).table t).key = ((collapse cs).tables.map Table.key).getD t default :=
  (List.getD_map _ _ Table.key).symm

/-! ### Candidates in another order -/

section Permuted

variable (hperm : (cs.map Candidate.key).Perm (cs'.map Candidate.key))
  (hkeys : ∀ c ∈ cs, ∀ d ∈ cs, compare c.key d.key = .eq → c.key = d.key)
include hperm hkeys

theorem ofList_keys_eq :
    SortedSet.ofList (cs.map Candidate.key) = SortedSet.ofList (cs'.map Candidate.key) := by
  refine SortedSet.ofList_eq_of_perm hperm ?_
  simpa only [List.forall_mem_map] using hkeys

/-- **Candidates in another order have the same tables**, with as many members. -/
theorem map_tables_eq :
    ((collapse cs).tables.map fun t => (t.key, t.members.length))
      = (collapse cs').tables.map fun t => (t.key, t.members.length) := by
  rw [tables_collapse_eq, tables_collapse_eq, ofList_keys_eq hperm hkeys, List.map_map,
    List.map_map]
  refine List.map_congr_left fun key _ => ?_
  show (key, (membersOf cs.zipIdx key).length) = (key, (membersOf cs'.zipIdx key).length)
  rw [length_membersOf, length_membersOf, hperm.countP_eq]

theorem map_key_tables_eq :
    (collapse cs).tables.map Table.key = (collapse cs').tables.map Table.key := by
  rw [keys_collapse, keys_collapse, ofList_keys_eq hperm hkeys]

/-- The table of a candidate keeps its place. -/
theorem home_eq_home {c c' : ℕ} (hc : c < cs.length) (hc' : c' < cs'.length)
    (hkey : cs[c].key = cs'[c'].key) : (collapse cs).home c = (collapse cs').home c' := by
  rw [home_eq_findIdx_key hc, home_eq_findIdx_key hc', map_key_tables_eq hperm hkeys, hkey]

theorem size_eq_size : (collapse cs).size = (collapse cs').size := by
  rw [size_eq_length_keys, size_eq_length_keys, map_key_tables_eq hperm hkeys]

theorem key_table_eq (t : ℕ) : ((collapse cs).table t).key = ((collapse cs').table t).key := by
  rw [key_table, key_table, map_key_tables_eq hperm hkeys]

end Permuted

end Tables

end Keyspace
