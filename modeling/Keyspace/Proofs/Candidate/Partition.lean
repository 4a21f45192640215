import Mathlib.Algebra.Group.Nat.Defs
import Mathlib.Data.List.Sort
import Mathlib.Data.List.Sublists
import Keyspace.Candidate.Partition
import Keyspace.Proofs.Lists
import Keyspace.Proofs.Sorted.Alike
import Keyspace.Proofs.Sorted.Set

/-!
# Partition keys are the subsets

`partitionKeys` lists every subset of a set of paths once (`mem_partitionKeys_iff`,
`length_partitionKeys`), small subsets first and those of one size in the order of their members
(`pairwise_partitionKeys`).  The list starts with the set without members and ends with the whole
set.  `partitionKeys_listsSubsets` puts this together.

The sublists of one length are those of `List.sublistsLen` in another order
(`sublistsOfLength_perm`), which settles which and how many there are.  Their order is the one thing
left to an induction.

An enumeration may as well carry the members chosen so far and the position where the next one is
looked for (`continuations`); it finds the same subsets in the same order
(`partitionKeys_eq_flatMap_continuations`).
-/

namespace Keyspace

open Std (TransOrd OrientedCmp ReflCmp)

/-! ### Sublists of one length -/

section Sublists

variable {β : Type}

theorem sublistsOfLength_perm (k : ℕ) (l : List β) :
    (sublistsOfLength k l).Perm (l.sublistsLen k) := by
  induction l generalizing k with
  | nil =>
    cases k with
    | zero => rw [sublistsOfLength, List.sublistsLen_zero]
    | succ k => rw [sublistsOfLength, List.sublistsLen_succ_nil]
  | cons a rest ih =>
    cases k with
    | zero => rw [sublistsOfLength, List.sublistsLen_zero]
    | succ k =>
      rw [sublistsOfLength, List.sublistsLen_succ_cons]
      exact (((ih k).map _).append (ih (k + 1))).trans List.perm_append_comm

theorem mem_sublistsOfLength_iff {k : ℕ} {l s : List β} :
    s ∈ sublistsOfLength k l ↔ s.Sublist l ∧ s.length = k := by
  rw [(sublistsOfLength_perm k l).mem_iff, List.mem_sublistsLen]

theorem sublistsOfLength_length (l : List β) : sublistsOfLength l.length l = [l] := by
  have hperm := sublistsOfLength_perm l.length l
  rw [List.sublistsLen_length] at hperm
  exact List.perm_singleton.mp hperm

/-- The lists of a given length that continue `current` by elements from the position `start` on,
found by trying that position first and leaving it out afterwards. -/
def continuations (l : List β) (size : ℕ) (current : List β) (start : ℕ) : List (List β) :=
  if current.length = size then [current]
  else if h : start < l.length then
    continuations l size (current ++ [l[start]]) (start + 1) ++
      continuations l size current (start + 1)
  else []
termination_by l.length - start

/-- Whatever `current` is, the sublists of the rest that have the length left continue it. -/
theorem continuations_eq {l : List β} {size : ℕ} {current : List β} {start : ℕ}
    (h : current.length ≤ size) : continuations l size current start
      = (sublistsOfLength (size - current.length) (l.drop start)).map (current ++ ·) := by
  fun_induction continuations l size current start with
  | case1 current start hsize =>
    rw [hsize, Nat.sub_self, sublistsOfLength, List.map_singleton, List.append_nil]
  | case2 current start hsize hstart ihTry ihSkip =>
    obtain ⟨k, hk⟩ : ∃ k, size - current.length = k + 1 := ⟨size - current.length - 1, by omega⟩
    have hlonger : (current ++ [l[start]]).length = current.length + 1 := by simp
    have hk' : size - (current ++ [l[start]]).length = k := by omega
    rw [ihTry (by omega), ihSkip h, hk, hk', List.drop_eq_getElem_cons hstart, sublistsOfLength,
      List.map_append, List.map_map]
    -- a longer prefix is continued as the shorter one is by the element and what follows it
    congr 2
    funext s
    simp
  | case3 current start hsize hstart =>
    obtain ⟨k, hk⟩ : ∃ k, size - current.length = k + 1 := ⟨size - current.length - 1, by omega⟩
    rw [hk, List.drop_eq_nil_of_le (by omega), sublistsOfLength, List.map_nil]

variable [Ord β] [TransOrd β]

/-- The sublists of an ascending list that have one length ascend in the order of their elements. -/
theorem pairwise_sublistsOfLength {l : List β} (h : l.Pairwise fun a b => compare a b = .lt) :
    ∀ k, (sublistsOfLength k l).Pairwise fun s t => compare s t = .lt := by
  induction l with
  | nil =>
    intro k
    cases k with
    | zero =>
      rw [sublistsOfLength]
      exact List.pairwise_singleton _ _
    | succ k =>
      rw [sublistsOfLength]
      exact List.Pairwise.nil
  | cons a rest ih =>
    obtain ⟨hbelow, hrest⟩ := List.pairwise_cons.mp h
    intro k
    cases k with
    | zero =>
      rw [sublistsOfLength]
      exact List.pairwise_singleton _ _
    | succ k =>
      rw [sublistsOfLength]
      refine List.pairwise_append.mpr ⟨?_, ih hrest (k + 1), fun s hs t ht => ?_⟩
      · refine List.pairwise_map.mpr ((ih hrest k).imp fun {s t} hst => ?_)
        have hself : compare a a = .eq := ReflCmp.compare_self
        rw [List.compare_cons_cons, hself, hst]
        rfl
      · -- sublists with the first element come before those that start with a later one
        obtain ⟨s, -, rfl⟩ := List.mem_map.mp hs
        obtain ⟨hsub, hlength⟩ := mem_sublistsOfLength_iff.mp ht
        obtain ⟨b, t, rfl⟩ := List.exists_cons_of_length_eq_add_one hlength
        rw [List.compare_cons_cons, hbelow b (hsub.subset List.mem_cons_self)]
        rfl

end Sublists

/-! ### Subsets -/

/-- Sets by size, sets of one size in the order of their members. -/
def SortedSet.compareBySize {β : Type} [Ord β] (s t : SortedSet β) : Ordering :=
  (compare s.size t.size).then (compare s t)

theorem SortedSet.compareBySize_of_compare_eq {β : Type} [Ord β] {s t : SortedSet β}
    (h : compare s t = .eq) : s.compareBySize t = .eq := by
  have hsize : s.size = t.size := (forall₂_of_compare_list_eq h).length_eq
  rw [compareBySize, h, Nat.compare_eq_eq.mpr hsize]
  rfl

variable (paths : PathSet)

/-- The partition keys are what continues the empty list, one size after the other. -/
theorem partitionKeys_eq_flatMap_continuations :
    partitionKeys paths = (List.range (paths.size + 1)).flatMap fun k =>
      (continuations paths.toList k [] 0).map SortedSet.ofList := by
  rw [partitionKeys]
  refine List.flatMap_congr fun k _ => ?_
  rw [continuations_eq (Nat.zero_le k)]
  simp

/-- Partition keys are written as the sublists of the list of paths. -/
theorem map_toList_partitionKeys :
    (partitionKeys paths).map SortedSet.toList
      = (List.range (paths.size + 1)).flatMap fun k => sublistsOfLength k paths.toList := by
  rw [partitionKeys, List.map_flatMap]
  refine List.flatMap_congr fun k _ => ?_
  rw [List.map_map]
  refine (List.map_congr_left fun s hs => ?_).trans (List.map_id _)
  have hsub := (mem_sublistsOfLength_iff.mp hs).1
  exact SortedSet.toList_ofList_of_ascending (paths.ascending.sublist hsub)

theorem map_toList_partitionKeys_perm :
    ((partitionKeys paths).map SortedSet.toList).Perm paths.toList.sublists' := by
  rw [map_toList_partitionKeys]
  refine List.Perm.trans ?_ (List.range_bind_sublistsLen_perm paths.toList)
  exact List.Perm.flatMap_left _ fun k _ => sublistsOfLength_perm k paths.toList

/-- There is a partition key for every subset, and for nothing else. -/
theorem mem_partitionKeys_iff {s : PathSet} :
    s ∈ partitionKeys paths ↔ ∀ p ∈ s.toList, p ∈ paths.toList := by
  have hmem : s ∈ partitionKeys paths ↔ s.toList ∈ (partitionKeys paths).map SortedSet.toList := by
    constructor
    · exact fun h => List.mem_map_of_mem h
    · intro h
      obtain ⟨t, ht, heq⟩ := List.mem_map.mp h
      rwa [← SortedSet.eq_of_toList_eq heq]
  rw [hmem, (map_toList_partitionKeys_perm paths).mem_iff, List.mem_sublists']
  constructor
  · exact fun h p hp => h.subset hp
  · intro h
    -- members in ascending order are a sublist
    have : Std.Antisymm fun p q : Path => compare p q = .lt := by
      refine ⟨fun p q hpq hqp => ?_⟩
      rw [OrientedCmp.gt_of_lt hpq] at hqp
      exact absurd hqp (by decide)
    exact List.sublist_of_subperm_of_pairwise (List.subperm_of_subset s.nodup_toList h) s.ascending
      paths.ascending

theorem length_partitionKeys : (partitionKeys paths).length = 2 ^ paths.size := by
  rw [← List.length_map SortedSet.toList, (map_toList_partitionKeys_perm paths).length_eq,
    List.length_sublists', SortedSet.size]

/-- Small partition keys come first, those of one size in the order of their members. -/
theorem pairwise_partitionKeys :
    (partitionKeys paths).Pairwise fun s t => s.compareBySize t = .lt := by
  have hlists : ((partitionKeys paths).map SortedSet.toList).Pairwise fun s t =>
      (compare s.length t.length).then (compare s t) = .lt := by
    rw [map_toList_partitionKeys, List.pairwise_flatMap]
    constructor
    · intro k _
      refine (pairwise_sublistsOfLength paths.ascending k).imp_of_mem fun {s t} hs ht hst => ?_
      rw [(mem_sublistsOfLength_iff.mp hs).2, (mem_sublistsOfLength_iff.mp ht).2, hst,
        Nat.compare_eq_eq.mpr rfl]
      rfl
    · refine List.pairwise_lt_range.imp fun {k n} hkn s hs t ht => ?_
      rw [(mem_sublistsOfLength_iff.mp hs).2, (mem_sublistsOfLength_iff.mp ht).2,
        Nat.compare_eq_lt.mpr hkn]
      rfl
  exact List.pairwise_map.mp hlists

theorem head?_partitionKeys : (partitionKeys paths).head? = some ∅ := by
  rw [partitionKeys, List.range_succ_eq_map, List.flatMap_cons, sublistsOfLength]
  rfl

theorem getLast?_partitionKeys : (partitionKeys paths).getLast? = some paths := by
  have hself : SortedSet.ofList paths.toList = paths :=
    SortedSet.eq_of_toList_eq (SortedSet.toList_ofList_of_ascending paths.ascending)
  rw [partitionKeys, List.range_succ, List.flatMap_append, List.flatMap_singleton, SortedSet.size,
    sublistsOfLength_length, List.map_singleton, hself, List.getLast?_concat]

/-- A set whose members compare equal to some of the paths compares equal to a partition key. -/
theorem exists_compare_eq_partitionKeys_iff {s : PathSet} :
    (∃ t ∈ partitionKeys paths, compare s t = .eq) ↔
      ∀ p ∈ s.toList, paths.contains p = true := by
  simp only [SortedSet.compare_eq_eq_iff, SortedSet.contains_eq_true_iff, mem_partitionKeys_iff]
  constructor
  · rintro ⟨t, ht, hst⟩ p hp
    obtain ⟨q, hq, hpq⟩ := exists_left_of_forall₂ hst.flip hp
    exact ⟨q, ht q hq, hpq⟩
  · intro h
    -- the partition key is made of the copies that stand in `paths`
    refine ⟨paths.filter s.contains, fun p hp => List.mem_of_mem_filter hp, ?_⟩
    refine SortedSet.forall₂_of_ascending s.ascending (SortedSet.ascending _) (fun p hp => ?_)
      fun q hq => SortedSet.contains_eq_true_iff.mp (List.mem_filter.mp hq).2
    obtain ⟨q, hq, hpq⟩ := h p hp
    have hkept : s.contains q = true :=
      SortedSet.contains_eq_true_iff.mpr ⟨p, hp, OrientedCmp.eq_symm hpq⟩
    exact ⟨q, List.mem_filter.mpr ⟨hq, hkept⟩, hpq⟩

/-- The sets are the subsets of `paths`, each listed once, small ones first and those of one size in
the lexicographic order of their lists of members. -/
structure PathSet.ListsSubsets (paths : PathSet) (sets : List PathSet) : Prop where
  length_eq : sets.length = 2 ^ paths.size
  mem_iff : ∀ s, s ∈ sets ↔ ∀ p ∈ s.toList, p ∈ paths.toList
  /-- The same up to paths that compare equal. -/
  exists_compare_eq_iff : ∀ s : PathSet,
    (∃ t ∈ sets, compare s t = .eq) ↔ ∀ p ∈ s.toList, paths.contains p = true
  compare_ne : sets.Pairwise fun s t => compare s t ≠ .eq
  ascending : sets.Pairwise fun s t =>
    s.size < t.size ∨ s.size = t.size ∧ compare s.toList t.toList = .lt
  head?_eq : sets.head? = some ∅
  getLast?_eq : sets.getLast? = some paths

/-- **The partition keys of a set of paths are its subsets.** -/
theorem partitionKeys_listsSubsets : paths.ListsSubsets (partitionKeys paths) where
  length_eq := length_partitionKeys paths
  mem_iff := fun _ => mem_partitionKeys_iff paths
  exists_compare_eq_iff := fun _ => exists_compare_eq_partitionKeys_iff paths
  compare_ne := by
    refine (pairwise_partitionKeys paths).imp fun {s t} hst heq => ?_
    rw [SortedSet.compareBySize_of_compare_eq heq] at hst
    exact absurd hst (by decide)
  ascending := by
    refine (pairwise_partitionKeys paths).imp fun {s t} hst => ?_
    rw [SortedSet.compareBySize, Ordering.then_eq_lt] at hst
    exact hst.imp Nat.compare_eq_lt.mp (And.imp_left Nat.compare_eq_eq.mp)
  head?_eq := head?_partitionKeys paths
  getLast?_eq := getLast?_partitionKeys paths

/-- The subsets of one size come in the order of their members. -/
example : (partitionKeys (.ofList [⟨0, ["b"], true⟩, ⟨0, ["a"], true⟩, ⟨0, ["c"], true⟩])).map
    PathSet.texts
      = [[], ["a"], ["b"], ["c"], ["a", "b"], ["a", "c"], ["b", "c"], ["a", "b", "c"]] := by
  decide +kernel

end Keyspace
