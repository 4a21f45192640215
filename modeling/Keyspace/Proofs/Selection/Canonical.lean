import Keyspace.Proofs.Selection.Collapse
import Keyspace.Proofs.Workload.Siblings
import Mathlib.Data.Fin.Rev

/-!
# Collapsing is a canonical partition

The tables of a list of candidates sort the candidates by their keys.  `Tables.Partitions` says so
in terms of the members of the tables and of the homes of the candidates, the two ways in which a
partition is held: the keys of the tables ascend and are those of the candidates, every candidate is
a member of one table, and its home is the table that it is a member of.

The partition is canonical: if the candidates get other numbers, the keys of the tables stay where
they are and the members are renumbered (`Tables.collapse_canonical`).  Keys are looked at through
their order, for which paths with the same walk are the same.  If keys that compare equal are equal,
as in a searched workload, the tables have the same keys (`Tables.map_key_tables_eq`).
-/

namespace Keyspace.Tables

open Std (TransCmp OrientedCmp)

/-! ### The members of all tables -/

section Members

variable {cs : List Candidate}

/-- The members of a table are listed in the order of the candidates. -/
theorem pairwise_members {t : Table} (ht : t ∈ (collapse cs).tables) :
    t.members.Pairwise (· < ·) := by
  rw [tables_collapse_eq] at ht
  obtain ⟨key, -, rfl⟩ := List.mem_map.mp ht
  show (membersOf cs.zipIdx key).Pairwise (· < ·)
  have hnumbers : cs.zipIdx.map Prod.snd = List.range' 0 cs.length := List.zipIdx_map_snd 0 cs
  have hsub : (membersOf cs.zipIdx key).Sublist (cs.zipIdx.map Prod.snd) :=
    List.filter_sublist.map Prod.snd
  apply List.Pairwise.sublist hsub
  rw [hnumbers]
  exact List.pairwise_lt_range'

/-- No candidate is a member of two tables. -/
theorem nodup_members : ((collapse cs).tables.flatMap Table.members).Nodup := by
  rw [List.nodup_flatMap]
  constructor
  · exact fun t ht => (pairwise_members ht).imp fun h => h.ne
  · rw [List.pairwise_iff_getElem]
    intro s t hs ht hst
    -- a candidate is a member of its home only
    have hat : ∀ {t : ℕ} (ht : t < (collapse cs).tables.length) {c : ℕ},
        c ∈ (collapse cs).tables[t].members → (collapse cs).home c = t := by
      intro t ht c hc
      refine ((mem_members_iff ht).mp ?_).2
      rwa [table, List.getD_eq_getElem _ _ ht]
    intro c hcs hct
    have heq : s = t := (hat hs hcs).symm.trans (hat ht hct)
    omega

theorem mem_flatMap_members {c : ℕ} :
    c ∈ (collapse cs).tables.flatMap Table.members ↔ c < cs.length := by
  constructor
  · intro hc
    obtain ⟨t, ht, hc⟩ := List.mem_flatMap.mp hc
    obtain ⟨i, hi, rfl⟩ := List.getElem_of_mem ht
    have hmem : c ∈ ((collapse cs).table i).members := by
      rwa [table, List.getD_eq_getElem _ _ hi]
    exact ((mem_members_iff hi).mp hmem).1
  · intro hc
    have hlt := home_lt_size hc
    have hmem : c ∈ ((collapse cs).table ((collapse cs).home c)).members :=
      (mem_members_iff hlt).mpr ⟨hc, rfl⟩
    rw [table, List.getD_eq_getElem _ _ hlt] at hmem
    exact List.mem_flatMap.mpr ⟨_, List.getElem_mem hlt, hmem⟩

end Members

/-! ### Partitions -/

/-- The tables `ts` sort the candidates `cs` by their keys. -/
structure Partitions (ts : Tables) (cs : List Candidate) : Prop where
  keys_ascending : (ts.tables.map Table.key).Pairwise fun a b => compare a b = .lt
  /-- Every table has the key of a candidate. -/
  exists_candidate : ∀ t ∈ ts.tables, ∃ c ∈ cs, c.key = t.key
  /-- Every key of a candidate is the key of a table. -/
  exists_table : ∀ c ∈ cs, ∃ t ∈ ts.tables, compare c.key t.key = .eq
  members_ascending : ∀ t ∈ ts.tables, t.members.Pairwise (· < ·)
  /-- Every candidate is a member of one table. -/
  members_perm : (ts.tables.flatMap Table.members).Perm (List.range cs.length)
  /-- The home of a candidate is the table that it is a member of. -/
  mem_members_iff : ∀ c < cs.length, ∀ t < ts.size, c ∈ (ts.table t).members ↔ ts.home c = t
  home_lt : ∀ c < cs.length, ts.home c < ts.size
  compare_key_home : ∀ c : Fin cs.length, compare (cs.get c).key (ts.table (ts.home c)).key = .eq

theorem partitions_collapse (cs : List Candidate) : (collapse cs).Partitions cs where
  keys_ascending := by
    rw [keys_collapse]
    exact SortedSet.ascending _
  exists_candidate := by
    intro t ht
    have hkey : t.key ∈ (collapse cs).tables.map Table.key := List.mem_map_of_mem ht
    rw [keys_collapse] at hkey
    exact List.mem_map.mp (SortedSet.mem_of_mem_toList_ofList hkey)
  exists_table := by
    intro c hc
    have hkey : c.key ∈ cs.map Candidate.key := List.mem_map_of_mem hc
    obtain ⟨key, hmem, heq⟩ := SortedSet.exists_mem_toList_ofList hkey
    rw [← keys_collapse] at hmem
    obtain ⟨t, ht, rfl⟩ := List.mem_map.mp hmem
    exact ⟨t, ht, heq⟩
  members_ascending := fun t => pairwise_members
  members_perm := by
    rw [List.perm_ext_iff_of_nodup nodup_members List.nodup_range]
    intro c
    rw [mem_flatMap_members, List.mem_range]
  mem_members_iff := by
    intro c hc t ht
    rw [Tables.mem_members_iff ht]
    exact and_iff_right hc
  home_lt := fun c => home_lt_size
  compare_key_home := fun c => Tables.compare_key_home c.isLt

/-! ### Other numbers -/

section Renumbered

variable {cs cs' : List Candidate} (π : Fin cs.length ≃ Fin cs'.length)
  (hπ : ∀ c, (cs'.get (π c)).key = (cs.get c).key)
include hπ

/-- Candidates with the same keys have tables with the same keys. -/
theorem forall₂_key_of_renumbered :
    List.Forall₂ (fun s t => compare s.key t.key = .eq) (collapse cs).tables
      (collapse cs').tables := by
  have hleft : ∀ key ∈ cs.map Candidate.key, key ∈ cs'.map Candidate.key := by
    intro key hkey
    obtain ⟨c, hc, rfl⟩ := List.mem_map.mp hkey
    obtain ⟨i, hi, rfl⟩ := List.getElem_of_mem hc
    exact List.mem_map.mpr ⟨cs'.get (π ⟨i, hi⟩), List.get_mem _ _, hπ ⟨i, hi⟩⟩
  have hright : ∀ key ∈ cs'.map Candidate.key, key ∈ cs.map Candidate.key := by
    intro key hkey
    obtain ⟨c, hc, rfl⟩ := List.mem_map.mp hkey
    obtain ⟨i, hi, rfl⟩ := List.getElem_of_mem hc
    obtain ⟨j, hj⟩ := π.surjective ⟨i, hi⟩
    have hkey := hπ j
    rw [hj] at hkey
    exact List.mem_map.mpr ⟨cs.get j, List.get_mem _ _, hkey.symm⟩
  have hkeys : List.Forall₂ (fun a b => compare a b = .eq)
      ((collapse cs).tables.map Table.key) ((collapse cs').tables.map Table.key) := by
    rw [keys_collapse, keys_collapse]
    refine SortedSet.forall₂_of_ascending (SortedSet.ascending _) (SortedSet.ascending _) ?_ ?_
    · intro key hkey
      exact SortedSet.exists_mem_toList_ofList (hleft _ (SortedSet.mem_of_mem_toList_ofList hkey))
    · intro key hkey
      exact SortedSet.exists_mem_toList_ofList (hright _ (SortedSet.mem_of_mem_toList_ofList hkey))
  rwa [List.forall₂_map_left_iff, List.forall₂_map_right_iff] at hkeys

theorem home_of_renumbered (c : Fin cs.length) :
    (collapse cs').home (π c) = (collapse cs).home c := by
  have hkeys := forall₂_key_of_renumbered π hπ
  have hsize : (collapse cs).size = (collapse cs').size := hkeys.length_eq
  have hlt := home_lt_size c.isLt
  have hlt' : (collapse cs).home c < (collapse cs').size := hsize ▸ hlt
  -- the tables at the home of `c` and at that of its new number both have its key
  have hplace : compare ((collapse cs).table ((collapse cs).home c)).key
      ((collapse cs').table ((collapse cs).home c)).key = .eq := by
    rw [table, table, List.getD_eq_getElem _ _ hlt, List.getD_eq_getElem _ _ hlt']
    exact hkeys.get hlt hlt'
  have hold := compare_key_home c.isLt
  have hnew := compare_key_home (π c).isLt
  have hkey : cs'[(π c : ℕ)].key = cs[(c : ℕ)].key := hπ c
  rw [hkey] at hnew
  apply eq_of_compare_key (home_lt_size (π c).isLt) hlt'
  exact TransCmp.eq_trans (OrientedCmp.eq_symm hnew) (TransCmp.eq_trans hold hplace)

/-- The members of a table are renumbered. -/
theorem members_of_renumbered {t : ℕ} (ht : t < (collapse cs).size) :
    {c : Fin cs'.length | (c : ℕ) ∈ ((collapse cs').table t).members}
      = π '' {c | (c : ℕ) ∈ ((collapse cs).table t).members} := by
  have hsize : (collapse cs).size = (collapse cs').size :=
    (forall₂_key_of_renumbered π hπ).length_eq
  ext c'
  obtain ⟨c, rfl⟩ := π.surjective c'
  rw [π.injective.mem_set_image]
  show (π c : ℕ) ∈ ((collapse cs').table t).members ↔ (c : ℕ) ∈ ((collapse cs).table t).members
  rw [mem_members_iff (hsize ▸ ht), mem_members_iff ht, home_of_renumbered π hπ c]
  simp

end Renumbered

/-- **Collapsing is a canonical partition** of the candidates by their keys.  If the candidates get
other numbers, the tables keep their keys and places, and their members are renumbered. -/
theorem collapse_canonical (cs : List Candidate) :
    (collapse cs).Partitions cs ∧
    ∀ (cs' : List Candidate) (π : Fin cs.length ≃ Fin cs'.length),
      (∀ c, (cs'.get (π c)).key = (cs.get c).key) →
        List.Forall₂ (fun s t => compare s.key t.key = .eq) (collapse cs).tables
          (collapse cs').tables ∧
        (∀ c, (collapse cs').home (π c) = (collapse cs).home c) ∧
        ∀ t < (collapse cs).size,
          {c : Fin cs'.length | (c : ℕ) ∈ ((collapse cs').table t).members}
            = π '' {c | (c : ℕ) ∈ ((collapse cs).table t).members} :=
  ⟨partitions_collapse cs, fun _ π hπ => ⟨forall₂_key_of_renumbered π hπ, home_of_renumbered π hπ,
    fun _ => members_of_renumbered π hπ⟩⟩

/-- The new numbers of candidates that are listed in reverse. -/
def reversal (cs : List Candidate) : Fin cs.length ≃ Fin cs.reverse.length :=
  Fin.revPerm.trans (finCongr List.length_reverse.symm)

theorem get_reversal (cs : List Candidate) (c : Fin cs.length) :
    cs.reverse.get (reversal cs c) = cs.get c := by
  have hback : cs.length - 1 - (cs.length - (c + 1)) = c := by omega
  simp [reversal, hback]

/-- Two of the four candidates for a forum share a table, and they still do if the candidates are
listed in reverse, when the first one becomes the last. -/
theorem collapse_canonical_forum :
    (collapse Forum.workload.candidates).tables.map Table.members = [[1, 2], [0], [3]] ∧
    (collapse Forum.workload.candidates.reverse).tables.map Table.members = [[1, 2], [3], [0]] ∧
    (collapse Forum.workload.candidates.reverse).Partitions Forum.workload.candidates.reverse ∧
    {c : Fin Forum.workload.candidates.reverse.length |
        (c : ℕ) ∈ ((collapse Forum.workload.candidates.reverse).table 1).members}
      = reversal Forum.workload.candidates ''
        {c | (c : ℕ) ∈ ((collapse Forum.workload.candidates).table 1).members} := by
  obtain ⟨-, hrenumbered⟩ := collapse_canonical Forum.workload.candidates
  obtain ⟨-, -, hmembers⟩ := hrenumbered _ (reversal _) fun c => by rw [get_reversal]
  refine ⟨rfl, rfl, (collapse_canonical _).1, hmembers 1 ?_⟩
  decide

end Keyspace.Tables
