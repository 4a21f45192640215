import Keyspace.Proofs.Candidate.Key
import Keyspace.Proofs.Sorted.Map
import Keyspace.Selection.Tables
import Mathlib.Data.List.GetD

/-!
# The tables of a list of candidates

Every candidate has a table among those of `Tables.collapse`, whose key compares equal to its own
(`home_lt_size`, `compare_key_home`), and every table is the home of some candidate
(`exists_home_eq`).  The keys of the tables are kept strictly ascending by the map that groups the
candidates, so that a candidate's key compares equal to no other table's.
-/

namespace Keyspace

open Std (TransCmp TransOrd OrientedCmp ReflCmp)

namespace Tables

/-! ### Grouping -/

/-- One step of the grouping. -/
def groupStep (groups : SortedMap TableKey (List ℕ)) (c : Candidate × ℕ) :
    SortedMap TableKey (List ℕ) :=
  groups.alter c.1.key fun members => members.getD [] ++ [c.2]

/-- The keys of the groups are those of the candidates, and the keys present before. -/
theorem key_of_mem_foldl (cs : List (Candidate × ℕ)) :
    ∀ (groups : SortedMap TableKey (List ℕ)), ∀ e ∈ (cs.foldl groupStep groups).entries,
      (∃ c ∈ cs, c.1.key = e.1) ∨ ∃ d ∈ groups.entries, d.1 = e.1 := by
  induction cs with
  | nil => intro groups e he; exact .inr ⟨e, he, rfl⟩
  | cons c cs ih =>
    intro groups e he
    rcases ih _ e he with ⟨c', hc', hkey⟩ | ⟨d, hd, hkey⟩
    · exact .inl ⟨c', List.mem_cons_of_mem _ hc', hkey⟩
    · rcases SortedMap.key_of_mem_alterIn hd with hnew | ⟨d', hd', hold⟩
      · exact .inl ⟨c, List.mem_cons_self, hnew.symm.trans hkey⟩
      · exact .inr ⟨d', hd', hold.trans hkey⟩

/-- Keys stay, and every candidate's key is present after its step. -/
theorem exists_compare_eq_foldl (cs : List (Candidate × ℕ)) :
    ∀ (groups : SortedMap TableKey (List ℕ)),
      (∀ d ∈ groups.entries, ∃ e ∈ (cs.foldl groupStep groups).entries, e.1 = d.1) ∧
      ∀ c ∈ cs, ∃ e ∈ (cs.foldl groupStep groups).entries, compare c.1.key e.1 = .eq := by
  induction cs with
  | nil => intro groups; exact ⟨fun d hd => ⟨d, hd, rfl⟩, fun c hc => by simp at hc⟩
  | cons c cs ih =>
    intro groups
    obtain ⟨stay, present⟩ := ih (groupStep groups c)
    constructor
    · intro d hd
      obtain ⟨d', hd', hkey⟩ := SortedMap.exists_key_eq_of_mem hd
      obtain ⟨e, he, hkey'⟩ := stay d' hd'
      exact ⟨e, he, hkey'.trans hkey⟩
    · intro c' hc'
      rcases List.mem_cons.mp hc' with rfl | hc'
      · obtain ⟨d, hd, heq⟩ := SortedMap.exists_compare_eq groups.entries
        obtain ⟨e, he, hkey⟩ := stay d hd
        exact ⟨e, he, by rw [hkey]; exact heq⟩
      · exact present c' hc'

/-- The members of a group have keys that compare equal to that of the group. -/
theorem compare_key_foldl {P : Candidate × ℕ → Prop} (cs : List (Candidate × ℕ))
    (hcs : ∀ c ∈ cs, P c) :
    ∀ groups : SortedMap TableKey (List ℕ),
      (∀ e ∈ groups.entries, ∀ i ∈ e.2, ∃ c, P (c, i) ∧ compare c.key e.1 = .eq) →
      ∀ e ∈ (cs.foldl groupStep groups).entries, ∀ i ∈ e.2,
        ∃ c, P (c, i) ∧ compare c.key e.1 = .eq := by
  induction cs with
  | nil => exact fun groups h => h
  | cons c cs ih =>
    intro groups h
    obtain ⟨hc, hcs⟩ := List.forall_mem_cons.mp hcs
    refine ih hcs _ fun e he i hi => ?_
    rcases SortedMap.mem_alterIn he with he | rfl | ⟨members, hmem, heq, hmembers⟩
    · exact h e he i hi
    · obtain rfl := List.mem_singleton.mp hi
      exact ⟨c.1, hc, ReflCmp.compare_self⟩
    · rw [hmembers] at hi
      rcases List.mem_append.mp hi with hi | hi
      · exact h _ hmem i hi
      · obtain rfl := List.mem_singleton.mp hi
        exact ⟨c.1, hc, heq⟩

/-! ### Homes -/

variable (candidates : List Candidate)

theorem tables_collapse :
    (collapse candidates).tables = (group candidates).entries.map fun e => Table.mk e.1 e.2 := rfl

/-- The keys of the tables are strictly ascending. -/
theorem key_lt_key {s t : ℕ} (hst : s < t) (ht : t < (collapse candidates).tables.length) :
    compare ((collapse candidates).tables[s].key) ((collapse candidates).tables[t].key) = .lt := by
  have hasc := (group candidates).ascending
  have ht' : t < (group candidates).entries.length := by
    simpa [tables_collapse] using ht
  simpa [tables_collapse] using List.pairwise_iff_getElem.mp hasc s t (by omega) ht' hst

variable {candidates}

/-- No two tables have the same key. -/
theorem eq_of_compare_key {s t : ℕ} (hs : s < (collapse candidates).size)
    (ht : t < (collapse candidates).size)
    (h : compare ((collapse candidates).table s).key ((collapse candidates).table t).key = .eq) :
    s = t := by
  have hs' : s < (collapse candidates).tables.length := hs
  have ht' : t < (collapse candidates).tables.length := ht
  rw [table, table, List.getD_eq_getElem _ _ hs', List.getD_eq_getElem _ _ ht'] at h
  rcases Nat.lt_trichotomy s t with hst | rfl | hts
  · rw [key_lt_key candidates hst ht'] at h
    exact absurd h (by decide)
  · rfl
  · rw [OrientedCmp.gt_of_lt (key_lt_key candidates hts hs')] at h
    exact absurd h (by decide)

theorem home_eq_findIdx {c : ℕ} (hc : c < candidates.length) :
    (collapse candidates).home c
      = (collapse candidates).tables.findIdx fun t => compare candidates[c].key t.key == .eq := by
  rw [home, collapse, List.getD_eq_getElem _ _ (by simpa using hc), List.getElem_map]

/-- Every candidate has a table. -/
theorem home_lt_size {c : ℕ} (hc : c < candidates.length) :
    (collapse candidates).home c < (collapse candidates).size := by
  rw [home_eq_findIdx hc, size]
  refine List.findIdx_lt_length_of_exists ?_
  have hmem : (candidates[c], c) ∈ candidates.zipIdx :=
    List.mem_zipIdx_iff_getElem?.mpr (List.getElem?_eq_getElem hc)
  obtain ⟨e, he, heq⟩ := (exists_compare_eq_foldl candidates.zipIdx ∅).2 _ hmem
  exact ⟨⟨e.1, e.2⟩, List.mem_map.mpr ⟨e, he, rfl⟩, by simpa using heq⟩

/-- A candidate's key compares equal to that of its table. -/
theorem compare_key_home {c : ℕ} (hc : c < candidates.length) :
    compare candidates[c].key ((collapse candidates).table ((collapse candidates).home c)).key
      = .eq := by
  have hlt := home_lt_size hc
  rw [table, List.getD_eq_getElem _ _ hlt]
  have h := List.findIdx_getElem (w := home_eq_findIdx hc ▸ hlt)
  simp only [← home_eq_findIdx hc, beq_iff_eq] at h
  exact h

/-- A table stores the entity of its candidates. -/
theorem root_home {c : ℕ} (hc : c < candidates.length) :
    ((collapse candidates).table ((collapse candidates).home c)).key.root
      = candidates[c].key.root :=
  (TableKey.root_eq_of_compare_eq (compare_key_home hc)).symm

/-- Every table is the home of some candidate. -/
theorem exists_home_eq {t : ℕ} (ht : t < (collapse candidates).size) :
    ∃ c < candidates.length, (collapse candidates).home c = t := by
  have ht' : t < (group candidates).entries.length := by
    simpa [size, tables_collapse] using ht
  obtain ⟨⟨c, i⟩, hmem, hkey⟩ := (key_of_mem_foldl candidates.zipIdx ∅ _
    (List.getElem_mem ht')).resolve_right (by simp)
  have hi := List.mem_zipIdx_iff_getElem?.mp hmem
  obtain ⟨hlt, hget⟩ := List.getElem?_eq_some_iff.mp hi
  refine ⟨i, hlt, ?_⟩
  have hkey' : candidates[i].key = (collapse candidates).tables[t].key := by
    rw [hget]
    simpa [tables_collapse] using hkey
  -- the keys of the tables before it are strictly below
  rw [home_eq_findIdx hlt, List.findIdx_eq ht, hkey']
  refine ⟨by simp [ReflCmp.compare_self], fun s hs => ?_⟩
  have hlt := key_lt_key candidates hs ht
  rw [OrientedCmp.gt_of_lt hlt]
  rfl

/-- The members of a table are candidates whose keys compare equal to that of the table. -/
theorem compare_key_of_mem_members {t c : ℕ}
    (h : c ∈ ((collapse candidates).table t).members) :
    ∃ hc : c < candidates.length,
      compare candidates[c].key ((collapse candidates).table t).key = .eq := by
  by_cases ht : t < (collapse candidates).tables.length
  · rw [table, List.getD_eq_getElem _ _ ht] at h ⊢
    have ht' : t < (group candidates).entries.length := by
      simpa [tables_collapse] using ht
    obtain ⟨d, hd, heq⟩ := compare_key_foldl (P := (· ∈ candidates.zipIdx)) candidates.zipIdx
      (fun _ hc => hc) ∅ (by simp) _ (List.getElem_mem ht') c (by simpa [tables_collapse] using h)
    obtain ⟨hc, hget⟩ := List.getElem?_eq_some_iff.mp (List.mem_zipIdx_iff_getElem?.mp hd)
    refine ⟨hc, ?_⟩
    rw [show candidates[c] = d from hget]
    simpa [tables_collapse] using heq
  · rw [table, List.getD_eq_default _ _ (by omega)] at h
    exact absurd h List.not_mem_nil

/-! ### Tables of an entity -/

theorem mem_rootedAt {ts : Tables} {id : EntityId} {t : ℕ} :
    t ∈ ts.rootedAt id ↔ t < ts.size ∧ (ts.table t).key.root = id := by
  simp [rootedAt]

theorem length_rootedAt_le (ts : Tables) (id : EntityId) : (ts.rootedAt id).length ≤ ts.size := by
  have h := List.length_filter_le (fun t => (ts.table t).key.root == id) (List.range ts.size)
  rwa [List.length_range] at h

/-- An entity has tables if some candidate stores its rows. -/
theorem rootedAt_ne_nil_iff {id : EntityId} :
    (collapse candidates).rootedAt id ≠ [] ↔ ∃ c ∈ candidates, c.key.root = id := by
  constructor
  · intro h
    obtain ⟨t, ht⟩ := List.exists_mem_of_ne_nil _ h
    obtain ⟨hlt, hroot⟩ := mem_rootedAt.mp ht
    obtain ⟨c, hc, rfl⟩ := exists_home_eq hlt
    exact ⟨candidates[c], List.getElem_mem hc, by rw [← root_home hc, hroot]⟩
  · rintro ⟨c, hc, hroot⟩
    obtain ⟨i, hi, rfl⟩ := List.getElem_of_mem hc
    exact List.ne_nil_of_mem (mem_rootedAt.mpr ⟨home_lt_size hi, (root_home hi).trans hroot⟩)

end Tables

end Keyspace
