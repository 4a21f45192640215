import Keyspace.Proofs.Candidate.Clustering
import Keyspace.Proofs.Selection.Optimal

/-!
# The smallest selections

Without pruning, every level that reads an entity is offered the unpartitioned table with the first
clustering key of the entity (`Model.exists_plainKey_mem_candidates`): the empty set is a partition
key whatever the predicates, and the clustering keys depend on the entity alone.  One such table
for each entity that is read serves all levels (`exists_isSelection_card_le`).  Fewer tables do
not, since levels of different entities have no table in common (`card_readEntities_le`).

Hence insertions stand in the way of a selection only if one may touch no table at all, and the
least number of tables is the number of entities that are read (`Model.isLeast_builtTables`).
-/

namespace Keyspace

open Scalar Tables Formulation
open Exact (finite)

/-! ### Unpartitioned tables -/

/-- The empty set comes first among the partition keys. -/
theorem exists_partitionKeys_eq (paths : PathSet) : ∃ rest, partitionKeys paths = ∅ :: rest := by
  have hempty : sublistsOfLength 0 paths.toList = [[]] := by
    rw [sublistsOfLength]
  rw [partitionKeys, List.range_succ_eq_map, List.flatMap_cons, hempty]
  exact ⟨_, rfl⟩

namespace Model

section Candidates

variable {α : Type} (m : Model α)

/-- The key of the unpartitioned table with the first clustering key of an entity. -/
def plainKey (id : EntityId) : TableKey where
  partitionKey := ∅
  clusteringKey := (m.clusteringKeys id).headD []
  root := id

/-- Every level of an entity is offered its unpartitioned table. -/
theorem exists_plainKey_mem_candidates (l : Level) :
    ∃ c ∈ m.candidates l, c.key = m.plainKey l.clause.root := by
  obtain ⟨partitionKeys', hpartition⟩ := exists_partitionKeys_eq l.clause.sargablePaths
  have hne : m.clusteringKeys l.clause.root ≠ [] := clusteringKeys_ne_nil
  obtain ⟨key, keys, hclustering⟩ := List.exists_cons_of_ne_nil hne
  refine ⟨l.candidate ∅ key, ?_, ?_⟩
  · rw [candidates, hpartition, hclustering]
    exact List.mem_flatMap.mpr ⟨∅, List.mem_cons_self, List.mem_map_of_mem List.mem_cons_self⟩
  · rw [plainKey, hclustering]
    rfl

/-- The entities that planned levels read. -/
def readEntities : Finset EntityId := (m.plannedLevels.map fun l => l.clause.root).toFinset

theorem mem_readEntities {id : EntityId} :
    id ∈ m.readEntities ↔ ∃ l ∈ m.plannedLevels, l.clause.root = id := by
  rw [readEntities, List.mem_toFinset, List.mem_map]

end Candidates

/-! ### Searches without pruning -/

section Unpruned

variable {α : Type} [Scalar α] {m : Model α} {rowScanCost : α} {memo : Memo α} {w : Workload}
  (hw : (m.search rowScanCost false memo).1 = .ok w)
include hw

/-- Every set of alternatives holds the unpartitioned table of an entity that is read. -/
theorem exists_plainKey_of_mem_levelSets {ids : List ℕ}
    (hids : ids ∈ m.levelSets rowScanCost false memo) :
    ∃ c ∈ ids, ∃ id ∈ m.readEntities, (w.candidate c).key = m.plainKey id := by
  obtain ⟨l, hl, hall⟩ := exists_left_of_forall₂ (forall₂_levelSets_unpruned hw) hids
  obtain ⟨candidate, hmem, hkey⟩ := m.exists_plainKey_mem_candidates l
  rw [← hall] at hmem
  obtain ⟨c, hc, rfl⟩ := List.mem_map.mp hmem
  exact ⟨c, hc, _, m.mem_readEntities.mpr ⟨l, hl, rfl⟩, hkey⟩

/-- The unpartitioned table of an entity that is read is some candidate's. -/
theorem exists_lt_plainKey {id : EntityId} (hid : id ∈ m.readEntities) :
    ∃ c < w.candidates.length, (w.candidate c).key = m.plainKey id := by
  obtain ⟨l, hl, rfl⟩ := m.mem_readEntities.mp hid
  obtain ⟨ids, hids, hall⟩ := exists_left_of_forall₂ (forall₂_levelSets_unpruned hw).flip hl
  obtain ⟨candidate, hmem, hkey⟩ := m.exists_plainKey_mem_candidates l
  rw [← hall] at hmem
  obtain ⟨c, hc, rfl⟩ := List.mem_map.mp hmem
  exact ⟨c, (isLeveled_levelSets hw).lt_of_mem hids hc, hkey⟩

/-! ### One table for each entity -/

/-- If every insertion may touch a table, one table for each entity that is read is a selection. -/
theorem exists_isSelection_card_le
    (hinsert : ∀ mu ∈ m.mutations, mu.kind = .insert →
      (∃ c ∈ w.candidates, c.key.root = mu.entity) → 1 ≤ mu.maxTables) :
    ∃ T U, m.IsSelection w (m.levelSets rowScanCost false memo) T U ∧
      T.card ≤ m.readEntities.card := by
  classical
  have hlevels := isLeveled_levelSets hw
  -- the number of the unpartitioned table of an entity
  let place : EntityId → ℕ := fun id =>
    (collapse w.candidates).tables.findIdx fun t => compare (m.plainKey id) t.key == .eq
  have hhome : ∀ c < w.candidates.length, ∀ id, (w.candidate c).key = m.plainKey id →
      (collapse w.candidates).home c = place id := by
    intro c hc id hkey
    rw [home_eq_findIdx hc, ← Workload.candidate_eq_getElem hc, hkey]
  have hplace : ∀ id ∈ m.readEntities, place id < (collapse w.candidates).size ∧
      ((collapse w.candidates).table (place id)).key.root = id := by
    intro id hid
    obtain ⟨c, hc, hkey⟩ := exists_lt_plainKey hw hid
    rw [← hhome c hc id hkey, root_home hc, ← Workload.candidate_eq_getElem hc, hkey]
    exact ⟨home_lt_size hc, rfl⟩
  refine ⟨m.readEntities.image place,
    (Finset.range w.candidates.length).filter fun c =>
      ∃ id ∈ m.readEntities, (w.candidate c).key = m.plainKey id,
    ⟨⟨fun t ht => ?_, fun c hc => ?_, fun c hc => ?_, fun ids hids => ?_⟩,
      fun mu hmu hins hex => ?_⟩, Finset.card_image_le⟩
  · obtain ⟨id, hid, rfl⟩ := Finset.mem_image.mp ht
    exact (hplace id hid).1
  · exact Finset.mem_range.mp (Finset.mem_filter.mp hc).1
  · obtain ⟨hc, id, hid, hkey⟩ := Finset.mem_filter.mp hc
    rw [hhome c (Finset.mem_range.mp hc) id hkey]
    exact Finset.mem_image_of_mem place hid
  · obtain ⟨c, hc, hkey⟩ := exists_plainKey_of_mem_levelSets hw hids
    have hlt := hlevels.lt_of_mem hids hc
    exact ⟨c, hc, Finset.mem_filter.mpr ⟨Finset.mem_range.mpr hlt, hkey⟩⟩
  · -- of the entity of an insertion there is no other table than its unpartitioned one
    have hsub : w.chosenAt (m.readEntities.image place) mu.entity ⊆ {place mu.entity} := by
      intro t ht
      obtain ⟨hmem, hroot⟩ := Finset.mem_filter.mp ht
      obtain ⟨id, hid, rfl⟩ := Finset.mem_image.mp hmem
      rw [(hplace id hid).2] at hroot
      rw [hroot]
      exact Finset.mem_singleton_self _
    calc (w.chosenAt (m.readEntities.image place) mu.entity).card
        ≤ 1 := Finset.card_le_card hsub
      _ ≤ mu.maxTables := hinsert mu hmu hins hex

end Unpruned

/-! ### No fewer tables -/

/-- The levels of each entity read a table of that entity. -/
theorem card_readEntities_le {α : Type} [Scalar α] {m : Model α} {rowScanCost : α} {prune : Bool}
    {memo : Memo α} {w : Workload} (hw : (m.search rowScanCost prune memo).1 = .ok w)
    {T U : Finset ℕ} (h : w.Serves (m.levelSets rowScanCost prune memo) T U) :
    m.readEntities.card ≤ T.card := by
  have hsub : m.readEntities ⊆ T.image fun t => ((collapse w.candidates).table t).key.root := by
    intro id hid
    obtain ⟨l, hl, rfl⟩ := m.mem_readEntities.mp hid
    obtain ⟨ids, hids, -, hsublist⟩ := exists_left_of_forall₂ (forall₂_levelSets hw).flip hl
    obtain ⟨c, hc, hused⟩ := h.covered ids hids
    have hlt := h.candidate_lt c hused
    refine Finset.mem_image.mpr ⟨_, h.linked c hused, ?_⟩
    rw [root_home hlt, ← Workload.candidate_eq_getElem hlt]
    exact root_of_mem_candidates (hsublist.subset (List.mem_map_of_mem hc))
  exact (Finset.card_le_card hsub).trans Finset.card_image_le

/-! ### The program -/

section Program

variable {m : Model Exact} {rowScanCost : Exact} {memo : Memo Exact} {w : Workload}

/-- **The least number of tables.**  Without pruning, the program is feasible unless an insertion
may touch no table of an entity that has candidates, and then the least number of tables set by a
feasible assignment is the number of entities that planned levels read. -/
theorem isLeast_builtTables (hw : (m.search rowScanCost false memo).1 = .ok w)
    (costs : List Exact) :
    ((∃ values, (m.formulate w costs).program.Feasible values) ↔
      ¬ ∃ mu ∈ m.mutations, mu.kind = .insert ∧ mu.maxTables = 0 ∧
        ∃ c ∈ w.candidates, c.key.root = mu.entity) ∧
    ((∃ values, (m.formulate w costs).program.Feasible values) →
      IsLeast {n | ∃ s : Solution Exact, (m.formulate w costs).program.Feasible s.values ∧
          ((m.formulate w costs).builtTables s).length = n}
        (m.plannedLevels.map fun l => l.clause.root).toFinset.card) := by
  have hlevels := isLeveled_siblingSets hw
  have hsets := siblingSets_eq_levelSets hw
  have hfeasible : (∃ values, (m.formulate w costs).program.Feasible values) ↔
      ¬ ∃ mu ∈ m.mutations, mu.kind = .insert ∧ mu.maxTables = 0 ∧
        ∃ c ∈ w.candidates, c.key.root = mu.entity := by
    constructor
    · rintro ⟨values, hvalues⟩ ⟨mu, hmu, hins, hzero, hex⟩
      obtain ⟨T, U, hsel, -⟩ := exists_of_feasible hlevels hvalues
      have hone := hsel.toServes.one_le_card hlevels hex
      have hmax := hsel.fanout mu hmu hins hex
      omega
    · intro hnone
      have hinsert : ∀ mu ∈ m.mutations, mu.kind = .insert →
          (∃ c ∈ w.candidates, c.key.root = mu.entity) → 1 ≤ mu.maxTables := by
        intro mu hmu hins hex
        by_contra hlt
        exact hnone ⟨mu, hmu, hins, by omega, hex⟩
      obtain ⟨T, U, hsel, -⟩ := exists_isSelection_card_le hw hinsert
      rw [← hsets] at hsel
      exact ⟨_, feasible_assignment hlevels costs hsel⟩
  refine ⟨hfeasible, fun hex => ⟨?_, ?_⟩⟩
  · have hnone := hfeasible.mp hex
    obtain ⟨T, U, hsel, hcard⟩ := exists_isSelection_card_le hw fun mu hmu hins hex => by
      by_contra hlt
      exact hnone ⟨mu, hmu, hins, by omega, hex⟩
    have hle := card_readEntities_le hw hsel.toServes
    rw [← hsets] at hsel
    refine ⟨⟨(w.assignment T U).map finite, zero⟩, feasible_assignment hlevels costs hsel, ?_⟩
    exact (length_builtTables m [] hsel.table_lt rfl).trans (le_antisymm hcard hle)
  · rintro n ⟨s, hs, rfl⟩
    obtain ⟨T, U, hsel, hvalues⟩ := exists_of_feasible hlevels hs
    have hlength : ((m.formulate w costs).builtTables s).length = T.card :=
      length_builtTables m [] hsel.table_lt hvalues
    rw [hlength]
    rw [hsets] at hsel
    exact card_readEntities_le hw hsel.toServes

end Program

end Model

/-- A forum needs a table of threads and a table of users, and no more. -/
theorem Model.isLeast_builtTables_forum :
    IsLeast {n | ∃ s : Solution Exact,
        (Forum.model.formulate Forum.workload []).program.Feasible s.values ∧
          ((Forum.model.formulate Forum.workload []).builtTables s).length = n} 2 := by
  have hw : (Forum.model.search (finite 1) false {}).1 = .ok Forum.workload := rfl
  obtain ⟨hfeasible, hleast⟩ := Model.isLeast_builtTables hw []
  have hroots : (Forum.model.plannedLevels.map fun l => l.clause.root).toFinset.card = 2 := by
    decide +kernel
  rw [hroots] at hleast
  refine hleast (hfeasible.mpr ?_)
  -- the only insertion may touch one table
  rintro ⟨mu, hmu, -, hzero, -⟩
  obtain rfl : mu = ⟨"post", 1, .insert, 1, none⟩ := List.mem_singleton.mp hmu
  exact absurd hzero (by decide)

end Keyspace
