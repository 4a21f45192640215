import Keyspace.Proofs.Workload.Priced

/-!
# Promoted predicates cost as much as partition columns

A clustering key that starts with predicates narrows a read just as these predicates would in the
partition key.  So for every candidate its level is offered another one whose partition key holds
the promoted predicates as well, and a read of either table filters, sorts and costs the same
(`Model.exists_partitioned`).

Two facts carry this.  In a built model only predicates that may be part of a key are promoted, so
that the greater partition key is among those enumerated (`Model.sargable_of_mem_effectiveKey`).
And nothing is promoted on the second table, as promotion by the same clustering key has nothing
left to take (`promote_promote`).
-/

namespace Keyspace

/-! ### The other table -/

/-- The predicates that lead the clustering key. -/
def Candidate.promoted (c : Candidate) : PathSet := c.effectiveKey.difference c.key.partitionKey

/-- The candidate `d` has in its partition key what `c` promotes, and is read in the same way. -/
structure Model.HoldsPromoted {α : Type} [Scalar α] (m : Model α) (c d : Candidate) : Prop where
  partitionKey_eq : d.key.partitionKey = c.key.partitionKey.union c.promoted
  clusteringKey_eq : d.key.clusteringKey = c.key.clusteringKey
  root_eq : d.key.root = c.key.root
  remaining_eq : d.remaining = c.remaining
  effectiveKey_eq : d.effectiveKey = c.effectiveKey
  filterRows_eq : m.filterRows d = m.filterRows c
  sortRows_eq : m.sortRows d = m.sortRows c
  estimate_eq : ∀ rowScanCost, m.estimate rowScanCost d = m.estimate rowScanCost c

namespace Level

variable {l : Level} {partitionKey : PathSet} {clusteringKey : List OrderTerm}

/-- The effective key is the partition key with the promoted predicates. -/
theorem union_promoted (h : partitionKey.toList ⊆ l.clause.predicatePaths.toList) :
    partitionKey.union (l.candidate partitionKey clusteringKey).promoted
      = (l.candidate partitionKey clusteringKey).effectiveKey := by
  apply SortedSet.union_difference
  intro p hp
  rw [mem_effectiveKey_iff]
  refine ⟨h hp, fun hremaining => ?_⟩
  -- what is left to filter is outside the partition key
  obtain ⟨-, hne⟩ := SortedSet.mem_toList_difference.mp (promote_sublist.subset hremaining)
  exact hne p hp Std.ReflCmp.compare_self

/-- With the effective key for a partition key, as much is left to filter as before. -/
theorem remaining_candidate_effectiveKey :
    (l.candidate (l.candidate partitionKey clusteringKey).effectiveKey clusteringKey).remaining
      = (l.candidate partitionKey clusteringKey).remaining := by
  have hleft : l.clause.predicatePaths.difference
      (l.candidate partitionKey clusteringKey).effectiveKey
        = (l.candidate partitionKey clusteringKey).remaining :=
    SortedSet.difference_difference fun p hp => mem_predicatePaths_of_mem_remaining hp
  show promote (l.clause.predicatePaths.difference _) clusteringKey = _
  rw [hleft]
  exact promote_promote

/-- With the effective key for a partition key, nothing else changes. -/
theorem candidate_effectiveKey_eq :
    l.candidate (l.candidate partitionKey clusteringKey).effectiveKey clusteringKey
      = { l.candidate partitionKey clusteringKey with
          key := ⟨(l.candidate partitionKey clusteringKey).effectiveKey, clusteringKey,
            l.clause.root⟩ } := by
  have hremaining : (l.candidate (l.candidate partitionKey clusteringKey).effectiveKey
      clusteringKey).remaining = (l.candidate partitionKey clusteringKey).remaining :=
    remaining_candidate_effectiveKey
  rw [Candidate.mk.injEq]
  exact ⟨rfl, rfl, hremaining, rfl, rfl⟩

/-- The table with the effective key for a partition key is read in the same way. -/
theorem holdsPromoted_candidate {α : Type} [Scalar α] (m : Model α)
    (h : partitionKey.toList ⊆ l.clause.predicatePaths.toList) :
    m.HoldsPromoted (l.candidate partitionKey clusteringKey)
      (l.candidate (l.candidate partitionKey clusteringKey).effectiveKey clusteringKey) := by
  rw [candidate_effectiveKey_eq]
  -- an estimate looks at the partition key only through what is left to filter
  exact ⟨(union_promoted h).symm, rfl, rfl, rfl, rfl, rfl, rfl, fun _ => rfl⟩

end Level

namespace Model

/-- Every candidate of a level has another one for what it promotes. -/
theorem exists_holdsPromoted {α : Type} [Scalar α] {decls : Declarations α} {m : Model α}
    (hbuild : decls.build = .ok m) {l : Level} (hl : l ∈ m.levels) {c : Candidate}
    (hc : c ∈ m.candidates l) : ∃ d ∈ m.candidates l, m.HoldsPromoted c d := by
  have hresolved := Declarations.resolved_of_build hbuild l hl
  obtain ⟨partitionKey, hpartition, clusteringKey, hclustering, rfl⟩ := mem_candidates_iff.mp hc
  have hsargable := (mem_partitionKeys_iff _).mp hpartition
  have hpredicates : partitionKey.toList ⊆ l.clause.predicatePaths.toList := fun p hp =>
    (hresolved.mem_sargablePaths_iff.mp (hsargable p hp)).1
  refine ⟨_, mem_candidates_iff.mpr ⟨_, (mem_partitionKeys_iff _).mpr fun p hp => ?_, _,
    hclustering, rfl⟩, Level.holdsPromoted_candidate m hpredicates⟩
  apply hresolved.mem_sargablePaths_iff.mpr
  exact ⟨(Level.mem_effectiveKey_iff.mp hp).1,
    sargable_of_mem_effectiveKey hbuild hl hsargable hclustering hp⟩

/-- **A promoted predicate costs as much as a partition column.**  In a workload searched without
pruning, every alternative of a level has another one beside it with the promoted predicates in the
partition key and the same clustering key.  The same predicates are left to filter, the effective
keys are the same, and so are the rows to filter, the rows to sort and the cost, estimated anew or
remembered. -/
theorem exists_partitioned {α : Type} [Scalar α] {decls : Declarations α} {m : Model α}
    (hbuild : decls.build = .ok m) {rowScanCost : α} {memo : Memo α}
    (hmemo : m.RemembersCosts rowScanCost memo) {w : Workload}
    (hw : (m.search rowScanCost false memo).1 = .ok w) :
    List.Forall₂
      (fun _ ids => ∀ c ∈ ids, ∃ d ∈ ids, m.HoldsPromoted (w.candidate c) (w.candidate d) ∧
        ∃ e, m.estimate rowScanCost (w.candidate c) = .ok e ∧
          m.estimate rowScanCost (w.candidate d) = .ok e ∧
          ∀ memo', m.RemembersCosts rowScanCost memo' →
            (m.cost rowScanCost (w.candidate c) memo').1 = .ok e.total ∧
            (m.cost rowScanCost (w.candidate d) memo').1 = .ok e.total)
      m.plannedLevels w.siblingSets := by
  have hanswers := forall₂_siblingSets hmemo hw
  refine (List.forall₂_and_left _ _ |>.mpr ⟨fun l hl => hl, hanswers⟩).imp ?_
  rintro l ids ⟨hplanned, hanswer⟩ c hc
  have hl : l ∈ m.levels := List.mem_of_mem_filter hplanned
  have hcandidates : ids.map w.candidate = m.candidates l :=
    (LevelPlan.tables.inj
      (eq_tables_of_answer (bindsIdentifier_of_mem_plannedLevels hplanned) hanswer)).2
  have hmem : w.candidate c ∈ ids.map w.candidate := List.mem_map_of_mem hc
  obtain ⟨d, hd, hholds⟩ := exists_holdsPromoted hbuild hl (hcandidates ▸ hmem)
  rw [← hcandidates] at hd
  obtain ⟨d, hids, rfl⟩ := List.mem_map.mp hd
  obtain ⟨e, he⟩ := exists_estimate_of_answer hanswer hmem
  have he' : m.estimate rowScanCost (w.candidate d) = .ok e :=
    (hholds.estimate_eq rowScanCost).trans he
  refine ⟨d, hids, hholds, e, he, he', fun memo' hmemo' => ?_⟩
  rw [cost_fst hmemo', cost_fst hmemo', he, he']
  exact ⟨rfl, rfl⟩

/-- The first table of an inbox has no partition key and promotes the folder.  The table that is
partitioned by folder and sorted in the same way leaves the same predicate to filter, the name of
the sender, and a read of it costs as much. -/
theorem exists_partitioned_inbox :
    (Inbox.workload.candidate 0).key.partitionKey.size = 0 ∧
    (Inbox.workload.candidate 2).key.partitionKey.size = 1 ∧
    Inbox.model.HoldsPromoted (Inbox.workload.candidate 0) (Inbox.workload.candidate 2) ∧
    ∃ e, Inbox.model.estimate (.finite 1) (Inbox.workload.candidate 0) = .ok e ∧
      Inbox.model.estimate (.finite 1) (Inbox.workload.candidate 2) = .ok e := by
  have hbuild : Inbox.declarations.build = .ok Inbox.model := rfl
  have hw : (Inbox.model.search (.finite 1) false {}).1 = .ok Inbox.workload := rfl
  have hsets : Inbox.workload.siblingSets = [[0, 1, 2, 3]] :=
    (siblingSets_eq_levelSets hw).trans rfl
  have hlevels := exists_partitioned hbuild remembersCosts_empty hw
  rw [hsets] at hlevels
  obtain ⟨_, _, hlevel, -, -⟩ := List.forall₂_cons_right_iff.mp hlevels
  obtain ⟨d, hd, hholds, e, he, he', -⟩ := hlevel 0 List.mem_cons_self
  -- of the other tables, one promotes the folder too and two are sorted in another way
  have hsize := congrArg SortedSet.size hholds.partitionKey_eq
  have hlength := congrArg List.length hholds.clusteringKey_eq
  have hd2 : d = 2 := by
    simp only [List.mem_cons, List.not_mem_nil, or_false] at hd
    rcases hd with rfl | rfl | rfl | rfl
    · exact absurd hsize (by decide +kernel)
    · exact absurd hlength (by decide +kernel)
    · rfl
    · exact absurd hlength (by decide +kernel)
  subst hd2
  exact ⟨rfl, rfl, hholds, e, he, he'⟩

end Model

end Keyspace
