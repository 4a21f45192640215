import Keyspace.Proofs.Schema.Levels
import Keyspace.Proofs.Sorted.Set
import Keyspace.Proofs.Workload.Siblings

/-!
# Candidates by level and by query

The candidates of a searched workload are numbered level by level.  `Model.siblingSets_partition`
puts together what that means: the sibling sets are consecutive blocks of numbers, one for each
planned level in the order of the levels, they exhaust the candidates without overlap, and all
members of a block come from its level.

The candidates of a query are read off the plan trees, which the query shares with others only if
it is the same query: `Workload.mem_flatMap_idsOf_iff` finds a number in the trees of a query
exactly if the candidate of that number belongs to the query.
-/

namespace Keyspace

open Workload

/-! ### Numbers in a tree -/

/-- If every level has an alternative, the tree mentions all alternatives of all levels. -/
theorem Plan.mem_idsOf_nest {sets : List (List ℕ)} (h : ∀ ids ∈ sets, ids ≠ []) {c : ℕ} :
    c ∈ idsOf (nest sets) ↔ c ∈ sets.flatten := by
  have hsiblings : ∀ (children : List Plan) (ids : List ℕ),
      c ∈ idsOf (ids.map fun id => ⟨id, children⟩) ↔ c ∈ ids ∨ ids ≠ [] ∧ c ∈ idsOf children := by
    intro children ids
    induction ids with
    | nil => simp [idsOf]
    | cons id ids ih =>
      rw [List.map_cons, idsOf, Plan.ids, List.mem_append, List.mem_cons, ih, List.mem_cons]
      tauto
  induction sets with
  | nil => exact iff_of_false List.not_mem_nil List.not_mem_nil
  | cons ids rest ih =>
    obtain ⟨hids, hrest⟩ := List.forall_mem_cons.mp h
    rw [nest, hsiblings, List.flatten_cons, List.mem_append, and_iff_right hids]
    exact or_congr_right (ih hrest)

/-! ### Numbers in the trees of a query -/

namespace Workload

/-- All answers, and all candidates among them, belong to one query. -/
def BelongsTo (query : QueryId) (ps : List LevelPlan) : Prop :=
  ∀ p ∈ ps, p.level.query = query ∧ ∀ c ∈ p.candidates, c.query = query

theorem BelongsTo.query_eq {query : QueryId} {ps : List LevelPlan} (h : BelongsTo query ps)
    {c : Candidate} (hc : c ∈ ps.flatMap LevelPlan.candidates) : c.query = query := by
  obtain ⟨p, hp, hc⟩ := List.mem_flatMap.mp hc
  exact (h p hp).2 c hc

/-- The tree of a selection is one of its query, and mentions all candidates of the selection. -/
theorem mem_idsOf_selectionPlan?_iff {ps : List LevelPlan} (hfound : AllFound ps) {owner : QueryId}
    (howner : BelongsTo owner ps) (next : ℕ) (query : QueryId) (c : ℕ) :
    c ∈ (((selectionPlan? next ps).toList.filter fun p => p.query == query).flatMap
        fun p => Plan.idsOf p.plans) ↔
      c ∈ List.range' next (ps.flatMap LevelPlan.candidates).length ∧ owner = query := by
  rw [selectionPlan?]
  cases hfirst : ps.find? LevelPlan.isPlanned with
  | some first =>
    have hquery : first.level.query = owner := (howner first (List.mem_of_find?_eq_some hfirst)).1
    have hnest := Plan.mem_idsOf_nest (fun ids hids => (block_spec hfound next ids hids).1) (c := c)
    rw [flatten_blocks] at hnest
    rw [Option.map_some, Option.toList_some, hquery]
    by_cases heq : owner = query
    · rw [List.filter_cons_of_pos (by simpa using heq)]
      simp [heq, hnest]
    · rw [List.filter_cons_of_neg (by simpa using heq)]
      simp [heq]
  | none =>
    -- direct lookups have no candidates
    have hnone : ps.flatMap LevelPlan.candidates = [] := by
      refine List.flatMap_eq_nil_iff.mpr fun p hp => ?_
      cases p with
      | lookup l => rfl
      | tables l cs => exact absurd rfl (List.find?_eq_none.mp hfirst _ hp)
    simp [hnone]

/-- A number is in the trees of a query exactly if its candidate belongs to the query. -/
theorem mem_flatMap_idsOf_iff {selections : List (List LevelPlan)}
    (hfound : AllFound selections.flatten)
    (howner : ∀ ps ∈ selections, ∃ owner, BelongsTo owner ps) (query : QueryId) :
    ∀ next c : ℕ,
      c ∈ (((selectionPlans next selections).filter fun p => p.query == query).flatMap
          fun p => Plan.idsOf p.plans) ↔
        ∃ i candidate, c = next + i ∧
          (selections.flatten.flatMap LevelPlan.candidates)[i]? = some candidate ∧
          candidate.query = query := by
  induction selections with
  | nil =>
    intro next c
    simp [selectionPlans]
  | cons ps rest ih =>
    intro next c
    obtain ⟨⟨owner, hps⟩, hrest⟩ := List.forall_mem_cons.mp howner
    have hfoundPs : AllFound ps := fun p hp => hfound p (List.mem_append_left _ hp)
    have hfoundRest : AllFound rest.flatten := fun p hp => hfound p (List.mem_append_right _ hp)
    rw [selectionPlans, List.filter_append, List.flatMap_append, List.mem_append,
      mem_idsOf_selectionPlan?_iff hfoundPs hps, ih hfoundRest hrest, List.flatten_cons,
      List.flatMap_append]
    set own := ps.flatMap LevelPlan.candidates with hown
    constructor
    · rintro (⟨hrange, rfl⟩ | ⟨i, candidate, rfl, hget, hquery⟩)
      · obtain ⟨i, hi, rfl⟩ := List.mem_range'.mp hrange
        refine ⟨i, own[i], by rw [Nat.one_mul], ?_, hps.query_eq (List.getElem_mem hi)⟩
        rw [List.getElem?_append_left hi, List.getElem?_eq_getElem hi]
      · refine ⟨own.length + i, candidate, by rw [Nat.add_assoc], ?_, hquery⟩
        rwa [List.getElem?_append_right (Nat.le_add_right _ _), Nat.add_sub_cancel_left]
    · rintro ⟨i, candidate, rfl, hget, hquery⟩
      by_cases hi : i < own.length
      · rw [List.getElem?_append_left hi] at hget
        refine .inl ⟨List.mem_range'.mpr ⟨i, hi, by rw [Nat.one_mul]⟩, ?_⟩
        rw [← hquery, hps.query_eq (List.mem_of_getElem? hget)]
      · rw [List.getElem?_append_right (Nat.le_of_not_lt hi)] at hget
        exact .inr ⟨i - own.length, candidate, by omega, hget, hquery⟩

end Workload

/-! ### Searched workloads -/

namespace Model

variable {α : Type} [Scalar α] {m : Model α} {rowScanCost : α} {prune : Bool} {memo : Memo α}
  {w : Workload}

/-- The answers for one selection belong to the query of the selection. -/
theorem exists_belongsTo {ps : List (List LevelPlan)}
    (h : m.levelPlans rowScanCost prune memo = .ok ps) {answers : List LevelPlan}
    (hanswers : answers ∈ ps) : ∃ owner, BelongsTo owner answers := by
  obtain ⟨levels, hlevels, hsel⟩ := exists_left_of_forall₂
    (forall₂_of_levelPlans h fun _ _ _ => answers_of_planLevel) hanswers
  obtain ⟨owner, -, howner⟩ := m.exists_query_of_mem_selectionLevels hlevels
  refine ⟨owner, fun p hp => ?_⟩
  obtain ⟨l, hl, hanswer⟩ := exists_left_of_forall₂ hsel hp
  refine ⟨by rw [hanswer.level_eq, howner l hl], fun c hc => ?_⟩
  exact (query_of_mem_candidates (hanswer.mem_candidates hc)).trans (howner l hl)

variable (h : (m.search rowScanCost prune memo).1 = .ok w)
include h

/-- The candidates of a query are those found for it, in ascending order. -/
theorem candidatesFor_eq_filter (query : QueryId) :
    w.candidatesFor query
      = (List.range w.candidates.length).filter fun c => (w.candidate c).query == query := by
  obtain ⟨ps, hps, rfl⟩ := exists_levelPlans h
  refine SortedSet.eq_of_ascending_of_mem_iff (SortedSet.ascending _) ?_ fun c => ?_
  · exact (SortedSet.ascending_of_lt List.pairwise_lt_range).filter _
  · rw [candidatesFor, SortedSet.mem_toList_ofList]
    show c ∈ (((selectionPlans 0 ps).filter _).flatMap _) ↔ _
    rw [mem_flatMap_idsOf_iff (allFound_of_answers (forall₂_answers hps))
      (fun answers hanswers => exists_belongsTo hps hanswers) query 0 c, List.mem_filter,
      List.mem_range]
    constructor
    · rintro ⟨i, candidate, hi, hget, hquery⟩
      obtain rfl : c = i := by omega
      obtain ⟨hlt, rfl⟩ := List.getElem?_eq_some_iff.mp hget
      refine ⟨hlt, beq_iff_eq.mpr ?_⟩
      rw [candidate_eq_getElem hlt]
      exact hquery
    · rintro ⟨hlt, hquery⟩
      rw [candidate_eq_getElem hlt, beq_iff_eq] at hquery
      exact ⟨c, _, (Nat.zero_add c).symm, List.getElem?_eq_getElem hlt, hquery⟩

/-- The direct lookups are the levels that bind the identifier, in the order of the levels. -/
theorem lookups_eq :
    w.lookups = (m.levels.filter fun l => m.bindsIdentifier l.clause).map
      fun l => ⟨l.query, l.label⟩ := by
  obtain ⟨ps, hps, rfl⟩ := exists_levelPlans h
  exact filterMap_lookup?_eq (forall₂_answers hps)

/-- **The sibling sets of a searched workload partition its candidates by level**, one block of
consecutive numbers for each planned level, in the order of the levels; and the candidates of a
query are those that were found for it. -/
theorem siblingSets_partition :
    List.Forall₂
      (fun l ids => ids ≠ [] ∧ (∃ next, ids = List.range' next ids.length) ∧
        ∀ c ∈ ids, (w.candidate c).query = l.query ∧ (w.candidate c).clause = l.clause ∧
          (w.candidate c).pageSize = l.pageSize ∧ (w.candidate c).key.root = l.clause.root)
      m.plannedLevels w.siblingSets ∧
    w.siblingSets.flatten = List.range w.candidates.length ∧
    (∀ c < w.candidates.length, ∃! k : ℕ, ∃ ids, w.siblingSets[k]? = some ids ∧ c ∈ ids) ∧
    ∀ query, w.candidatesFor query
      = (List.range w.candidates.length).filter fun c => (w.candidate c).query == query := by
  have hlevels := isLeveled_levelSets h
  rw [siblingSets_eq_levelSets h]
  refine ⟨?_, hlevels.flatten_eq, fun c hc => hlevels.existsUnique_mem hc,
    candidatesFor_eq_filter h⟩
  refine (forall₂_levelSets_of h (fun _ _ => id) fun _ _ _ => answers_of_planLevel).imp ?_
  rintro l ids ⟨hblock, hanswer⟩
  refine ⟨?_, hblock, fun c hc => ?_⟩
  · cases hanswer with
    | tables binds nonempty sublist => simpa using nonempty
  · obtain ⟨partitionKey, clusteringKey, heq⟩ :=
      m.eq_candidate_of_mem (hanswer.mem_candidates (List.mem_map_of_mem hc))
    rw [heq]
    exact ⟨rfl, rfl, rfl, rfl⟩

end Model

/-- The candidates for a forum: the lookup of a thread has none, and the authors below it are a
level of their own. -/
theorem Model.siblingSets_partition_forum :
    Forum.workload.siblingSets = [[0], [1], [2, 3]] ∧
    (∀ c < 4, ∃! k : ℕ, ∃ ids, Forum.workload.siblingSets[k]? = some ids ∧ c ∈ ids) ∧
    Forum.workload.candidatesFor 1 = [2, 3] := by
  have hw : (Forum.model.search (.finite 1) false {}).1 = .ok Forum.workload := rfl
  obtain ⟨-, -, hunique, hquery⟩ := Model.siblingSets_partition hw
  exact ⟨(siblingSets_eq_levelSets hw).trans rfl, hunique, (hquery 1).trans (by decide +kernel)⟩

end Keyspace
