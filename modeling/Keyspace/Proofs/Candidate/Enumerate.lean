import Mathlib.Algebra.Group.Nat.Defs
import Keyspace.Proofs.Candidate.Clustering
import Keyspace.Proofs.Candidate.Key
import Keyspace.Proofs.Candidate.Partition
import Keyspace.Proofs.Workload.Siblings

/-!
# What the candidates of a level are

Without pruning, a planned level is offered one candidate for every pair of a subset of its sargable
predicates and a clustering key of its entity, in the order of these, and no two of them have the
same key (`Level.Enumerates`).  Each candidate divides the predicates of the level between its
effective key and what is left to filter, and its keys hold nothing that could go stale
(`Level.Divides`).  `Model.candidates_enumerated` says both for all planned levels of a searched
workload.

That keys never go stale rests on the model being built: sets of paths look at walks alone, and only
for paths of one catalog does a walk decide whether a path may be part of a key.
-/

namespace Keyspace

open Std (TransOrd OrientedCmp ReflCmp)

/-! ### Keys in the order of their enumeration -/

/-- Small partition keys come first, those of one size in the order of their members; with each
partition key, clustering keys come in their order. -/
def TableKey.compareBySize (a b : TableKey) : Ordering :=
  (a.partitionKey.compareBySize b.partitionKey).then (compare a.clusteringKey b.clusteringKey)

/-- Keys that compare equal take the same place. -/
theorem TableKey.compareBySize_of_compare_eq {a b : TableKey} (h : compare a b = .eq) :
    a.compareBySize b = .eq := by
  have hclustering := compare_clusteringKey h
  rw [compare_def, Ordering.then_eq_eq] at h
  rw [compareBySize, SortedSet.compareBySize_of_compare_eq h.1, hclustering]
  rfl

theorem TableKey.compareBySize_swap (a b : TableKey) :
    (a.compareBySize b).swap = b.compareBySize a := by
  have hswap {β : Type} [Ord β] [TransOrd β] (x y : β) : (compare x y).swap = compare y x :=
    OrientedCmp.eq_swap.symm
  rw [compareBySize, compareBySize, SortedSet.compareBySize, SortedSet.compareBySize,
    Ordering.swap_then, Ordering.swap_then, hswap, hswap, hswap]

/-! ### The candidates of a level -/

/-- The candidates `cs` are offered to a level whose entity has the given clustering keys: one for
every pair of a set of sargable predicates and a clustering key. -/
structure Level.Enumerates (l : Level) (clusteringKeys : List (List OrderTerm))
    (cs : List Candidate) : Prop where
  exists_iff : ∀ (partitionKey : PathSet) (clusteringKey : List OrderTerm),
    (∃ c ∈ cs, c.key = ⟨partitionKey, clusteringKey, l.clause.root⟩) ↔
      (∀ p ∈ partitionKey.toList, p.sargable = true ∧ ∃ q ∈ l.clause.predicates, q.path = p) ∧
        clusteringKey ∈ clusteringKeys
  /-- No pair is met twice, and their order is that of the enumeration. -/
  ascending : cs.Pairwise fun c d => c.key.compareBySize d.key = .lt
  length_eq : cs.length = 2 ^ l.clause.sargablePaths.size * clusteringKeys.length
  /-- No two candidates would share a table. -/
  compare_ne : cs.Pairwise fun c d => compare c.key d.key ≠ .eq

/-- The paths that a read of a candidate relies on as keys. -/
def Candidate.keyPaths (c : Candidate) : List Path :=
  c.key.partitionKey.toList ++ c.key.clusteringKey.map OrderTerm.path ++ c.effectiveKey.toList

/-- A candidate divides the predicates of its level into those of its effective key and those left
to filter, and relies on no path that could go stale. -/
structure Level.Divides (l : Level) (c : Candidate) : Prop where
  exists_iff : ∀ p, (∃ q ∈ l.clause.predicates, q.path = p) ↔
    p ∈ c.effectiveKey.toList ∨ p ∈ c.remaining.toList
  disjoint : ∀ p ∈ c.effectiveKey.toList, ∀ q ∈ c.remaining.toList, p.walk ≠ q.walk
  /-- Predicates that cannot be part of a key are left to filter. -/
  mem_remaining : ∀ q ∈ l.clause.predicates, q.path.sargable = false →
    q.path ∈ c.remaining.toList
  sargable : ∀ p ∈ c.keyPaths, p.sargable = true
  root_eq : ∀ p ∈ c.keyPaths ++ c.remaining.toList, p.root = l.clause.root

namespace Model

variable {α : Type} {m : Model α} {l : Level}

/-! ### Which candidates there are -/

theorem mem_candidates_iff {c : Candidate} :
    c ∈ m.candidates l ↔ ∃ partitionKey ∈ partitionKeys l.clause.sargablePaths,
      ∃ clusteringKey ∈ m.clusteringKeys l.clause.root,
        l.candidate partitionKey clusteringKey = c := by
  simp only [candidates, List.mem_flatMap, List.mem_map]

/-- Candidates are keyed by paths that may be part of a key. -/
theorem isSargable_key_of_mem {c : Candidate} (h : c ∈ m.candidates l) : c.key.IsSargable := by
  obtain ⟨s, hs, k, hk, rfl⟩ := mem_candidates_iff.mp h
  refine ⟨fun p hp => ?_, fun t ht => sargable_of_mem_clusteringKeys hk ht⟩
  have hmem := SortedSet.mem_of_mem_toList_ofList ((mem_partitionKeys_iff _).mp hs p hp)
  exact (List.mem_filter.mp hmem).2

theorem length_candidates :
    (m.candidates l).length
      = 2 ^ l.clause.sargablePaths.size * (m.clusteringKeys l.clause.root).length := by
  rw [candidates, List.length_flatMap, ← length_partitionKeys]
  simp

/-- Every level has candidates. -/
theorem candidates_ne_nil : m.candidates l ≠ [] := by
  have hpos : 0 < (m.clusteringKeys l.clause.root).length :=
    List.length_pos_iff.mpr clusteringKeys_ne_nil
  rw [← List.length_pos_iff, length_candidates]
  exact Nat.mul_pos (Nat.two_pow_pos _) hpos

theorem pairwise_candidates :
    (m.candidates l).Pairwise fun c d => c.key.compareBySize d.key = .lt := by
  rw [candidates, List.pairwise_flatMap]
  constructor
  · -- with one partition key, the clustering keys ascend
    intro partitionKey _
    refine List.pairwise_map.mpr (pairwise_clusteringKeys.imp fun {a b} hab => ?_)
    have hself : partitionKey.compareBySize partitionKey = .eq :=
      SortedSet.compareBySize_of_compare_eq ReflCmp.compare_self
    rw [TableKey.compareBySize, Level.candidate, Level.candidate, hself, hab]
    rfl
  · refine (pairwise_partitionKeys _).imp fun {s t} hst c hc d hd => ?_
    obtain ⟨_, -, rfl⟩ := List.mem_map.mp hc
    obtain ⟨_, -, rfl⟩ := List.mem_map.mp hd
    rw [TableKey.compareBySize, Level.candidate, Level.candidate, hst]
    rfl

/-- The candidates of a level are one for each pair of keys. -/
theorem enumerates_candidates (hl : m.catalog.Resolved l.clause) :
    l.Enumerates (m.clusteringKeys l.clause.root) (m.candidates l) := by
  refine ⟨fun partitionKey clusteringKey => ?_, pairwise_candidates, length_candidates, ?_⟩
  · have hsubset : partitionKey ∈ partitionKeys l.clause.sargablePaths ↔
        ∀ p ∈ partitionKey.toList, p.sargable = true ∧ ∃ q ∈ l.clause.predicates, q.path = p := by
      rw [mem_partitionKeys_iff]
      refine forall₂_congr fun p _ => ?_
      rw [hl.mem_sargablePaths_iff, hl.mem_predicatePaths_iff, and_comm]
    rw [← hsubset]
    constructor
    · rintro ⟨c, hc, hkey⟩
      obtain ⟨s, hs, k, hk, rfl⟩ := mem_candidates_iff.mp hc
      obtain ⟨rfl, rfl, -⟩ := TableKey.mk.inj hkey
      exact ⟨hs, hk⟩
    · rintro ⟨hs, hk⟩
      exact ⟨_, mem_candidates_iff.mpr ⟨_, hs, _, hk, rfl⟩, rfl⟩
  · refine pairwise_candidates.imp fun {c d} hlt heq => ?_
    rw [TableKey.compareBySize_of_compare_eq heq] at hlt
    exact absurd hlt (by decide)

end Model

/-! ### What a candidate leaves to filter -/

namespace Level

variable {l : Level} {partitionKey : PathSet} {clusteringKey : List OrderTerm} {p : Path}

theorem mem_predicatePaths_of_mem_remaining
    (h : p ∈ (l.candidate partitionKey clusteringKey).remaining.toList) :
    p ∈ l.clause.predicatePaths.toList :=
  (SortedSet.mem_toList_difference.mp (promote_sublist.subset h)).1

/-- The effective key is what is not left to filter. -/
theorem mem_effectiveKey_iff :
    p ∈ (l.candidate partitionKey clusteringKey).effectiveKey.toList ↔
      p ∈ l.clause.predicatePaths.toList ∧
        p ∉ (l.candidate partitionKey clusteringKey).remaining.toList := by
  rw [Candidate.effectiveKey, SortedSet.mem_toList_difference]
  refine and_congr_right fun hp => ⟨fun h hmem => ?_, fun h q hq heq => ?_⟩
  · exact h p hmem ReflCmp.compare_self
  · have hpq := SortedSet.eq_of_compare_eq hp (mem_predicatePaths_of_mem_remaining hq) heq
    exact h (hpq ▸ hq)

/-- A predicate of the effective key is one of the partition key, or leads the clustering key. -/
theorem exists_of_mem_effectiveKey
    (h : p ∈ (l.candidate partitionKey clusteringKey).effectiveKey.toList) :
    (∃ q ∈ partitionKey.toList, compare p q = .eq) ∨
      ∃ t ∈ clusteringKey, compare t.path p = .eq := by
  obtain ⟨hp, hnot⟩ := mem_effectiveKey_iff.mp h
  by_cases hkey : ∃ q ∈ partitionKey.toList, compare p q = .eq
  · exact .inl hkey
  · have hleft : p ∈ (l.clause.predicatePaths.difference partitionKey).toList :=
      SortedSet.mem_toList_difference.mpr ⟨hp, fun q hq heq => hkey ⟨q, hq, heq⟩⟩
    exact .inr (exists_compare_eq_of_not_mem_promote hleft hnot)

end Level

/-! ### What a candidate relies on -/

namespace Model

variable {α : Type} {decls : Declarations α} {m : Model α} (hbuild : decls.build = .ok m)
  {l : Level} (hl : l ∈ m.levels)
include hbuild hl

/-- No predicate of the effective key could go stale. -/
theorem sargable_of_mem_effectiveKey {partitionKey : PathSet}
    (hs : ∀ p ∈ partitionKey.toList, p ∈ l.clause.sargablePaths.toList)
    {clusteringKey : List OrderTerm} (hk : clusteringKey ∈ m.clusteringKeys l.clause.root)
    {p : Path} (h : p ∈ (l.candidate partitionKey clusteringKey).effectiveKey.toList) :
    p.sargable = true := by
  have hresolved := Declarations.resolved_of_build hbuild l hl
  have hp := (Level.mem_effectiveKey_iff.mp h).1
  rcases Level.exists_of_mem_effectiveKey h with ⟨q, hq, heq⟩ | ⟨t, ht, heq⟩
  · obtain ⟨hmem, hsargable⟩ := hresolved.mem_sargablePaths_iff.mp (hs q hq)
    rwa [SortedSet.eq_of_compare_eq hp hmem heq]
  · exact sargable_of_compare_eq hk ht hbuild (hresolved.isPath_of_mem_predicatePaths hp).2 heq

/-- Every candidate of a level divides the predicates of the level. -/
theorem divides_of_mem_candidates {c : Candidate} (hc : c ∈ m.candidates l) : l.Divides c := by
  have hresolved := Declarations.resolved_of_build hbuild l hl
  obtain ⟨partitionKey, hs, clusteringKey, hk, rfl⟩ := mem_candidates_iff.mp hc
  have hs := (mem_partitionKeys_iff _).mp hs
  have hpredicate : ∀ p, (∃ q ∈ l.clause.predicates, q.path = p) ↔
      p ∈ (l.candidate partitionKey clusteringKey).effectiveKey.toList ∨
        p ∈ (l.candidate partitionKey clusteringKey).remaining.toList := by
    intro p
    rw [← hresolved.mem_predicatePaths_iff, Level.mem_effectiveKey_iff]
    have hsub : p ∈ (l.candidate partitionKey clusteringKey).remaining.toList →
        p ∈ l.clause.predicatePaths.toList := Level.mem_predicatePaths_of_mem_remaining
    tauto
  have hroot : ∀ p ∈ l.clause.predicatePaths.toList, p.root = l.clause.root := fun p hp =>
    (hresolved.isPath_of_mem_predicatePaths hp).1
  refine ⟨hpredicate, fun p hp q hq hwalk => ?_, fun q hq hstale => ?_, fun p hp => ?_,
    fun p hp => ?_⟩
  · -- members of one set with the same walk are the same
    obtain ⟨hmem, hnot⟩ := Level.mem_effectiveKey_iff.mp hp
    have hpq := SortedSet.eq_of_compare_eq hmem (Level.mem_predicatePaths_of_mem_remaining hq)
      (Path.compare_eq_iff.mpr hwalk)
    exact hnot (hpq ▸ hq)
  · refine ((hpredicate q.path).mp ⟨q, hq, rfl⟩).resolve_left fun hkey => ?_
    rw [sargable_of_mem_effectiveKey hbuild hl hs hk hkey] at hstale
    exact absurd hstale (by decide)
  · rcases List.mem_append.mp hp with hp | hp
    · rcases List.mem_append.mp hp with hp | hp
      · exact (hresolved.mem_sargablePaths_iff.mp (hs p hp)).2
      · obtain ⟨t, ht, rfl⟩ := List.mem_map.mp hp
        exact sargable_of_mem_clusteringKeys hk ht
    · exact sargable_of_mem_effectiveKey hbuild hl hs hk hp
  · simp only [Candidate.keyPaths, List.mem_append] at hp
    rcases hp with ((hp | hp) | hp) | hp
    · exact hroot p (hresolved.mem_sargablePaths_iff.mp (hs p hp)).1
    · obtain ⟨t, ht, rfl⟩ := List.mem_map.mp hp
      exact root_of_mem_clusteringKeys hk ht hbuild
    · exact hroot p (Level.mem_effectiveKey_iff.mp hp).1
    · exact hroot p (Level.mem_predicatePaths_of_mem_remaining hp)

end Model

/-! ### Searched workloads -/

/-- **Without pruning, every planned level of a built model is offered all candidates**, one for
each set of sargable predicates and each clustering key of its entity, in order and without
repetition; and every candidate divides the predicates of its level without relying on a path that
could go stale. -/
theorem Model.candidates_enumerated {α : Type} [Scalar α] {decls : Declarations α} {m : Model α}
    (hbuild : decls.build = .ok m) {rowScanCost : α} {memo : Memo α} {w : Workload}
    (hw : (m.search rowScanCost false memo).1 = .ok w) :
    List.Forall₂
      (fun l ids => l.Enumerates (m.clusteringKeys l.clause.root) (ids.map w.candidate) ∧
        ∀ c ∈ ids, l.Divides (w.candidate c))
      m.plannedLevels w.siblingSets := by
  have hlevels : ∀ l ∈ m.plannedLevels, l ∈ m.levels := fun l hl => List.mem_of_mem_filter hl
  rw [siblingSets_eq_levelSets hw]
  refine (List.forall₂_and_left _ _ |>.mpr ⟨hlevels, forall₂_levelSets_unpruned hw⟩).imp ?_
  rintro l ids ⟨hl, hids⟩
  have hresolved := Declarations.resolved_of_build hbuild l hl
  refine ⟨hids ▸ enumerates_candidates hresolved, fun c hc => ?_⟩
  exact divides_of_mem_candidates hbuild hl (hids ▸ List.mem_map_of_mem hc)

namespace Inbox

/-- An inbox whose messages are listed by folder, filtered by the name of their sender.  A sender
may change, so its name cannot be part of a key. -/
def declarations : Declarations Exact where
  entities := [
    { name := "User"
      fields := [{ name := "id", typeName := idType }, { name := "name", typeName := "String" }]
      statistics := [] },
    { name := "Message"
      fields := [{ name := "id", typeName := idType }, { name := "at", typeName := "DateTime" },
        { name := "folder", typeName := "String" },
        { name := "sender", typeName := "User", isMutable := true }]
      statistics := [⟨["folder"], .uniform 10⟩, ⟨["sender.name"], .uniform 100⟩] }]
  definitions := [
    { name := "received", entity := "Message"
      clause := {
        predicates := [("folder", "$folder"), ("sender.name", "$name")]
        order := [("folder", .asc), ("at", .desc)] } }]
  queries := [{ name := "list", selections := [⟨"received", 10, []⟩] }]

/-- The model of an inbox. -/
def model : Model Exact := declarations.build.toOption.getD default

/-- The candidates for an inbox, found without pruning. -/
def workload : Workload := (model.search (.finite 1) false {}).1.toOption.getD default

end Inbox

/-- The one level of an inbox has two partition keys and two clustering keys.  The folder leads
both clustering keys, so the name of the sender is all that is left to filter, with the folder in
the partition key or without. -/
theorem Model.candidates_enumerated_inbox :
    Inbox.workload.candidates.map (fun c => (c.key.describe Inbox.model.catalog, c.remaining.text))
      = [("Message\x7b\x7d[folder ASC, at DESC, id DESC]", "\x7bsender.name\x7d"),
        ("Message\x7b\x7d[folder ASC, id DESC]", "\x7bsender.name\x7d"),
        ("Message\x7bfolder\x7d[folder ASC, at DESC, id DESC]", "\x7bsender.name\x7d"),
        ("Message\x7bfolder\x7d[folder ASC, id DESC]", "\x7bsender.name\x7d")] ∧
    ∀ l ∈ Inbox.model.plannedLevels,
      l.Enumerates (Inbox.model.clusteringKeys l.clause.root) Inbox.workload.candidates ∧
        ∀ c ∈ Inbox.workload.candidates, l.Divides c := by
  have hbuild : Inbox.declarations.build = .ok Inbox.model := rfl
  have hw : (Inbox.model.search (.finite 1) false {}).1 = .ok Inbox.workload := rfl
  have hsets : Inbox.workload.siblingSets = [[0, 1, 2, 3]] :=
    (siblingSets_eq_levelSets hw).trans rfl
  have hcandidates : [0, 1, 2, 3].map Inbox.workload.candidate = Inbox.workload.candidates := rfl
  refine ⟨rfl, ?_⟩
  have hall := Model.candidates_enumerated hbuild hw
  rw [hsets] at hall
  generalize Inbox.model.plannedLevels = levels at hall ⊢
  obtain ⟨l, _, ⟨henumerates, hdivides⟩, hrest, rfl⟩ := List.forall₂_cons_right_iff.mp hall
  obtain rfl := List.forall₂_nil_right_iff.mp hrest
  rw [← hcandidates]
  intro l hl
  obtain rfl := List.mem_singleton.mp hl
  exact ⟨henumerates, List.forall_mem_map.mpr hdivides⟩

end Keyspace
