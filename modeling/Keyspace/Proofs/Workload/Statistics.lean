import Keyspace.Proofs.Workload.Answer

/-!
# The statistics that a search needs

For a level and a pair of keys, `Level.needs` lists the sets of paths whose statistics an estimate
consults: the predicates left to filter, and the paths on which the rows to be sorted agree.
`Model.failure?_estimate` says that an estimate fails as the first of them that is missing.

A search without pruning needs all of them, for every planned level and every pair of keys that it
offers, and it looks for them in the order of the levels and keys.  `Model.search_unpruned_iff`
says that it succeeds exactly if none is missing and otherwise names the first
(`Model.FirstMissing`).
-/

namespace Keyspace

/-! ### What a pair of keys leaves and covers -/

namespace Level

variable (l : Level) (partitionKey : PathSet) (clusteringKey : List OrderTerm)

/-- The predicates that neither the partition key nor the lead of the clustering key covers. -/
def residual : PathSet := promote (l.clause.predicatePaths.difference partitionKey) clusteringKey

/-- The predicates that the keys cover. -/
def covered : PathSet := l.clause.predicatePaths.difference (l.residual partitionKey clusteringKey)

/-- The longest lead of the clustering key that delivers the requested order term by term. -/
def matched : List OrderTerm :=
  ((clusteringKey.zip l.clause.order).takeWhile fun p => p.1.satisfies p.2).map Prod.fst

/-- The paths on which the rows to be sorted agree: those of the covered predicates and those of
the matched terms. -/
def sortPaths : PathSet :=
  ((l.matched clusteringKey).map OrderTerm.path).foldl SortedSet.insert
    (l.covered partitionKey clusteringKey)

/-- The sets of paths whose statistics the estimate for a pair of keys consults, in turn. -/
def needs : List PathSet :=
  (if (l.residual partitionKey clusteringKey).isEmpty ||
      (l.covered partitionKey clusteringKey).isEmpty then []
    else [l.residual partitionKey clusteringKey]) ++
  if l.clause.order.length = (l.matched clusteringKey).length ||
      (l.sortPaths partitionKey clusteringKey).isEmpty then []
    else [l.sortPaths partitionKey clusteringKey]

theorem matchedTerms_eq_matched :
    Model.matchedTerms clusteringKey l.clause.order = l.matched clusteringKey := by
  rw [matched]
  generalize l.clause.order = order
  induction clusteringKey generalizing order with
  | nil => rfl
  | cons k ks ih =>
    cases order with
    | nil => rfl
    | cons r rs =>
      rw [Model.matchedTerms, List.zip_cons_cons, List.takeWhile_cons, ih]
      split_ifs <;> rfl

/-- A path is one to sort by if it walks like a covered predicate or a matched term. -/
theorem contains_sortPaths {p : Path} :
    (l.sortPaths partitionKey clusteringKey).contains p = true ↔
      (l.covered partitionKey clusteringKey).contains p = true ∨
        ∃ t ∈ l.matched clusteringKey, p.walk = t.path.walk := by
  rw [sortPaths, SortedSet.contains_foldl_insert]
  refine or_congr_right ?_
  simp only [List.mem_map, exists_exists_and_eq_and, Path.compare_eq_iff]

end Level

/-! ### The first statistic that is missing -/

namespace Model

variable {α : Type} (m : Model α)

/-- Is there a statistic on exactly these paths? -/
def HasStatistic (id : EntityId) (paths : PathSet) : Prop := ∃ s, m.statistic id paths = .ok s

/-- A level offers every subset of its sargable predicates with every clustering key of its
entity. -/
def Offers (l : Level) (partitionKey : PathSet) (clusteringKey : List OrderTerm) : Prop :=
  (∀ p ∈ partitionKey.toList, p ∈ l.clause.sargablePaths.toList) ∧
    clusteringKey ∈ m.clusteringKeys l.clause.root

/-- All statistics that a pair of keys needs are there. -/
def Supplies (l : Level) (partitionKey : PathSet) (clusteringKey : List OrderTerm) : Prop :=
  ∀ paths ∈ l.needs partitionKey clusteringKey, m.HasStatistic l.clause.root paths

/-- The statistic on `paths` is missing, and no other is that is looked for before: for an earlier
level, for an earlier pair of keys of the level, or for the same pair. -/
structure FirstMissing (l : Level) (partitionKey : PathSet) (clusteringKey : List OrderTerm)
    (paths : PathSet) : Prop where
  missing : ¬ m.HasStatistic l.clause.root paths
  offers : m.Offers l partitionKey clusteringKey
  earlier_levels : ∃ pre post, m.plannedLevels = pre ++ l :: post ∧
    ∀ a ∈ pre, ∀ s k, m.Offers a s k → m.Supplies a s k
  /-- Small partition keys come first, and with one partition key clustering keys in their order. -/
  earlier_keys : ∀ s k, m.Offers l s k →
    (s.compareBySize partitionKey).then (compare k clusteringKey) = .lt → m.Supplies l s k
  earlier_needs : ∃ pre post, l.needs partitionKey clusteringKey = pre ++ paths :: post ∧
    ∀ a ∈ pre, m.HasStatistic l.clause.root a

variable {m}

theorem failure?_statistic_eq_none_iff {id : EntityId} {paths : PathSet} :
    failure? (m.statistic id paths) = none ↔ m.HasStatistic id paths :=
  failure?_eq_none_iff

theorem failure?_statistic_eq_some {id : EntityId} {paths : PathSet} {e : SchemaError}
    (h : failure? (m.statistic id paths) = some e) :
    e = .missingStatistic (m.entity id).name paths := by
  rw [failure?_eq_some_iff, statistic] at h
  split at h
  · exact absurd h (by simp)
  · exact (Except.error.inj h).symm

theorem candidate_mem_iff {l : Level} {c : Candidate} :
    c ∈ m.candidates l ↔ ∃ s k, m.Offers l s k ∧ l.candidate s k = c := by
  rw [mem_candidates_iff]
  constructor
  · rintro ⟨s, hs, k, hk, rfl⟩
    exact ⟨s, k, ⟨(mem_partitionKeys_iff _).mp hs, hk⟩, rfl⟩
  · rintro ⟨s, k, ⟨hs, hk⟩, rfl⟩
    exact ⟨s, (mem_partitionKeys_iff _).mpr hs, k, hk, rfl⟩

/-- The candidates before a given one are those with earlier keys. -/
theorem mem_of_compareBySize {l : Level} {pre post : List Candidate} {c d : Candidate}
    (h : m.candidates l = pre ++ c :: post) (hd : d ∈ m.candidates l)
    (hlt : d.key.compareBySize c.key = .lt) : d ∈ pre := by
  have hascending := m.pairwise_candidates (l := l)
  rw [h] at hd hascending
  obtain ⟨-, hlater, -⟩ := List.pairwise_append.mp hascending
  obtain ⟨hbelow, -⟩ := List.pairwise_cons.mp hlater
  rcases List.mem_append.mp hd with hd | hd
  · exact hd
  · exfalso
    rcases List.mem_cons.mp hd with rfl | hd
    · rw [TableKey.compareBySize_of_compare_eq Std.ReflCmp.compare_self] at hlt
      exact absurd hlt (by decide)
    · have hswap := TableKey.compareBySize_swap d.key c.key
      rw [hlt, hbelow d hd] at hswap
      exact absurd hswap (by decide)

/-! ### How an estimate fails -/

variable [Scalar α] {rowScanCost : α}

theorem failure?_filterRows (c : Candidate) :
    failure? (m.filterRows c)
      = if c.remaining.isEmpty || c.effectiveKey.isEmpty then none
        else failure? (m.statistic c.key.root c.remaining) := by
  rw [filterRows]
  cases c.remaining.isEmpty with
  | true => rfl
  | false =>
    cases c.effectiveKey.isEmpty with
    | true => rfl
    | false => exact failure?_bind_ok _ _

theorem failure?_rowsPerPartition (id : EntityId) (paths : PathSet) :
    failure? (m.rowsPerPartition id paths)
      = if paths.isEmpty then none else failure? (m.statistic id paths) := by
  rw [rowsPerPartition]
  split_ifs
  · rfl
  · exact failure?_bind_ok _ _

/-- An estimate fails as the first statistic that is missing. -/
theorem failure?_estimate (l : Level) (partitionKey : PathSet) (clusteringKey : List OrderTerm) :
    failure? (m.estimate rowScanCost (l.candidate partitionKey clusteringKey))
      = (l.needs partitionKey clusteringKey).findSome? fun paths =>
          failure? (m.statistic l.clause.root paths) := by
  have hfilter := m.failure?_filterRows (l.candidate partitionKey clusteringKey)
  have hsort : failure? (m.sortRows (l.candidate partitionKey clusteringKey))
      = if l.clause.order.length = (l.matched clusteringKey).length ||
            (l.sortPaths partitionKey clusteringKey).isEmpty then none
        else failure? (m.statistic l.clause.root (l.sortPaths partitionKey clusteringKey)) := by
    unfold sortRows
    dsimp only [Level.candidate]
    rw [Level.matchedTerms_eq_matched]
    by_cases hlength : l.clause.order.length = (l.matched clusteringKey).length
    · rw [if_pos hlength, decide_eq_true hlength]
      rfl
    · rw [if_neg hlength, decide_eq_false hlength, failure?_rowsPerPartition]
      rfl
  rw [estimate, failure?_bind fun filter => failure?_bind_ok _ _, hfilter, hsort, Level.needs,
    List.findSome?_append]
  dsimp only [Level.candidate, Candidate.effectiveKey]
  have hite : ∀ (b : Bool) (paths : PathSet),
      (if b then [] else [paths]).findSome?
          (fun paths => failure? (m.statistic l.clause.root paths))
        = if b then none else failure? (m.statistic l.clause.root paths) := by
    intro b paths
    cases b
    · exact List.findSome?_singleton
    · rfl
  rw [hite, hite]
  rfl

theorem failure?_estimate_eq_none_iff {l : Level} {s : PathSet} {k : List OrderTerm} :
    failure? (m.estimate rowScanCost (l.candidate s k)) = none ↔ m.Supplies l s k := by
  rw [failure?_estimate, List.findSome?_eq_none_iff]
  exact forall₂_congr fun _ _ => failure?_statistic_eq_none_iff

/-- A level of an unpruned search has an answer if its statistics are there. -/
theorem failure?_answer_eq_none_iff {l : Level} (hbinds : m.bindsIdentifier l.clause = false) :
    failure? (m.answer rowScanCost false l) = none ↔ ∀ s k, m.Offers l s k → m.Supplies l s k := by
  rw [failure?_answer_unpruned hbinds, Option.map_eq_none_iff, List.findSome?_eq_none_iff]
  constructor
  · intro h s k hoffers
    exact failure?_estimate_eq_none_iff.mp (h _ (candidate_mem_iff.mpr ⟨s, k, hoffers, rfl⟩))
  · intro h c hc
    obtain ⟨s, k, hoffers, rfl⟩ := candidate_mem_iff.mp hc
    exact failure?_estimate_eq_none_iff.mpr (h s k hoffers)

/-- **A search without pruning needs the statistics of all pairs of keys of all planned levels.**
It succeeds exactly if they are there, and otherwise the error names the first one that is missing.
No level lacks an identifier, so that there is no other error. -/
theorem search_unpruned_iff {decls : Declarations α} (hbuild : decls.build = .ok m)
    {memo : Memo α} (hmemo : m.RemembersCosts rowScanCost memo) :
    (∀ l ∈ m.plannedLevels,
      ∃ f, ((m.entity l.clause.root).fields.values.filter fun f => f.typeName == idType) = [f] ∧
        f.name = (m.entity l.clause.root).idField) ∧
    ((∃ w, (m.search rowScanCost false memo).1 = .ok w) ↔
      ∀ l ∈ m.plannedLevels, ∀ s k, m.Offers l s k → m.Supplies l s k) ∧
    ∀ e, (m.search rowScanCost false memo).1 = .error e →
      ∃ l partitionKey clusteringKey paths, m.FirstMissing l partitionKey clusteringKey paths ∧
        e = .schema (.missingStatistic (m.entity l.clause.root).name paths) := by
  have hbinds : ∀ l ∈ m.plannedLevels, m.bindsIdentifier l.clause = false :=
    fun l => bindsIdentifier_of_mem_plannedLevels
  refine ⟨?_, ?_, ?_⟩
  · intro l hl
    exact Declarations.exists_identifier_of_build hbuild (List.mem_of_mem_filter hl)
  · rw [exists_search_iff hmemo]
    refine forall₂_congr fun l hl => ?_
    rw [← failure?_eq_none_iff, failure?_answer_eq_none_iff (hbinds l hl)]
  · intro e he
    have hfirst : m.plannedLevels.findSome? (fun l => failure? (m.answer rowScanCost false l))
        = some e := by
      rw [← failure?_search hmemo, he]
      rfl
    -- the first level that fails, its first candidate that fails, and the first set it needs
    obtain ⟨pre, l, post, hlevels, hl, hpre⟩ := List.findSome?_eq_some_iff.mp hfirst
    have hplanned : ∀ a ∈ pre ++ l :: post, a ∈ m.plannedLevels := fun a ha => hlevels ▸ ha
    have hlbinds := hbinds l (hplanned l (List.mem_append_right _ List.mem_cons_self))
    rw [failure?_answer_unpruned hlbinds, Option.map_eq_some_iff] at hl
    obtain ⟨cause, hl, rfl⟩ := hl
    obtain ⟨cpre, c, cpost, hcandidates, hc, hcpre⟩ := List.findSome?_eq_some_iff.mp hl
    have hmem : c ∈ m.candidates l := by
      rw [hcandidates]
      exact List.mem_append_right _ List.mem_cons_self
    obtain ⟨s, k, hoffers, rfl⟩ := candidate_mem_iff.mp hmem
    rw [failure?_estimate] at hc
    obtain ⟨npre, paths, npost, hneeds, hpaths, hnpre⟩ := List.findSome?_eq_some_iff.mp hc
    refine ⟨l, s, k, paths, ⟨?_, hoffers, ⟨pre, post, hlevels, ?_⟩, ?_, npre, npost, hneeds, ?_⟩,
      congrArg SearchError.schema (failure?_statistic_eq_some hpaths)⟩
    · intro hhas
      rw [failure?_statistic_eq_none_iff.mpr hhas] at hpaths
      exact absurd hpaths (by simp)
    · intro a ha
      have habinds := hbinds a (hplanned a (List.mem_append_left _ ha))
      exact (failure?_answer_eq_none_iff habinds).mp (hpre a ha)
    · intro s' k' hoffers' hlt
      have hcandidate := candidate_mem_iff.mpr ⟨s', k', hoffers', rfl⟩
      exact failure?_estimate_eq_none_iff.mp
        (hcpre _ (mem_of_compareBySize hcandidates hcandidate hlt))
    · exact fun a ha => failure?_statistic_eq_none_iff.mp (hnpre a ha)

end Model

/-! ### An inbox without statistics -/

namespace Inbox

/-- An inbox about which nothing is known. -/
def unknownDeclarations : Declarations Exact :=
  { declarations with entities := declarations.entities.map fun e => { e with statistics := [] } }

/-- The model of an inbox about which nothing is known. -/
def unknownModel : Model Exact := unknownDeclarations.build.toOption.getD default

end Inbox

/-- With the folder at the head of both clustering keys, a read filters the name of the sender
within a folder, and so its statistic is the first one missing. -/
theorem Model.search_unpruned_iff_inbox :
    Inbox.unknownDeclarations.build = .ok Inbox.unknownModel ∧
    (¬ ∃ w, (Inbox.unknownModel.search (.finite 1) false {}).1 = .ok w) ∧
    (¬ ∀ l ∈ Inbox.unknownModel.plannedLevels, ∀ s k, Inbox.unknownModel.Offers l s k →
      Inbox.unknownModel.Supplies l s k) ∧
    ∃ l partitionKey clusteringKey,
      Inbox.unknownModel.FirstMissing l partitionKey clusteringKey
        (.ofList [⟨1, ["sender", "name"], false⟩]) := by
  have hbuild : Inbox.unknownDeclarations.build = .ok Inbox.unknownModel := rfl
  have herror : (Inbox.unknownModel.search (.finite 1) false {}).1
      = .error (.schema (.missingStatistic "Message"
          (.ofList [⟨1, ["sender", "name"], false⟩]))) := rfl
  have hempty : Inbox.unknownModel.RemembersCosts (.finite 1) {} := Model.remembersCosts_empty
  obtain ⟨-, hiff, hfirst⟩ := Model.search_unpruned_iff hbuild hempty
  have hfails : ¬ ∃ w, (Inbox.unknownModel.search (.finite 1) false {}).1 = .ok w := by
    rw [herror]
    simp
  obtain ⟨l, s, k, paths, hmissing, heq⟩ := hfirst _ herror
  obtain ⟨-, rfl⟩ := SchemaError.missingStatistic.inj (SearchError.schema.inj heq)
  exact ⟨hbuild, hfails, fun hall => hfails (hiff.mpr hall), l, s, k, hmissing⟩

end Keyspace
