import Keyspace.Proofs.Checked.Schema
import Keyspace.Proofs.Workload.Partition

/-!
# Checked lookups in a search

Pricing a candidate looks up the entity that its table stores and the statistics of that entity;
planning a level also looks up its query.  On a well-formed model all of these are in range
(`search_eq`), whatever the memo holds, and so are those of a second pricing (`price_eq`).

What a search returns refers to itself and to the model in range (`Workload.refersTo_of_search`),
which is what the later stages need.
-/

namespace Keyspace

namespace Checked

variable {α : Type} [Scalar α]

/-! ### Estimates -/

/-- The name of the entity, the partition key in braces and the clustering key in brackets. -/
def describe (c : Catalog) (key : TableKey) : Option String :=
  (entity c key.root).map fun e => e.name ++ key.partitionKey.text ++ orderText key.clusteringKey

/-- Rows read to collect one page of matches. -/
def filterRows (m : Model α) (c : Candidate) : Option (Except SchemaError α) :=
  if c.remaining.isEmpty then some (.ok Scalar.one)
  else do
    let owner ← entity m.catalog c.key.root
    let maxRows : α := Scalar.ofNat owner.maxRows
    if c.effectiveKey.isEmpty then return .ok (Scalar.max maxRows Scalar.one)
    else
      let statistic ← statistic m c.key.root c.remaining
      return statistic.map fun s =>
        Scalar.max (Scalar.min (s.expected c.pageSize) maxRows) Scalar.one

/-- Rows that share one value of the given paths on average. -/
def rowsPerPartition (m : Model α) (id : EntityId) (paths : PathSet) :
    Option (Except SchemaError α) := do
  let owner ← entity m.catalog id
  let maxRows : α := Scalar.ofNat owner.maxRows
  if paths.isEmpty then return .ok maxRows
  else
    let statistic ← statistic m id paths
    return statistic.map fun s =>
      Scalar.max (maxRows / Scalar.ofNat (Nat.max s.distinct 1)) Scalar.one

/-- Rows read to produce the requested order. -/
def sortRows (m : Model α) (c : Candidate) : Option (Except SchemaError α) :=
  let requested := c.clause.order
  let matched := Model.matchedTerms c.key.clusteringKey requested
  if requested.length = matched.length then some (.ok Scalar.zero)
  else
    rowsPerPartition m c.key.root
      ((matched.map OrderTerm.path).foldl SortedSet.insert c.effectiveKey)

/-- Both estimates and the cost. -/
def estimate (m : Model α) (rowScanCost : α) (c : Candidate) :
    Option (Except SchemaError (Estimate α)) := do
  match ← filterRows m c with
  | .error e => return .error e
  | .ok filterRows =>
    match ← sortRows m c with
    | .error e => return .error e
    | .ok sortRows =>
      let total :=
        if c.remaining.isEmpty && Scalar.same sortRows Scalar.zero then Scalar.one
        else Scalar.max filterRows sortRows * rowScanCost
      return .ok { filterRows, sortRows, total }

section Estimates

variable {m : Model α} (hm : m.WellFormed)

omit [Scalar α] in
theorem describe_eq {c : Catalog} {key : TableKey} (h : key.root < c.entities.length) :
    describe c key = some (key.describe c) := by
  rw [describe, entity_eq h]
  rfl

variable {c : Candidate} (hroot : c.key.root < m.catalog.entities.length)
include hm

theorem rowsPerPartition_eq {id : EntityId} (h : id < m.catalog.entities.length)
    (paths : PathSet) : rowsPerPartition m id paths = some (m.rowsPerPartition id paths) := by
  rw [rowsPerPartition, Model.rowsPerPartition, entity_eq h, statistic_eq hm h]
  simp only [Option.bind_eq_bind, Option.bind_some]
  split_ifs
  · rfl
  · cases m.statistic id paths <;> rfl

include hroot

theorem filterRows_eq : filterRows m c = some (m.filterRows c) := by
  rw [filterRows, Model.filterRows, entity_eq hroot, statistic_eq hm hroot]
  simp only [Option.bind_eq_bind, Option.bind_some]
  split_ifs
  · rfl
  · rfl
  · cases m.statistic c.key.root c.remaining <;> rfl

theorem sortRows_eq : sortRows m c = some (m.sortRows c) := by
  rw [sortRows, Model.sortRows, rowsPerPartition_eq hm hroot]
  split_ifs <;> rfl

theorem estimate_eq (rowScanCost : α) :
    estimate m rowScanCost c = some (m.estimate rowScanCost c) := by
  rw [estimate, Model.estimate, filterRows_eq hm hroot, sortRows_eq hm hroot]
  cases m.filterRows c with
  | error e => rfl
  | ok filterRows => cases m.sortRows c <;> rfl

end Estimates

/-! ### Costs -/

/-- Runs a step on each element of a list, handing the memo on, up to the first step that
fails. -/
def collect {α β γ ε : Type} (memo : Memo α)
    (step : β → Memo α → Option (Except ε γ × Memo α)) :
    List β → Option (Except ε (List γ) × Memo α)
  | [] => some (.ok [], memo)
  | b :: rest => do
    match ← step b memo with
    | (.error e, memo) => return (.error e, memo)
    | (.ok c, memo) =>
      match ← collect memo step rest with
      | (.error e, memo) => return (.error e, memo)
      | (.ok cs, memo) => return (.ok (c :: cs), memo)

/-- The cost of a candidate, remembered or computed.  A computed cost is logged with the table. -/
def cost (m : Model α) (rowScanCost : α) (c : Candidate) (memo : Memo α) :
    Option (Except SchemaError α × Memo α) :=
  match memo.find? (.ofCandidate c) with
  | some cost => some (.ok cost, { memo with hits := memo.hits + 1 })
  | none => do
    let memo := { memo with misses := memo.misses + 1 }
    match ← estimate m rowScanCost c with
    | .error e => return (.error e, memo)
    | .ok estimate =>
      let _ ← describe m.catalog c.key
      return (.ok estimate.total,
        { memo with entries := (.ofCandidate c, estimate.total) :: memo.entries })

/-- The costs of several candidates in turn. -/
def costs (m : Model α) (rowScanCost : α) (cs : List Candidate) (memo : Memo α) :
    Option (Except SchemaError (List α) × Memo α) :=
  collect memo (cost m rowScanCost) cs

theorem collect_eq {α β γ ε : Type} {step : β → Memo α → Except ε γ × Memo α}
    {checked : β → Memo α → Option (Except ε γ × Memo α)} {bs : List β}
    (h : ∀ b ∈ bs, ∀ memo, checked b memo = some (step b memo)) :
    ∀ memo, collect memo checked bs = some (memo.collect step bs) := by
  induction bs with
  | nil => exact fun _ => rfl
  | cons b bs ih =>
    intro memo
    obtain ⟨hb, hbs⟩ := List.forall_mem_cons.mp h
    rw [collect, Memo.collect, hb]
    rcases step b memo with ⟨e | c, memo'⟩
    · rfl
    · simp only [Option.bind_eq_bind, Option.bind_some, ih hbs]
      rcases memo'.collect step bs with ⟨e | cs, memo''⟩ <;> rfl

section Costs

variable {m : Model α} (hm : m.WellFormed)
include hm

theorem cost_eq {c : Candidate} (hroot : c.key.root < m.catalog.entities.length) (rowScanCost : α)
    (memo : Memo α) : cost m rowScanCost c memo = some (m.cost rowScanCost c memo) := by
  rw [cost, Model.cost, estimate_eq hm hroot, describe_eq hroot]
  cases memo.find? (.ofCandidate c) with
  | some cost => rfl
  | none => cases m.estimate rowScanCost c <;> rfl

theorem costs_eq {cs : List Candidate}
    (hroots : ∀ c ∈ cs, c.key.root < m.catalog.entities.length) (rowScanCost : α) (memo : Memo α) :
    costs m rowScanCost cs memo = some (m.costs rowScanCost cs memo) :=
  collect_eq (fun c hc => cost_eq hm (hroots c hc) rowScanCost) memo

end Costs

/-! ### The search -/

/-- The candidates that are kept for a query of the given latency, given their costs. -/
def keep (prune : Bool) (latency : ℕ) (candidates : List Candidate) (costs : List α) :
    List Candidate :=
  if prune then
    ((candidates.zip costs).filter fun p => !Scalar.le (Scalar.ofNat latency) p.2).map (·.1)
  else candidates

/-- Answers one level. -/
def planLevel (m : Model α) (rowScanCost : α) (prune : Bool) (l : Level) (memo : Memo α) :
    Option (Except SearchError LevelPlan × Memo α) := do
  if ← bindsIdentifier m l.clause then return (.ok (.lookup l), memo)
  else
    let candidates ← candidates m l
    let q ← query m l.query
    match ← costs m rowScanCost candidates memo with
    | (.error e, memo) => return (.error (.schema e), memo)
    | (.ok costs, memo) =>
      let kept := keep prune q.serviceLevel.latency candidates costs
      if kept.isEmpty then return (.error (.noCandidates q.name l.label), memo)
      else return (.ok (.tables l kept), memo)

/-- Answers the levels of one selection in turn. -/
def planSelection (m : Model α) (rowScanCost : α) (prune : Bool) (levels : List Level)
    (memo : Memo α) : Option (Except SearchError (List LevelPlan) × Memo α) :=
  collect memo (planLevel m rowScanCost prune) levels

/-- Finds and prices the candidates for all levels of the workload. -/
def search (m : Model α) (rowScanCost : α) (prune : Bool) (memo : Memo α) :
    Option (Except SearchError Workload × Memo α) := do
  let levels ← selectionLevels m
  match ← collect memo (planSelection m rowScanCost prune) levels with
  | (.error e, memo) => return (.error e, memo)
  | (.ok selections, memo) => return (.ok (.ofLevelPlans selections), memo)

/-- The costs of all candidates of a workload, in the order of their numbers. -/
def price (m : Model α) (rowScanCost : α) (w : Workload) (memo : Memo α) :
    Option (Except SchemaError (List α) × Memo α) :=
  costs m rowScanCost w.candidates memo

section Search

variable {m : Model α} (hm : m.WellFormed)
include hm

theorem planLevel_eq {l : Level} (hl : l ∈ m.levels) (rowScanCost : α) (prune : Bool)
    (memo : Memo α) :
    planLevel m rowScanCost prune l memo = some (m.planLevel rowScanCost prune l memo) := by
  obtain ⟨hquery, hclause⟩ := hm.levels l hl
  have hroots : ∀ c ∈ m.candidates l, c.key.root < m.catalog.entities.length := by
    intro c hc
    rw [Model.root_of_mem_candidates hc]
    exact hclause.owner_lt
  have hkeep : ∀ costs, keep prune (m.query l.query).serviceLevel.latency (m.candidates l) costs
      = m.keep prune l.query (m.candidates l) costs := fun _ => rfl
  rw [planLevel, Model.planLevel, bindsIdentifier_eq hclause]
  simp only [Option.bind_eq_bind, Option.bind_some]
  split_ifs with hbinds
  · rfl
  · rw [candidates_eq hm hclause.owner_lt, query_eq hquery]
    simp only [Option.bind_some, costs_eq hm hroots]
    rcases m.costs rowScanCost (m.candidates l) memo with ⟨e | costs, memo'⟩
    · rfl
    · simp only [hkeep]
      split_ifs <;> rfl

theorem search_eq (rowScanCost : α) (prune : Bool) (memo : Memo α) :
    search m rowScanCost prune memo = some (m.search rowScanCost prune memo) := by
  have hselection : ∀ levels ∈ m.selectionLevels, ∀ memo,
      planSelection m rowScanCost prune levels memo
        = some (m.planSelection rowScanCost prune levels memo) := by
    intro levels hlevels
    refine collect_eq fun l hl => planLevel_eq hm ?_ rowScanCost prune
    exact List.mem_flatten.mpr ⟨levels, hlevels, hl⟩
  rw [search, Model.search, selectionLevels_eq hm]
  simp only [Option.bind_eq_bind, Option.bind_some, collect_eq hselection]
  rcases memo.collect (m.planSelection rowScanCost prune) m.selectionLevels with
    ⟨e | selections, memo'⟩ <;> rfl

end Search

end Checked

/-! ### Searched workloads -/

/-- A workload that refers to the entities and queries of a model, and to its own candidates. -/
structure Workload.RefersTo {α : Type} (w : Workload) (m : Model α) : Prop where
  root_lt : ∀ c ∈ w.candidates, c.key.root < m.catalog.entities.length
  query_lt : ∀ c ∈ w.candidates, c.query < m.queries.length
  siblings_lt : ∀ ids ∈ w.siblingSets, ∀ c ∈ ids, c < w.candidates.length
  plans_lt : ∀ p ∈ w.plans, ∀ c ∈ Plan.idsOf p.plans, c < w.candidates.length
  candidatesFor_lt : ∀ id, ∀ c ∈ w.candidatesFor id, c < w.candidates.length

theorem Workload.getElem?_candidates {w : Workload} {c : ℕ} (hc : c < w.candidates.length) :
    w.candidates[c]? = some (w.candidate c) :=
  getElem?_eq_some_getD hc default

variable {α : Type} [Scalar α] {m : Model α} {w : Workload}

/-- What a search returns refers to the model that was searched. -/
theorem Workload.refersTo_of_search (hm : m.WellFormed) {rowScanCost : α} {prune : Bool}
    {memo : Memo α} (h : (m.search rowScanCost prune memo).1 = .ok w) : w.RefersTo m := by
  have hlevel : ∀ c ∈ w.candidates, ∃ l ∈ m.levels, c ∈ m.candidates l := by
    intro c hc
    obtain ⟨i, hi, rfl⟩ := List.getElem_of_mem hc
    obtain ⟨l, hl, hmem⟩ := Model.exists_level_of_lt h hi
    exact ⟨l, hl, candidate_eq_getElem hi ▸ hmem⟩
  have hfor : ∀ id, ∀ c ∈ w.candidatesFor id, c < w.candidates.length := by
    intro id c hc
    rw [Model.candidatesFor_eq_filter h] at hc
    exact List.mem_range.mp (List.mem_of_mem_filter hc)
  refine ⟨fun c hc => ?_, fun c hc => ?_, fun ids hids c hc => ?_, fun p hp c hc => ?_, hfor⟩
  · obtain ⟨l, hl, hmem⟩ := hlevel c hc
    rw [Model.root_of_mem_candidates hmem]
    exact (hm.levels l hl).2.owner_lt
  · obtain ⟨l, hl, hmem⟩ := hlevel c hc
    rw [Model.query_of_mem_candidates hmem]
    exact (hm.levels l hl).1
  · exact (Model.isLeveled_siblingSets h).lt_of_mem hids hc
  · refine hfor p.query c (SortedSet.mem_toList_ofList.mpr (List.mem_flatMap.mpr ⟨p, ?_, hc⟩))
    exact List.mem_filter.mpr ⟨hp, beq_self_eq_true p.query⟩

theorem Checked.price_eq (hm : m.WellFormed) (hw : w.RefersTo m) (rowScanCost : α)
    (memo : Memo α) : price m rowScanCost w memo = some (m.price rowScanCost w memo) :=
  costs_eq hm hw.root_lt rowScanCost memo

/-- Every candidate has a price. -/
theorem Model.length_of_price {rowScanCost : α} {memo : Memo α} {costs : List α}
    (h : (m.price rowScanCost w memo).1 = .ok costs) : costs.length = w.candidates.length :=
  (Memo.forall₂_of_collect h).length_eq.symm

end Keyspace
