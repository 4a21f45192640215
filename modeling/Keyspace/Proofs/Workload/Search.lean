import Keyspace.Proofs.Lists
import Keyspace.Scalar.Exact
import Keyspace.Schema.Build
import Keyspace.Workload.Search

/-!
# What a search finds

`Model.Answers l p` says that `p` is a possible answer for the level `l`: a direct lookup if the
clause binds the identifier, otherwise some of the candidates of the level, at least one.
`Model.levelPlans` are the answers of a search, selection by selection, and `search_fst` says that
a search does no more than number them.  `forall₂_answers` is what every later proof knows of a
search: each level has a possible answer, in the order of the levels, whatever the memo held.
-/

namespace Keyspace

/-- A run over a list that succeeds has taken a successful step for each element. -/
theorem Memo.forall₂_of_collect {α β γ ε : Type} {step : β → Memo α → Except ε γ × Memo α} :
    ∀ {bs : List β} {memo : Memo α} {cs : List γ}, (memo.collect step bs).1 = .ok cs →
      List.Forall₂ (fun b c => ∃ memo, (step b memo).1 = .ok c) bs cs := by
  intro bs
  induction bs with
  | nil =>
    intro memo cs h
    obtain rfl := Except.ok.inj h
    exact .nil
  | cons b rest ih =>
    intro memo cs h
    rw [collect] at h
    split at h
    · exact absurd h (by simp)
    next c memo' hstep =>
      split at h
      · exact absurd h (by simp)
      next tail memo'' htail =>
        obtain rfl := Except.ok.inj h
        exact .cons ⟨memo, by rw [hstep]⟩ (ih (by rw [htail]))

namespace Model

variable {α : Type} (m : Model α)

/-- The levels that need a table. -/
def plannedLevels : List Level := m.levels.filter fun l => !m.bindsIdentifier l.clause

variable {m} in
theorem bindsIdentifier_of_mem_plannedLevels {l : Level} (h : l ∈ m.plannedLevels) :
    m.bindsIdentifier l.clause = false := by
  simpa using (List.mem_filter.mp h).2

/-- The possible answers for a level. -/
inductive Answers (l : Level) : LevelPlan → Prop
  | lookup (binds : m.bindsIdentifier l.clause = true) : Answers l (.lookup l)
  | tables {cs : List Candidate} (binds : m.bindsIdentifier l.clause = false) (nonempty : cs ≠ [])
      (sublist : cs.Sublist (m.candidates l)) : Answers l (.tables l cs)

theorem Answers.level_eq {m : Model α} {l : Level} {p : LevelPlan} (h : m.Answers l p) :
    p.level = l := by
  cases h <;> rfl

theorem Answers.mem_candidates {m : Model α} {l : Level} {p : LevelPlan} (h : m.Answers l p)
    {c : Candidate} (hc : c ∈ p.candidates) : c ∈ m.candidates l := by
  cases h with
  | lookup binds => exact absurd hc List.not_mem_nil
  | tables binds nonempty sublist => exact sublist.subset hc

theorem filterMap_lookup?_eq {m : Model α} {levels : List Level} {ps : List LevelPlan}
    (hanswers : List.Forall₂ m.Answers levels ps) :
    ps.filterMap Workload.lookup? = (levels.filter fun l => m.bindsIdentifier l.clause).map
      fun l => ⟨l.query, l.label⟩ := by
  induction hanswers with
  | nil => rfl
  | @cons l _ _ _ hanswer _ ih =>
    cases hanswer with
    | lookup binds =>
      have hlookup : Workload.lookup? (.lookup l) = some ⟨l.query, l.label⟩ := rfl
      rw [List.filterMap_cons_some hlookup, List.filter_cons_of_pos (by exact binds),
        List.map_cons, ih]
    | @tables cs binds nonempty sublist =>
      have hnone : Workload.lookup? (.tables l cs) = none := rfl
      rw [List.filterMap_cons_none hnone, List.filter_cons_of_neg (by simp [binds]), ih]

section Search

variable {m} [Scalar α] {rowScanCost : α} {prune : Bool} {memo : Memo α}

/-- What is kept are candidates of the level, in their order. -/
theorem keep_sublist (query : QueryId) (candidates : List Candidate) (costs : List α) :
    (m.keep prune query candidates costs).Sublist candidates := by
  rw [keep]
  split_ifs
  · -- a list of costs that is too short drops the last candidates
    have hzip : ∀ (cs : List Candidate) (xs : List α), ((cs.zip xs).map (·.1)).Sublist cs := by
      intro cs
      induction cs with
      | nil => intro xs; simp
      | cons c cs ih =>
        intro xs
        cases xs with
        | nil => simp
        | cons x xs => exact (ih xs).cons_cons c
    exact (List.filter_sublist.map _).trans (hzip candidates costs)
  · exact List.Sublist.refl _

theorem answers_of_planLevel {l : Level} {p : LevelPlan}
    (h : (m.planLevel rowScanCost prune l memo).1 = .ok p) : m.Answers l p := by
  rw [planLevel] at h
  split_ifs at h with hbinds
  · obtain rfl := Except.ok.inj h
    exact .lookup hbinds
  · dsimp only at h
    split at h
    · exact absurd h (by simp)
    · split_ifs at h with hempty
      obtain rfl := Except.ok.inj h
      refine .tables (Bool.eq_false_iff.mpr hbinds) ?_ (keep_sublist _ _ _)
      rwa [List.isEmpty_iff] at hempty

variable (m rowScanCost prune memo) in
/-- The answers of a search for the levels of each selection. -/
def levelPlans : Except SearchError (List (List LevelPlan)) :=
  (memo.collect (m.planSelection rowScanCost prune) m.selectionLevels).1

/-- A search numbers the answers for its levels. -/
theorem search_fst :
    (m.search rowScanCost prune memo).1
      = (m.levelPlans rowScanCost prune memo).map Workload.ofLevelPlans := by
  rw [search, levelPlans]
  split <;> simp_all [Except.map]

/-- A workload that a search returns numbers the answers for its levels. -/
theorem exists_levelPlans {w : Workload} (h : (m.search rowScanCost prune memo).1 = .ok w) :
    ∃ ps, m.levelPlans rowScanCost prune memo = .ok ps ∧ w = .ofLevelPlans ps := by
  rw [search_fst] at h
  cases hps : m.levelPlans rowScanCost prune memo with
  | error e =>
    rw [hps] at h
    exact absurd h (by simp [Except.map])
  | ok ps =>
    rw [hps] at h
    exact ⟨ps, rfl, (Except.ok.inj h).symm⟩

/-- What holds of every answered level holds throughout a search, selection by selection. -/
theorem forall₂_of_levelPlans {R : Level → LevelPlan → Prop} {ps : List (List LevelPlan)}
    (h : m.levelPlans rowScanCost prune memo = .ok ps)
    (hR : ∀ l p memo, (m.planLevel rowScanCost prune l memo).1 = .ok p → R l p) :
    List.Forall₂ (List.Forall₂ R) m.selectionLevels ps := by
  refine (Memo.forall₂_of_collect h).imp fun levels answers hsel => ?_
  obtain ⟨memo, hsel⟩ := hsel
  exact (Memo.forall₂_of_collect hsel).imp fun l p ⟨memo, hl⟩ => hR l p memo hl

/-- Every level has a possible answer, in the order of the levels. -/
theorem forall₂_answers {ps : List (List LevelPlan)}
    (h : m.levelPlans rowScanCost prune memo = .ok ps) :
    List.Forall₂ m.Answers m.levels ps.flatten :=
  List.rel_flatten (forall₂_of_levelPlans h fun _ _ _ => answers_of_planLevel)

end Search

/-- A candidate of a level has the level's query, clause, page size and root. -/
theorem eq_candidate_of_mem {l : Level} {c : Candidate} (h : c ∈ m.candidates l) :
    ∃ partitionKey clusteringKey, c = l.candidate partitionKey clusteringKey := by
  obtain ⟨partitionKey, -, h⟩ := List.mem_flatMap.mp h
  obtain ⟨clusteringKey, -, rfl⟩ := List.mem_map.mp h
  exact ⟨partitionKey, clusteringKey, rfl⟩

variable {m} {l : Level} {c : Candidate}

theorem query_of_mem_candidates (h : c ∈ m.candidates l) : c.query = l.query := by
  obtain ⟨partitionKey, clusteringKey, rfl⟩ := m.eq_candidate_of_mem h
  rfl

theorem root_of_mem_candidates (h : c ∈ m.candidates l) : c.key.root = l.clause.root := by
  obtain ⟨partitionKey, clusteringKey, rfl⟩ := m.eq_candidate_of_mem h
  rfl

end Model

/-! ### Examples -/

namespace Log

/-- A log whose events are read by time, once in each of the given directions.  An append may touch
one table. -/
def declarations (directions : List Direction) : Declarations Exact where
  entities := [{
    name := "Event"
    fields := [{ name := "id", typeName := idType }, { name := "at", typeName := "DateTime" }]
    statistics := [] }]
  definitions := directions.map fun d =>
    { name := d.text, entity := "Event", clause := { order := [("at", d)] } }
  queries := directions.map fun d => { name := d.text, selections := [⟨d.text, 10, []⟩] }
  mutations := [{ name := "append", entity := "Event", kind := .insert, maxTables := 1 }]

/-- The model of a log. -/
def model (directions : List Direction) : Model Exact :=
  (declarations directions).build.toOption.getD default

/-- The candidates for a log, found without pruning. -/
def workload (directions : List Direction) : Workload :=
  ((model directions).search (.finite 1) false {}).1.toOption.getD default

end Log

namespace Forum

/-- A forum that lists its latest threads with their authors, and shows a single thread with those
of its authors that have a given name.  A post may touch one table of threads. -/
def declarations : Declarations Exact where
  entities := [
    { name := "User"
      fields := [{ name := "id", typeName := idType }, { name := "name", typeName := "String" }]
      statistics := [] },
    { name := "Thread"
      fields := [{ name := "id", typeName := idType }, { name := "at", typeName := "DateTime" },
        { name := "authors", typeName := "User", isList := true }]
      statistics := [] }]
  definitions := [
    { name := "latest", entity := "Thread", clause := { order := [("at", .desc)] } },
    { name := "thread", entity := "Thread", clause := { predicates := [("id", "$id")] } }]
  queries := [
    { name := "home", serviceLevel := { throughput := 3 },
      selections := [⟨"latest", 10, [⟨"authors", {}, 10, []⟩]⟩] },
    { name := "page",
      selections := [⟨"thread", 1, [⟨"authors", { predicates := [("name", "$name")] }, 10, []⟩]⟩] }]
  mutations := [{ name := "post", entity := "Thread", kind := .insert, maxTables := 1 }]

/-- The model of a forum. -/
def model : Model Exact := declarations.build.toOption.getD default

/-- The candidates for a forum, found without pruning. -/
def workload : Workload := (model.search (.finite 1) false {}).1.toOption.getD default

end Forum

end Keyspace
