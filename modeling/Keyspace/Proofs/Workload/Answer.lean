import Keyspace.Proofs.Candidate.Enumerate
import Keyspace.Proofs.Cost.Memo

/-!
# Searches without a memo

A memo saves work and changes no answer.  `Model.answer` answers a level with every cost estimated
afresh, and a search over a memo that remembers costs gives these answers and no others
(`Model.levelPlans_eq`).  Hence a search succeeds exactly if every planned level has an answer, and
otherwise fails as the first level without one (`Model.failure?_search`).
-/

namespace Keyspace

/-- If a memo makes no difference to a step, it makes none to a run. -/
theorem Memo.collect_eq_mapM {α β γ ε : Type} {P : Memo α → Prop}
    {step : β → Memo α → Except ε γ × Memo α} {f : β → Except ε γ}
    (hstep : ∀ b memo, P memo → (step b memo).1 = f b ∧ P (step b memo).2) (bs : List β)
    {memo : Memo α} (h : P memo) :
    (memo.collect step bs).1 = bs.mapM f ∧ P (memo.collect step bs).2 := by
  induction bs generalizing memo with
  | nil => exact ⟨rfl, h⟩
  | cons b rest ih =>
    obtain ⟨hb, hkeeps⟩ := hstep b memo h
    rw [collect, List.mapM_cons, ← hb]
    revert hkeeps
    rcases step b memo with ⟨_ | c, memo'⟩
    · exact fun hkeeps => ⟨rfl, hkeeps⟩
    · intro hkeeps
      obtain ⟨hrest, hkeeps⟩ := ih hkeeps
      dsimp only
      rw [← hrest]
      revert hkeeps
      rcases memo'.collect step rest with ⟨_ | cs, memo''⟩
      · exact fun hkeeps => ⟨rfl, hkeeps⟩
      · exact fun hkeeps => ⟨rfl, hkeeps⟩

namespace Model

variable {α : Type} [Scalar α] {m : Model α} {rowScanCost : α} {prune : Bool} {memo : Memo α}

variable (m rowScanCost) in
/-- The costs of the candidates of a level. -/
def levelCosts (l : Level) : Except SchemaError (List α) :=
  (m.candidates l).mapM fun c => (m.estimate rowScanCost c).map Estimate.total

variable (m rowScanCost prune) in
/-- The answer for a level, with every cost estimated afresh. -/
def answer (l : Level) : Except SearchError LevelPlan :=
  if m.bindsIdentifier l.clause then .ok (.lookup l)
  else
    match m.levelCosts rowScanCost l with
    | .error e => .error (.schema e)
    | .ok costs =>
      let kept := m.keep prune l.query (m.candidates l) costs
      if kept.isEmpty then .error (.noCandidates (m.query l.query).name l.label)
      else .ok (.tables l kept)

/-! ### A memo makes no difference -/

theorem costs_eq (h : m.RemembersCosts rowScanCost memo) (cs : List Candidate) :
    (m.costs rowScanCost cs memo).1
      = (cs.mapM fun c => (m.estimate rowScanCost c).map Estimate.total) ∧
    m.RemembersCosts rowScanCost (m.costs rowScanCost cs memo).2 :=
  Memo.collect_eq_mapM (P := m.RemembersCosts rowScanCost)
    (fun c _ h => ⟨cost_fst h c, remembersCosts_cost h c⟩) cs h

theorem planLevel_eq (h : m.RemembersCosts rowScanCost memo) (l : Level) :
    (m.planLevel rowScanCost prune l memo).1 = m.answer rowScanCost prune l ∧
    m.RemembersCosts rowScanCost (m.planLevel rowScanCost prune l memo).2 := by
  obtain ⟨hcosts, hkeeps⟩ := costs_eq h (m.candidates l)
  rw [planLevel, answer, levelCosts]
  by_cases hbinds : m.bindsIdentifier l.clause = true
  · rw [if_pos hbinds, if_pos hbinds]
    exact ⟨rfl, h⟩
  · rw [if_neg hbinds, if_neg hbinds, ← hcosts]
    revert hkeeps
    dsimp only
    rcases m.costs rowScanCost (m.candidates l) memo with ⟨_ | costs, memo'⟩
    · exact fun hkeeps => ⟨rfl, hkeeps⟩
    · intro hkeeps
      dsimp only
      split_ifs
      · exact ⟨rfl, hkeeps⟩
      · exact ⟨rfl, hkeeps⟩

theorem collect_planSelection_eq (h : m.RemembersCosts rowScanCost memo) :
    (memo.collect (m.planSelection rowScanCost prune) m.selectionLevels).1
      = (m.selectionLevels.mapM fun levels => levels.mapM (m.answer rowScanCost prune)) ∧
    m.RemembersCosts rowScanCost
      (memo.collect (m.planSelection rowScanCost prune) m.selectionLevels).2 := by
  have hselection : ∀ levels memo, m.RemembersCosts rowScanCost memo →
      (m.planSelection rowScanCost prune levels memo).1
          = levels.mapM (m.answer rowScanCost prune) ∧
        m.RemembersCosts rowScanCost (m.planSelection rowScanCost prune levels memo).2 :=
    fun levels _ h => Memo.collect_eq_mapM (P := m.RemembersCosts rowScanCost)
      (fun l _ h => planLevel_eq h l) levels h
  exact Memo.collect_eq_mapM hselection m.selectionLevels h

/-- The answers of a search are those found without a memo. -/
theorem levelPlans_eq (h : m.RemembersCosts rowScanCost memo) :
    m.levelPlans rowScanCost prune memo
      = m.selectionLevels.mapM fun levels => levels.mapM (m.answer rowScanCost prune) :=
  (collect_planSelection_eq h).1

/-- A search leaves a memo of costs. -/
theorem remembersCosts_search (h : m.RemembersCosts rowScanCost memo) :
    m.RemembersCosts rowScanCost (m.search rowScanCost prune memo).2 := by
  have hsnd : (m.search rowScanCost prune memo).2
      = (memo.collect (m.planSelection rowScanCost prune) m.selectionLevels).2 := by
    rw [search]
    split <;> next heq => rw [heq]
  rw [hsnd]
  exact (collect_planSelection_eq h).2

theorem answers_of_answer {l : Level} {p : LevelPlan}
    (h : m.answer rowScanCost prune l = .ok p) : m.Answers l p :=
  answers_of_planLevel ((planLevel_eq remembersCosts_empty l).1.trans h)

/-- What a search finds are the answers for its levels. -/
theorem forall₂_answer (h : m.RemembersCosts rowScanCost memo) {ps : List (List LevelPlan)}
    (hps : m.levelPlans rowScanCost prune memo = .ok ps) :
    List.Forall₂ (fun l p => m.answer rowScanCost prune l = .ok p) m.levels ps.flatten := by
  rw [levelPlans_eq h, mapM_eq_ok_iff] at hps
  exact List.rel_flatten (hps.imp fun _ _ => mapM_eq_ok_iff.mp)

/-- The sibling sets of a searched workload are the answers for the planned levels. -/
theorem forall₂_siblingSets (h : m.RemembersCosts rowScanCost memo) {w : Workload}
    (hw : (m.search rowScanCost prune memo).1 = .ok w) :
    List.Forall₂
      (fun l ids => m.answer rowScanCost prune l = .ok (.tables l (ids.map w.candidate)))
      m.plannedLevels w.siblingSets := by
  rw [siblingSets_eq_levelSets hw, levelSets]
  obtain ⟨ps, hps, rfl⟩ := exists_levelPlans hw
  rw [hps]
  exact (forall₂_blocks (fun _ _ => answers_of_answer) (forall₂_answer h hps) [] []
    (List.append_nil _).symm).imp fun l ids h => h.2

/-! ### How a search fails -/

/-- A level whose clause binds the identifier has an answer. -/
theorem failure?_answer_of_binds {l : Level} (h : m.bindsIdentifier l.clause = true) :
    failure? (m.answer rowScanCost prune l) = none := by
  rw [answer, if_pos h]
  rfl

/-- **A search fails as the first planned level that has no answer.** -/
theorem failure?_search (h : m.RemembersCosts rowScanCost memo) :
    failure? (m.search rowScanCost prune memo).1
      = m.plannedLevels.findSome? fun l => failure? (m.answer rowScanCost prune l) := by
  have hlevels : failure? (m.levelPlans rowScanCost prune memo)
      = m.levels.findSome? fun l => failure? (m.answer rowScanCost prune l) := by
    rw [levelPlans_eq h, failure?_mapM, levels, findSome?_flatten]
    congr 1
    funext levels
    exact failure?_mapM _ _
  rw [search_fst, failure?_map, hlevels, plannedLevels]
  -- direct lookups do not fail
  generalize m.levels = levels
  induction levels with
  | nil => rfl
  | cons l rest ih =>
    rw [List.findSome?_cons, ih]
    cases hbinds : m.bindsIdentifier l.clause with
    | true => rw [failure?_answer_of_binds hbinds, List.filter_cons_of_neg (by simp [hbinds])]
    | false => rw [List.filter_cons_of_pos (by simp [hbinds]), List.findSome?_cons]

/-- A search succeeds if every planned level has an answer. -/
theorem exists_search_iff (h : m.RemembersCosts rowScanCost memo) :
    (∃ w, (m.search rowScanCost prune memo).1 = .ok w) ↔
      ∀ l ∈ m.plannedLevels, ∃ p, m.answer rowScanCost prune l = .ok p := by
  rw [← failure?_eq_none_iff, failure?_search h, List.findSome?_eq_none_iff]
  exact forall₂_congr fun _ _ => failure?_eq_none_iff

/-! ### The answer for a planned level -/

/-- Without pruning the answer is all candidates. -/
theorem eq_tables_of_answer {l : Level} {p : LevelPlan}
    (hbinds : m.bindsIdentifier l.clause = false) (h : m.answer rowScanCost false l = .ok p) :
    p = .tables l (m.candidates l) := by
  have hplan : (m.planLevel rowScanCost false l {}).1 = .ok p :=
    (planLevel_eq remembersCosts_empty l).1.trans h
  cases answers_of_planLevel hplan with
  | lookup binds => exact absurd (hbinds.symm.trans binds) Bool.false_ne_true
  | tables => exact congrArg (LevelPlan.tables l) (candidates_of_planLevel hplan rfl)

/-- Without pruning only a cost can be missing. -/
theorem failure?_answer_unpruned {l : Level} (h : m.bindsIdentifier l.clause = false) :
    failure? (m.answer rowScanCost false l)
      = ((m.candidates l).findSome? fun c => failure? (m.estimate rowScanCost c)).map
          SearchError.schema := by
  have hcosts : failure? (m.levelCosts rowScanCost l)
      = (m.candidates l).findSome? fun c => failure? (m.estimate rowScanCost c) := by
    rw [levelCosts, failure?_mapM]
    simp only [failure?_map]
  rw [answer, h, if_neg Bool.false_ne_true, ← hcosts]
  cases m.levelCosts rowScanCost l with
  | error e => rfl
  | ok costs =>
    dsimp only
    rw [if_neg]
    · rfl
    · exact fun hempty => candidates_ne_nil (List.isEmpty_iff.mp hempty)

variable (m rowScanCost) in
/-- Does a candidate have a cost that stays below the latency of its query? -/
def isKept (c : Candidate) : Bool :=
  match m.estimate rowScanCost c with
  | .ok e => m.fitsLatency c.query e.total
  | .error _ => false

/-- What is kept of a level is a filter of its candidates. -/
theorem keep_eq_filter {l : Level} {costs : List α} (h : m.levelCosts rowScanCost l = .ok costs) :
    m.keep true l.query (m.candidates l) costs
      = (m.candidates l).filter (m.isKept rowScanCost) := by
  have hquery : ∀ c ∈ m.candidates l, c.query = l.query := fun c => query_of_mem_candidates
  have hcosts := mapM_eq_ok_iff.mp h
  clear h
  rw [keep, if_pos rfl]
  generalize m.candidates l = cs at hquery hcosts
  induction hcosts with
  | nil => rfl
  | @cons c cost _ _ hcost _ ih =>
    obtain ⟨hc, hrest⟩ := List.forall_mem_cons.mp hquery
    obtain ⟨e, he, rfl⟩ := map_eq_ok_iff.mp hcost
    have hkept : m.isKept rowScanCost c = m.fitsLatency l.query e.total := by
      rw [isKept, he, hc]
    rw [List.zip_cons_cons, List.filter_cons, List.filter_cons, ← ih hrest, hkept]
    dsimp only
    split_ifs <;> rfl

end Model

end Keyspace
