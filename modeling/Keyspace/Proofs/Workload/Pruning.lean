import Keyspace.Proofs.Cost.Finite
import Keyspace.Proofs.Workload.Answer

/-!
# Pruning is a filter

With pruning a search drops the candidates whose cost reaches the latency of their query while it
numbers the others and builds their trees.  The outcome is that of filtering afterwards:
`Workload.IsFiltered` says that a workload is another one without some of its candidates, with the
same lookups and the same levels, tree by tree, and numbers without gaps.

`Model.search_pruned` says that a pruned search finds the filtered workload of an unpruned one, or
stops at the first level that keeps nothing.  A cost that is not a number reaches no latency and is
kept, but there is none unless the cost of scanning a row is not a number.
-/

namespace Keyspace

/-! ### Filtered answers -/

namespace LevelPlan

variable (keeps : Candidate → Bool) (p : LevelPlan)

/-- An answer without the candidates that are not kept. -/
def filter : LevelPlan → LevelPlan
  | lookup l => lookup l
  | tables l cs => tables l (cs.filter keeps)

@[simp]
theorem level_filter : (p.filter keeps).level = p.level := by
  cases p <;> rfl

@[simp]
theorem isPlanned_filter : (p.filter keeps).isPlanned = p.isPlanned := by
  cases p <;> rfl

@[simp]
theorem candidates_filter : (p.filter keeps).candidates = p.candidates.filter keeps := by
  cases p <;> rfl

end LevelPlan

namespace Workload

variable {keeps : Candidate → Bool}

/-- Alternatives `ids'` for a level are those among the alternatives `ids` that are kept, and there
is one. -/
def Keeps (keeps : Candidate → Bool) (w w' : Workload) (ids ids' : List ℕ) : Prop :=
  ids' ≠ [] ∧ ids'.map w'.candidate = (ids.map w.candidate).filter keeps

/-- The tree of a selection in a filtered workload: the tree has the same levels. -/
def IsFilteredPlan (keeps : Candidate → Bool) (w w' : Workload) (p p' : QueryPlan) : Prop :=
  p'.query = p.query ∧ p'.label = p.label ∧
    ∃ sets sets', p.plans = Plan.nest sets ∧ p'.plans = Plan.nest sets' ∧
      List.Forall₂ (Keeps keeps w w') sets sets'

/-- The workload `w'` is `w` without the candidates that are not kept. -/
structure IsFiltered (keeps : Candidate → Bool) (w w' : Workload) : Prop where
  candidates_eq : w'.candidates = w.candidates.filter keeps
  lookups_eq : w'.lookups = w.lookups
  plans : List.Forall₂ (IsFilteredPlan keeps w w') w.plans w'.plans
  siblingSets : List.Forall₂ (Keeps keeps w w') w.siblingSets w'.siblingSets
  /-- The numbers of the levels follow one another without gaps. -/
  flatten_eq : w'.siblingSets.flatten = List.range w'.candidates.length

theorem flatMap_candidates_filter (ps : List LevelPlan) :
    (ps.map (LevelPlan.filter keeps)).flatMap LevelPlan.candidates
      = (ps.flatMap LevelPlan.candidates).filter keeps := by
  rw [List.flatMap_map, List.filter_flatMap]
  simp only [LevelPlan.candidates_filter]

theorem filterMap_lookup?_filter (ps : List LevelPlan) :
    (ps.map (LevelPlan.filter keeps)).filterMap lookup? = ps.filterMap lookup? := by
  rw [List.filterMap_map]
  congr 1
  funext p
  cases p <;> rfl

/-- The blocks of filtered answers, wherever the counting starts. -/
theorem forall₂_blocks_filter {w w' : Workload} {ps : List LevelPlan}
    (hfound : AllFound (ps.map (LevelPlan.filter keeps))) :
    ∀ pre pre' post post' : List Candidate,
      w.candidates = pre ++ (ps.flatMap LevelPlan.candidates ++ post) →
      w'.candidates
        = pre' ++ ((ps.map (LevelPlan.filter keeps)).flatMap LevelPlan.candidates ++ post') →
      List.Forall₂ (Keeps keeps w w') (blocks pre.length ps)
        (blocks pre'.length (ps.map (LevelPlan.filter keeps))) := by
  -- a block that loses candidates shifts all later numbers, so the two counts run apart
  induction ps with
  | nil => exact fun _ _ _ _ _ _ => .nil
  | cons p ps ih =>
    intro pre pre' post post' hw hw'
    obtain ⟨hp, hps⟩ := List.forall_mem_cons.mp hfound
    cases p with
    | lookup l => exact ih hps pre pre' post post' hw hw'
    | tables l cs =>
      rw [List.flatMap_cons, List.append_assoc] at hw
      rw [List.map_cons, List.flatMap_cons, List.append_assoc] at hw'
      refine .cons ⟨?_, ?_⟩ ?_
      · have hne : cs.filter keeps ≠ [] := hp rfl
        simpa using hne
      · have hids : (List.range' pre.length cs.length).map w.candidate = cs :=
          map_candidate_range' hw
        have hids' : (List.range' pre'.length (cs.filter keeps).length).map w'.candidate
            = cs.filter keeps := map_candidate_range' hw'
        exact hids'.trans (congrArg (List.filter keeps) hids.symm)
      · have ih := ih hps (pre ++ cs) (pre' ++ cs.filter keeps) post post'
          (hw.trans (List.append_assoc _ _ _).symm) (hw'.trans (List.append_assoc _ _ _).symm)
        rwa [List.length_append, List.length_append] at ih

theorem selectionPlan?_filter {w w' : Workload} {ps : List LevelPlan}
    (hfound : AllFound (ps.map (LevelPlan.filter keeps))) (pre pre' post post' : List Candidate)
    (hw : w.candidates = pre ++ (ps.flatMap LevelPlan.candidates ++ post))
    (hw' : w'.candidates
      = pre' ++ ((ps.map (LevelPlan.filter keeps)).flatMap LevelPlan.candidates ++ post')) :
    List.Forall₂ (IsFilteredPlan keeps w w') (selectionPlan? pre.length ps).toList
      (selectionPlan? pre'.length (ps.map (LevelPlan.filter keeps))).toList := by
  have hplanned : LevelPlan.isPlanned ∘ LevelPlan.filter keeps = LevelPlan.isPlanned :=
    funext fun p => p.isPlanned_filter keeps
  rw [selectionPlan?, selectionPlan?, List.find?_map, hplanned]
  cases ps.find? LevelPlan.isPlanned with
  | none => exact .nil
  | some first =>
    have hlevel : (first.filter keeps).level = first.level := first.level_filter keeps
    refine .cons ⟨?_, ?_, _, _, rfl, rfl, ?_⟩ .nil
    · exact congrArg Level.query hlevel
    · exact congrArg Level.label hlevel
    · exact forall₂_blocks_filter hfound pre pre' post post' hw hw'

/-- The trees of filtered answers, wherever the counting starts. -/
theorem selectionPlans_filter {w w' : Workload} {selections : List (List LevelPlan)}
    (hfound : AllFound (selections.map (List.map (LevelPlan.filter keeps))).flatten) :
    ∀ pre pre' : List Candidate,
      w.candidates = pre ++ selections.flatten.flatMap LevelPlan.candidates →
      w'.candidates = pre' ++
        (selections.map (List.map (LevelPlan.filter keeps))).flatten.flatMap
          LevelPlan.candidates →
      List.Forall₂ (IsFilteredPlan keeps w w') (selectionPlans pre.length selections)
        (selectionPlans pre'.length (selections.map (List.map (LevelPlan.filter keeps)))) := by
  induction selections with
  | nil => exact fun _ _ _ _ => .nil
  | cons ps rest ih =>
    intro pre pre' hw hw'
    rw [List.flatten_cons, List.flatMap_append] at hw
    rw [List.map_cons, List.flatten_cons, List.flatMap_append] at hw'
    have hps : AllFound (ps.map (LevelPlan.filter keeps)) :=
      fun p hp => hfound p (List.mem_append_left _ hp)
    have ih := ih (fun p hp => hfound p (List.mem_append_right _ hp))
      (pre ++ ps.flatMap LevelPlan.candidates)
      (pre' ++ (ps.map (LevelPlan.filter keeps)).flatMap LevelPlan.candidates)
      (hw.trans (List.append_assoc _ _ _).symm) (hw'.trans (List.append_assoc _ _ _).symm)
    rw [List.length_append, List.length_append] at ih
    rw [List.map_cons, selectionPlans, selectionPlans]
    exact List.rel_append (selectionPlan?_filter hps pre pre' _ _ hw hw') ih

/-- Numbering filtered answers filters the workload. -/
theorem isFiltered_ofLevelPlans {selections : List (List LevelPlan)}
    (hfound : AllFound selections.flatten)
    (hfound' : AllFound (selections.map (List.map (LevelPlan.filter keeps))).flatten) :
    IsFiltered keeps (.ofLevelPlans selections)
      (.ofLevelPlans (selections.map (List.map (LevelPlan.filter keeps)))) := by
  have hflatten : (selections.map (List.map (LevelPlan.filter keeps))).flatten
      = selections.flatten.map (LevelPlan.filter keeps) := List.map_flatten.symm
  set filtered := selections.map (List.map (LevelPlan.filter keeps))
  have hcandidates : filtered.flatten.flatMap LevelPlan.candidates
      = (selections.flatten.flatMap LevelPlan.candidates).filter keeps := by
    rw [hflatten, flatMap_candidates_filter]
  have hlookups : filtered.flatten.filterMap lookup? = selections.flatten.filterMap lookup? := by
    rw [hflatten, filterMap_lookup?_filter]
  have hsets : (ofLevelPlans selections).siblingSets = blocks 0 selections.flatten :=
    eraseDups_selectionPlans hfound 0
  have hsets' : (ofLevelPlans filtered).siblingSets = blocks 0 filtered.flatten :=
    eraseDups_selectionPlans hfound' 0
  refine ⟨hcandidates, hlookups, selectionPlans_filter hfound' [] [] rfl rfl, ?_, ?_⟩
  · rw [hsets, hsets', hflatten]
    refine forall₂_blocks_filter (hflatten ▸ hfound') [] [] [] [] ?_ ?_
    · exact (List.append_nil _).symm
    · rw [← hflatten]
      exact (List.append_nil _).symm
  · rw [hsets', flatten_blocks, ← List.range_eq_range']
    rfl

end Workload

/-! ### Pruned searches -/

namespace Model

section Answers

variable {α : Type} [Scalar α] {m : Model α} {rowScanCost : α}

/-- A pruned level keeps what stays below the latency, if that is anything. -/
theorem answer_pruned {l : Level} {p : LevelPlan} (h : m.answer rowScanCost false l = .ok p) :
    m.answer rowScanCost true l
      = if p.isPlanned && (p.candidates.filter (m.isKept rowScanCost)).isEmpty then
          .error (.noCandidates (m.query l.query).name l.label)
        else .ok (p.filter (m.isKept rowScanCost)) := by
  rw [answer] at h ⊢
  by_cases hbinds : m.bindsIdentifier l.clause = true
  · rw [if_pos hbinds] at h ⊢
    obtain rfl := Except.ok.inj h
    rfl
  · rw [if_neg hbinds] at h ⊢
    cases hcosts : m.levelCosts rowScanCost l with
    | error e =>
      rw [hcosts] at h
      exact absurd h (by simp)
    | ok costs =>
      rw [hcosts] at h
      dsimp only at h ⊢
      split_ifs at h with hempty
      obtain rfl := Except.ok.inj h
      rw [keep_eq_filter hcosts]
      rfl

/-- Where all costs are known, a pruned planned level fails only if it keeps nothing. -/
theorem failure?_answer_pruned {l : Level} {p : LevelPlan}
    (hbinds : m.bindsIdentifier l.clause = false) (h : m.answer rowScanCost false l = .ok p) :
    failure? (m.answer rowScanCost true l)
      = if (m.candidates l).any (m.isKept rowScanCost) then none
        else some (.noCandidates (m.query l.query).name l.label) := by
  have hempty : ((m.candidates l).filter (m.isKept rowScanCost)).isEmpty
      = !(m.candidates l).any (m.isKept rowScanCost) := by
    rw [Bool.eq_iff_iff, List.isEmpty_iff, List.filter_eq_nil_iff, Bool.not_eq_true',
      List.any_eq_false]
  rw [answer_pruned h, eq_tables_of_answer hbinds h, LevelPlan.candidates, hempty]
  cases (m.candidates l).any (m.isKept rowScanCost) <;> rfl

end Answers

section Search

variable {α : Type} [Scalar α] {m : Model α} {rowScanCost : α} {memo memo' : Memo α} {w : Workload}
  (hmemo : m.RemembersCosts rowScanCost memo) (hmemo' : m.RemembersCosts rowScanCost memo')
  (hw : (m.search rowScanCost false memo).1 = .ok w)
include hmemo hmemo' hw

/-- A pruned search that succeeds finds the filtered workload. -/
theorem isFiltered_of_search {w' : Workload}
    (hw' : (m.search rowScanCost true memo').1 = .ok w') :
    w.IsFiltered (m.isKept rowScanCost) w' := by
  obtain ⟨ps, hps, rfl⟩ := exists_levelPlans hw
  obtain ⟨ps', hps', rfl⟩ := exists_levelPlans hw'
  have hfound := allFound_of_answers (forall₂_answers hps)
  have hfound' := allFound_of_answers (forall₂_answers hps')
  -- answer by answer, the pruned search filters
  have hfilter : ps' = ps.map (List.map (LevelPlan.filter (m.isKept rowScanCost))) := by
    rw [levelPlans_eq hmemo] at hps
    rw [levelPlans_eq hmemo'] at hps'
    refine eq_map_of_forall₂ (fun levels answers answers' h h' => ?_) (mapM_eq_ok_iff.mp hps)
      (mapM_eq_ok_iff.mp hps')
    refine eq_map_of_forall₂ (fun l p p' hp hp' => ?_) (mapM_eq_ok_iff.mp h)
      (mapM_eq_ok_iff.mp h')
    rw [answer_pruned hp] at hp'
    split_ifs at hp'
    exact (Except.ok.inj hp').symm
  subst hfilter
  exact Workload.isFiltered_ofLevelPlans hfound hfound'

/-- A pruned search filters, or fails as the first level that keeps nothing. -/
theorem isFiltered_or_noCandidates :
    (∃ w', (m.search rowScanCost true memo').1 = .ok w' ∧
      w.IsFiltered (m.isKept rowScanCost) w') ∨
    ∃ pre l post, m.plannedLevels = pre ++ l :: post ∧
      (∀ a ∈ pre, ∃ c ∈ m.candidates a, m.isKept rowScanCost c = true) ∧
      (∀ c ∈ m.candidates l, m.isKept rowScanCost c = false) ∧
      (m.search rowScanCost true memo').1
        = .error (.noCandidates (m.query l.query).name l.label) := by
  have hfails : ∀ l ∈ m.plannedLevels, failure? (m.answer rowScanCost true l)
      = if (m.candidates l).any (m.isKept rowScanCost) then none
        else some (.noCandidates (m.query l.query).name l.label) := by
    intro l hl
    obtain ⟨p, hp⟩ := (exists_search_iff hmemo).mp ⟨w, hw⟩ l hl
    exact failure?_answer_pruned (bindsIdentifier_of_mem_plannedLevels hl) hp
  cases hpruned : (m.search rowScanCost true memo').1 with
  | ok w' => exact .inl ⟨w', rfl, isFiltered_of_search hmemo hmemo' hw hpruned⟩
  | error e =>
    have hfirst : m.plannedLevels.findSome? (fun l => failure? (m.answer rowScanCost true l))
        = some e := by
      rw [← failure?_search hmemo', hpruned]
      rfl
    obtain ⟨pre, l, post, hlevels, hl, hpre⟩ := List.findSome?_eq_some_iff.mp hfirst
    have hmem : l ∈ m.plannedLevels := by
      rw [hlevels]
      exact List.mem_append_right _ List.mem_cons_self
    rw [hfails l hmem] at hl
    split_ifs at hl with hany
    obtain rfl := Option.some.inj hl
    refine .inr ⟨pre, l, post, hlevels, fun a ha => ?_, ?_, rfl⟩
    · have hnone := hpre a ha
      have hmem : a ∈ m.plannedLevels := by
        rw [hlevels]
        exact List.mem_append_left _ ha
      rw [hfails a hmem] at hnone
      split_ifs at hnone with hany
      exact List.any_eq_true.mp hany
    · rw [Bool.not_eq_true, List.any_eq_false] at hany
      exact fun c hc => Bool.eq_false_iff.mpr (hany c hc)

end Search

/-! ### Latencies over exact scalars -/

section Latency

variable {m : Model Exact} {rowScanCost : Exact}

variable (m rowScanCost) in
/-- Does a candidate have a cost strictly below the latency of its query? -/
def isBelowLatency (c : Candidate) : Bool :=
  match m.estimate rowScanCost c with
  | .ok e => Scalar.lt e.total (Scalar.ofNat (m.query c.query).serviceLevel.latency)
  | .error _ => false

variable (m rowScanCost) in
/-- Does a candidate have a cost that is not a number? -/
def isUnordered (c : Candidate) : Bool :=
  match m.estimate rowScanCost c with
  | .ok e => decide (e.total = .nan)
  | .error _ => false

theorem isUnordered_eq_false (hr : rowScanCost ≠ .nan) (c : Candidate) :
    m.isUnordered rowScanCost c = false := by
  rw [isUnordered]
  split
  next e he => exact decide_eq_false (total_ne_nan he hr)
  · rfl

/-- What does not reach the latency is below it, or not comparable. -/
theorem fitsLatency_iff {query : QueryId} {cost : Exact} :
    m.fitsLatency query cost = true ↔
      Scalar.lt cost (Scalar.ofNat (m.query query).serviceLevel.latency) = true ∨ cost = .nan := by
  rw [fitsLatency, Exact.ofNat_eq]
  cases cost with
  | nan => simp
  | posInf => simp; rfl
  | negInf => simp; rfl
  | finite q => simp [Exact.le_finite, Exact.lt_finite]

theorem isKept_eq (c : Candidate) :
    m.isKept rowScanCost c = (m.isBelowLatency rowScanCost c || m.isUnordered rowScanCost c) := by
  rw [isKept, isBelowLatency, isUnordered]
  cases m.estimate rowScanCost c with
  | error e => rfl
  | ok e =>
    dsimp only
    rw [Bool.eq_iff_iff, fitsLatency_iff, Bool.or_eq_true, decide_eq_true_eq]

/-- **Pruning is a filter.**  If an unpruned search succeeds, the pruned search with the same cost
of scanning a row finds the same workload without the candidates whose cost reaches the latency of
their query, or it blames the first planned level that has no other candidates.  A cost that does
not reach the latency is strictly below it, unless rows are scanned at a cost that is not a
number. -/
theorem search_pruned {memo memo' : Memo Exact} {w : Workload}
    (hmemo : m.RemembersCosts rowScanCost memo) (hmemo' : m.RemembersCosts rowScanCost memo')
    (hw : (m.search rowScanCost false memo).1 = .ok w) :
    (rowScanCost ≠ .nan → ∀ c, m.isUnordered rowScanCost c = false) ∧
    ((∃ w', (m.search rowScanCost true memo').1 = .ok w' ∧
        w.IsFiltered (fun c => m.isBelowLatency rowScanCost c || m.isUnordered rowScanCost c) w' ∧
        List.Forall₂
          (fun l ids => ids.map w'.candidate = (m.candidates l).filter fun c =>
            m.isBelowLatency rowScanCost c || m.isUnordered rowScanCost c)
          m.plannedLevels w'.siblingSets) ∨
      ∃ pre l post, m.plannedLevels = pre ++ l :: post ∧
        (∀ a ∈ pre, ∃ c ∈ m.candidates a,
          (m.isBelowLatency rowScanCost c || m.isUnordered rowScanCost c) = true) ∧
        (∀ c ∈ m.candidates l,
          (m.isBelowLatency rowScanCost c || m.isUnordered rowScanCost c) = false) ∧
        (m.search rowScanCost true memo').1
          = .error (.noCandidates (m.query l.query).name l.label)) := by
  refine ⟨isUnordered_eq_false, ?_⟩
  simp only [← isKept_eq]
  refine (isFiltered_or_noCandidates hmemo hmemo' hw).imp_left ?_
  rintro ⟨w', hw', hfiltered⟩
  refine ⟨w', hw', hfiltered, ?_⟩
  have hlevels := forall₂_levelSets_unpruned hw
  rw [← siblingSets_eq_levelSets hw] at hlevels
  refine forall₂_of_comp (fun l ids ids' hids hkeeps => ?_) hlevels hfiltered.siblingSets
  rw [hkeeps.2, hids]

end Latency

/-- With rows scanned at ten each, the level of authors with a given name loses the candidate that
scans them all, whose cost reaches the latency, and the other one takes its number. -/
theorem search_pruned_forum :
    (Forum.model.search (.finite 10) false {}).1 = .ok Forum.workload ∧
    ∃ w', (Forum.model.search (.finite 10) true {}).1 = .ok w' ∧
      Forum.workload.IsFiltered
        (fun c =>
          Forum.model.isBelowLatency (.finite 10) c || Forum.model.isUnordered (.finite 10) c)
        w' ∧
      Forum.workload.candidates.length = 4 ∧ w'.candidates.length = 3 := by
  have hw : (Forum.model.search (.finite 10) false {}).1 = .ok Forum.workload := rfl
  obtain ⟨-, ⟨w', hw', hfiltered, -⟩ | ⟨_, _, _, -, -, -, herror⟩⟩ :=
    search_pruned remembersCosts_empty remembersCosts_empty hw
  · refine ⟨hw, w', hw', hfiltered, rfl, ?_⟩
    rw [hfiltered.candidates_eq]
    decide +kernel
  · obtain ⟨w', hw'⟩ := exists_eq_ok_of_isOk
      (by decide +kernel : (Forum.model.search (.finite 10) true {}).1.isOk = true)
    exact absurd (hw'.symm.trans herror) (by simp)

/-- With rows scanned at a cost that is not a number, the cost of the candidate that scans all
authors is not below any latency, and the candidate is kept. -/
theorem not_isFiltered_isBelowLatency :
    (Forum.model.search .nan false {}).1 = .ok Forum.workload ∧
    ∃ w', (Forum.model.search .nan true {}).1 = .ok w' ∧
      ¬ Forum.workload.IsFiltered (Forum.model.isBelowLatency .nan) w' := by
  refine ⟨rfl, (Forum.model.search .nan true {}).1.toOption.getD default, rfl, fun h => ?_⟩
  have hlength := congrArg List.length h.candidates_eq
  exact absurd hlength (by decide +kernel)

end Model

end Keyspace
