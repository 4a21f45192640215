import Keyspace.Proofs.Workload.Partition

/-!
# The combinations of a plan tree

A plan tree copies the whole tree of the later levels below every alternative of a level.
`Plan.spellsOut_nest` says what comes out: the ways from the top to a leaf are the combinations of
one alternative for each level, each exactly once and in lexicographic order.

A search grows one tree for the planned levels of each selection and notes the other levels as
direct lookups.  `Model.Contributes` is what one selection adds to the workload, and
`Model.exists_contributions` takes a searched workload apart into what its selections added.

* `pathsOf_nest`: the ways down, listed.
* `pairwise_positions_combinations`: their order.
* `contributes_selection`: one selection.
-/

namespace Keyspace

open Workload

/-! ### Ways down a tree -/

namespace Plan

/-- The ways to choose one alternative of each level.  The choice for the last level varies
first. -/
def combinations : List (List ℕ) → List (List ℕ)
  | [] => [[]]
  | ids :: rest => ids.flatMap fun id => (combinations rest).map (id :: ·)

theorem pathsOf_map (ids : List ℕ) (children : List Plan) :
    pathsOf (ids.map fun id => ⟨id, children⟩) = ids.flatMap fun id => paths ⟨id, children⟩ := by
  induction ids with
  | nil => rfl
  | cons id ids ih => rw [List.map_cons, pathsOf, ih, List.flatMap_cons]

/-- The ways down the tree of some levels are the choices among them. -/
theorem pathsOf_nest {sets : List (List ℕ)} (hne : sets ≠ []) (h : ∀ ids ∈ sets, ids ≠ []) :
    pathsOf (nest sets) = combinations sets := by
  induction sets with
  | nil => exact absurd rfl hne
  | cons ids rest ih =>
    rw [nest, pathsOf_map, combinations]
    cases rest with
    | nil => rfl
    | cons ids' rest =>
      obtain ⟨-, hrest⟩ := List.forall_mem_cons.mp h
      -- below a level that is not the last there is a tree, and its ways down are continued
      have hchildren : nest (ids' :: rest) ≠ [] := by
        simpa [nest] using hrest ids' List.mem_cons_self
      rw [← ih (List.cons_ne_nil _ _) hrest]
      congr 1
      funext id
      cases hnest : nest (ids' :: rest) with
      | nil => exact absurd hnest hchildren
      | cons plan plans => rfl

theorem mem_combinations {sets : List (List ℕ)} {path : List ℕ} :
    path ∈ combinations sets ↔ List.Forall₂ (· ∈ ·) path sets := by
  induction sets generalizing path with
  | nil => rw [combinations, List.mem_singleton, List.forall₂_nil_right_iff]
  | cons ids rest ih =>
    rw [combinations, List.mem_flatMap, List.forall₂_cons_right_iff]
    constructor
    · rintro ⟨id, hid, hpath⟩
      obtain ⟨tail, htail, rfl⟩ := List.mem_map.mp hpath
      exact ⟨id, tail, hid, ih.mp htail, rfl⟩
    · rintro ⟨id, tail, hid, htail, rfl⟩
      exact ⟨id, hid, List.mem_map_of_mem (ih.mpr htail)⟩

/-! ### Their order -/

/-- Where the alternatives of a way down stand in their levels. -/
def positions (sets : List (List ℕ)) (path : List ℕ) : List ℕ :=
  List.zipWith (fun ids id => ids.idxOf id) sets path

theorem pairwise_idxOf {ids : List ℕ} (h : ids.Nodup) :
    ids.Pairwise fun id id' => ids.idxOf id < ids.idxOf id' := by
  refine List.pairwise_iff_getElem.mpr fun i j hi hj hij => ?_
  rwa [h.idxOf_getElem, h.idxOf_getElem]

/-- The choices are listed in lexicographic order of their positions. -/
theorem pairwise_positions_combinations {sets : List (List ℕ)} (h : ∀ ids ∈ sets, ids.Nodup) :
    (combinations sets).Pairwise fun p q => positions sets p < positions sets q := by
  induction sets with
  | nil => exact List.pairwise_singleton _ _
  | cons ids rest ih =>
    obtain ⟨hids, hrest⟩ := List.forall_mem_cons.mp h
    rw [combinations, List.pairwise_flatMap]
    constructor
    · -- below one alternative the later levels decide
      intro id _
      refine List.pairwise_map.mpr ((ih hrest).imp fun {p q} hpq => ?_)
      exact List.cons_lt_cons_iff.mpr (.inr ⟨rfl, hpq⟩)
    · -- below two alternatives their own positions do
      refine (pairwise_idxOf hids).imp fun {id id'} hlt p hp q hq => ?_
      obtain ⟨p, -, rfl⟩ := List.mem_map.mp hp
      obtain ⟨q, -, rfl⟩ := List.mem_map.mp hq
      exact List.cons_lt_cons_iff.mpr (.inl hlt)

/-- The ways down some trees spell out the combinations of one alternative for each level: these
and no others, each once, in lexicographic order of position. -/
structure SpellsOut (plans : List Plan) (sets : List (List ℕ)) : Prop where
  length_eq : ∀ path ∈ pathsOf plans, path.length = sets.length
  mem_iff : ∀ path, path ∈ pathsOf plans ↔ List.Forall₂ (· ∈ ·) path sets
  ascending : (pathsOf plans).Pairwise fun p q => positions sets p < positions sets q

/-- The tree of some levels spells out their combinations. -/
theorem spellsOut_nest {sets : List (List ℕ)} (hne : sets ≠ [])
    (h : ∀ ids ∈ sets, ids ≠ [] ∧ ids.Nodup) : SpellsOut (nest sets) sets := by
  have hpaths := pathsOf_nest hne fun ids hids => (h ids hids).1
  refine ⟨fun path hpath => ?_, fun path => ?_, ?_⟩
  · rw [hpaths, mem_combinations] at hpath
    exact hpath.length_eq
  · rw [hpaths, mem_combinations]
  · rw [hpaths]
    exact pairwise_positions_combinations fun ids hids => (h ids hids).2

end Plan

/-! ### Selections -/

/-- A part of a workload: some levels with the numbers of their candidates, the tree over them if
there is one, and some direct lookups. -/
structure Workload.Part where
  sets : List (List ℕ)
  plan? : Option QueryPlan
  lookups : List DirectLookup

namespace Model

variable {α : Type} [Scalar α] {m : Model α} {rowScanCost : α} {prune : Bool} {w : Workload}

variable (m rowScanCost prune w) in
/-- The alternatives of a planned level: consecutive numbers, at least one, of the candidates that
were found for it. -/
structure AlternativesOf (l : Level) (ids : List ℕ) : Prop where
  ne_nil : ids ≠ []
  exists_eq_range' : ∃ next, ids = List.range' next ids.length
  exists_planLevel :
    ∃ memo, (m.planLevel rowScanCost prune l memo).1 = .ok (.tables l (ids.map w.candidate))

theorem AlternativesOf.nodup {l : Level} {ids : List ℕ}
    (h : m.AlternativesOf rowScanCost prune w l ids) : ids.Nodup := by
  obtain ⟨next, hrange⟩ := h.exists_eq_range'
  rw [hrange]
  exact List.nodup_range'

variable (m rowScanCost prune w) in
/-- What a selection with the given levels adds to a workload: the alternatives of its planned
levels, one tree that spells out their combinations under the label of the first of them, and a
lookup for each of the other levels.  Without a planned level there is no tree. -/
structure Contributes (levels : List Level) (part : Part) : Prop where
  alternatives : List.Forall₂ (m.AlternativesOf rowScanCost prune w)
    (levels.filter fun l => !m.bindsIdentifier l.clause) part.sets
  plan : Option.Rel
    (fun l p => p.query = l.query ∧ p.label = l.label ∧ Plan.SpellsOut p.plans part.sets)
    (levels.filter fun l => !m.bindsIdentifier l.clause).head? part.plan?
  lookups_eq : part.lookups
    = (levels.filter fun l => m.bindsIdentifier l.clause).map fun l => ⟨l.query, l.label⟩
  of_bindsIdentifier : (∀ l ∈ levels, m.bindsIdentifier l.clause = true) →
    part.plan? = none ∧ part.lookups = levels.map fun l => ⟨l.query, l.label⟩

omit [Scalar α] in
/-- The first planned answer is the one for the first planned level. -/
theorem map_level_find?_isPlanned {levels : List Level} {ps : List LevelPlan}
    (h : List.Forall₂ m.Answers levels ps) :
    (ps.find? LevelPlan.isPlanned).map LevelPlan.level
      = (levels.filter fun l => !m.bindsIdentifier l.clause).head? := by
  induction h with
  | nil => rfl
  | cons hl _ ih =>
    cases hl with
    | lookup binds =>
      rw [List.filter_cons_of_neg (by simp [binds]), ← ih]
      rfl
    | tables binds nonempty sublist =>
      rw [List.filter_cons_of_pos (by simp [binds])]
      rfl

/-- What is made of the answers for one selection is what the selection contributes. -/
theorem contributes_selection {levels : List Level} {ps : List LevelPlan}
    (h : List.Forall₂ (fun l p => ∃ memo, (m.planLevel rowScanCost prune l memo).1 = .ok p)
      levels ps) {pre post : List Candidate}
    (hw : w.candidates = pre ++ (ps.flatMap LevelPlan.candidates ++ post)) :
    m.Contributes rowScanCost prune w levels
      ⟨blocks pre.length ps, selectionPlan? pre.length ps, ps.filterMap lookup?⟩ := by
  have hanswer : ∀ l p, (∃ memo, (m.planLevel rowScanCost prune l memo).1 = .ok p) →
      m.Answers l p := fun l p ⟨_, hp⟩ => answers_of_planLevel hp
  have hanswers : List.Forall₂ m.Answers levels ps := h.imp hanswer
  have hlookups := filterMap_lookup?_eq hanswers
  have hfirst := map_level_find?_isPlanned hanswers
  have halternatives : List.Forall₂ (m.AlternativesOf rowScanCost prune w)
      (levels.filter fun l => !m.bindsIdentifier l.clause) (blocks pre.length ps) := by
    refine (forall₂_blocks hanswer h pre post hw).imp ?_
    rintro l ids ⟨hrange, hfound⟩
    refine ⟨?_, hrange, hfound⟩
    cases hanswer l _ hfound with
    | tables binds nonempty sublist => exact fun hnil => nonempty (by rw [hnil, List.map_nil])
  refine ⟨halternatives, ?_, hlookups, fun hbinds => ?_⟩
  · rw [← hfirst, selectionPlan?]
    cases hfind : ps.find? LevelPlan.isPlanned with
    | none => exact .none
    | some first =>
      refine .some ⟨rfl, rfl, Plan.spellsOut_nest ?_ fun ids hids => ?_⟩
      · -- the first planned level has a block
        intro hnil
        rw [hnil, List.forall₂_nil_right_iff] at halternatives
        rw [hfind, halternatives] at hfirst
        exact absurd hfirst (by simp)
      · obtain ⟨l, -, hl⟩ := exists_left_of_forall₂ halternatives hids
        exact ⟨hl.ne_nil, hl.nodup⟩
  · have hnone : levels.filter (fun l => !m.bindsIdentifier l.clause) = [] :=
      List.filter_eq_nil_iff.mpr fun l hl => by simp [hbinds l hl]
    rw [hnone, List.head?_nil, Option.map_eq_none_iff] at hfirst
    rw [selectionPlan?, hfirst, hlookups, List.filter_eq_self.mpr hbinds]
    exact ⟨rfl, rfl⟩

/-- What is made of the answers for several selections is taken apart selection by selection,
wherever the counting starts. -/
theorem exists_parts {selections : List (List Level)} {pss : List (List LevelPlan)}
    (h : List.Forall₂
      (List.Forall₂ fun l p => ∃ memo, (m.planLevel rowScanCost prune l memo).1 = .ok p)
      selections pss) :
    ∀ pre : List Candidate, w.candidates = pre ++ pss.flatten.flatMap LevelPlan.candidates →
      ∃ parts : List Part,
        List.Forall₂ (m.Contributes rowScanCost prune w) selections parts ∧
        blocks pre.length pss.flatten = parts.flatMap Part.sets ∧
        selectionPlans pre.length pss = parts.filterMap Part.plan? ∧
        pss.flatten.filterMap lookup? = parts.flatMap Part.lookups := by
  induction h with
  | nil => exact fun _ _ => ⟨[], .nil, rfl, rfl, rfl⟩
  | @cons levels ps selections pss hlevels _ ih =>
    intro pre hw
    rw [List.flatten_cons, List.flatMap_append] at hw
    obtain ⟨parts, hparts, hsets, hplans, hlookups⟩ :=
      ih (pre ++ ps.flatMap LevelPlan.candidates) (hw.trans (List.append_assoc _ _ _).symm)
    rw [List.length_append] at hsets hplans
    refine ⟨_ :: parts, .cons (contributes_selection hlevels hw) hparts, ?_, ?_, ?_⟩
    · rw [List.flatten_cons, blocks_append, hsets, List.flatMap_cons]
    · rw [selectionPlans, hplans, List.filterMap_cons]
      dsimp only
      cases selectionPlan? pre.length ps <;> rfl
    · rw [List.flatten_cons, List.filterMap_append, hlookups, List.flatMap_cons]

/-- **The plan trees of a searched workload spell out the combinations of its levels.**  Each
selection contributes the alternatives of its planned levels in depth-first order; if there are any,
one tree under the label of the first planned level, whose ways down are the combinations of these
alternatives in lexicographic order; and one lookup for every other level.  The workload holds
nothing else. -/
theorem exists_contributions {memo : Memo α} (h : (m.search rowScanCost prune memo).1 = .ok w) :
    ∃ parts : List Part,
      List.Forall₂ (m.Contributes rowScanCost prune w) m.selectionLevels parts ∧
      w.siblingSets = parts.flatMap Part.sets ∧
      w.plans = parts.filterMap Part.plan? ∧
      w.lookups = parts.flatMap Part.lookups := by
  have hsets := siblingSets_eq_levelSets h
  rw [levelSets] at hsets
  obtain ⟨ps, hps, rfl⟩ := exists_levelPlans h
  rw [hps] at hsets
  rw [hsets]
  exact exists_parts (forall₂_of_levelPlans hps fun _ _ memo hp => ⟨memo, hp⟩) []
    (List.nil_append _).symm

end Model

/-! ### An example -/

namespace Dashboard

/-- A dashboard that shows the todos and the notes of a user, and single notes. -/
def declarations : Declarations Exact where
  entities := [
    { name := "User"
      fields := [{ name := "id", typeName := idType },
        { name := "todos", typeName := "Todo", isList := true },
        { name := "notes", typeName := "Note", isList := true }]
      statistics := [] },
    { name := "Todo"
      fields := [{ name := "id", typeName := idType }, { name := "done", typeName := "Boolean" }]
      statistics := [⟨["done"], .uniform 2⟩] },
    { name := "Note"
      fields := [{ name := "id", typeName := idType }, { name := "pinned", typeName := "Boolean" }]
      statistics := [⟨["pinned"], .uniform 2⟩] }]
  definitions := [
    { name := "user", entity := "User", clause := { predicates := [("id", "$user")] } }]
  queries := [
    { name := "home"
      selections := [⟨"user", 1, [⟨"todos", { predicates := [("done", "$done")] }, 10, []⟩,
        ⟨"notes", { predicates := [("pinned", "$pinned")] }, 10, []⟩]⟩] },
    { name := "edit"
      selections := [⟨"user", 1, [⟨"notes", { predicates := [("id", "$note")] }, 1, []⟩]⟩] }]

/-- The model of a dashboard. -/
def model : Model Exact := declarations.build.toOption.getD default

/-- The candidates for a dashboard, found without pruning. -/
def workload : Workload := (model.search (.finite 1) false {}).1.toOption.getD default

end Dashboard

/-- The user of a dashboard is looked up, so the tree has the label of the todos; and to edit a note
no table is needed at all. -/
theorem Model.exists_contributions_dashboard :
    ∃ parts : List Part,
      List.Forall₂ (Dashboard.model.Contributes (.finite 1) false Dashboard.workload)
        Dashboard.model.selectionLevels parts ∧
      parts.flatMap Part.sets = [[0, 1], [2, 3]] ∧
      ((parts.filterMap Part.plan?).map fun p => (p.label, Plan.pathsOf p.plans))
        = [("home/user.todos", [[0, 2], [0, 3], [1, 2], [1, 3]])] ∧
      (parts.flatMap Part.lookups).map DirectLookup.label
        = ["home/user", "edit/user", "edit/user.notes"] := by
  have hw : (Dashboard.model.search (.finite 1) false {}).1 = .ok Dashboard.workload := rfl
  obtain ⟨parts, hparts, hsets, hplans, hlookups⟩ := Model.exists_contributions hw
  refine ⟨parts, hparts, ?_, ?_, ?_⟩
  · rw [← hsets]
    exact (siblingSets_eq_levelSets hw).trans rfl
  · rw [← hplans]
    rfl
  · rw [← hlookups]
    rfl

end Keyspace
