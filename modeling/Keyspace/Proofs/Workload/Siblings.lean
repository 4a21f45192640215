import Keyspace.Proofs.Workload.Search
import Mathlib.Data.List.GetD
import Mathlib.Data.List.Nodup

/-!
# Sibling sets are the levels

A plan tree repeats the alternatives of a level below every alternative of the level before it, and
`Workload.siblingSets` reads the levels off again by leaving out repetitions.
`siblingSets_eq_levelSets` says that nothing is lost or merged on the way: the sibling sets of a
searched workload are the blocks of candidates of the planned levels, in the order of the levels.

* `eraseDups_siblingLists_nest`: the levels of one tree.
* `eraseDups_selectionPlans`: the levels of all trees.
* `forall₂_levelSets`: what the blocks hold, level by level.
* `isLeveled_levelSets`: the blocks partition the candidates, and each has one root entity.
* `forall₂_levelSets_unpruned`: without pruning each block holds all candidates of its level.
-/

namespace Keyspace

/-! ### Repetitions -/

section Repetitions

variable {β : Type} [BEq β] [LawfulBEq β]

theorem eraseDups_append_of_disjoint {l₁ l₂ : List β} (h : l₁.Disjoint l₂) :
    (l₁ ++ l₂).eraseDups = l₁.eraseDups ++ l₂.eraseDups := by
  -- what is removed from the second list are repetitions of the first, and there are none
  have hkeep : l₂.removeAll l₁ = l₂ := by
    rw [List.removeAll, List.filter_eq_self]
    intro b hb
    have hb : b ∉ l₁ := fun hb' => h hb' hb
    simpa using hb
  rw [List.eraseDups_append, hkeep]

theorem eraseDups_flatten_replicate (n : ℕ) (l : List β) :
    (List.replicate (n + 1) l).flatten.eraseDups = l.eraseDups := by
  -- every copy but the first is a repetition
  have hgone : (List.replicate n l).flatten.removeAll l = [] := by
    rw [List.removeAll, List.filter_eq_nil_iff]
    intro b hb
    obtain ⟨l', hl', hb⟩ := List.mem_flatten.mp hb
    rw [List.eq_of_mem_replicate hl'] at hb
    simpa using hb
  rw [List.replicate_succ, List.flatten_cons, List.eraseDups_append, hgone, List.eraseDups_nil,
    List.append_nil]

end Repetitions

/-! ### One tree -/

namespace Plan

theorem siblingsBelow_mk (candidate : ℕ) (children : List Plan) :
    siblingsBelow ⟨candidate, children⟩ = siblingLists children := by
  cases children with
  | nil => rfl
  | cons plan rest => rfl

theorem siblingsBelowAll_map (ids : List ℕ) (children : List Plan) :
    siblingsBelowAll (ids.map fun id => ⟨id, children⟩)
      = (List.replicate ids.length (siblingLists children)).flatten := by
  induction ids with
  | nil => rfl
  | cons id ids ih =>
    rw [List.map_cons, siblingsBelowAll, siblingsBelow_mk, ih, List.length_cons,
      List.replicate_succ, List.flatten_cons]

/-- The sibling lists of a tree: the first level, then everything below it once for each of its
alternatives. -/
theorem siblingLists_nest_cons {ids : List ℕ} (hne : ids ≠ []) (hasc : ids.Pairwise (· ≤ ·))
    (rest : List (List ℕ)) :
    siblingLists (nest (ids :: rest))
      = ids :: (List.replicate ids.length (siblingLists (nest rest))).flatten := by
  have hids : siblings (nest (ids :: rest)) = ids := by
    rw [siblings, nest, List.map_map]
    -- the numbers of a level are ascending already, so sorting them changes nothing
    have hmap : ids.map (Plan.candidate ∘ fun id => ⟨id, nest rest⟩) = ids := List.map_id ids
    rw [hmap]
    exact List.mergeSort_of_pairwise (hasc.imp fun h => by simpa using h)
  rw [siblingLists, hids, if_neg (by simpa [nest] using hne), nest, siblingsBelowAll_map]

/-- A tree has no other sibling lists than its levels. -/
theorem mem_of_mem_siblingLists_nest {sets : List (List ℕ)}
    (h : ∀ ids ∈ sets, ids ≠ [] ∧ ids.Pairwise (· ≤ ·)) {s : List ℕ}
    (hs : s ∈ siblingLists (nest sets)) : s ∈ sets := by
  induction sets with
  | nil => exact absurd hs (by simp [nest, siblingLists])
  | cons ids rest ih =>
    obtain ⟨hne, hasc⟩ := h ids List.mem_cons_self
    rw [siblingLists_nest_cons hne hasc] at hs
    rcases List.mem_cons.mp hs with rfl | hs
    · exact List.mem_cons_self
    · obtain ⟨l, hl, hs⟩ := List.mem_flatten.mp hs
      rw [List.eq_of_mem_replicate hl] at hs
      exact List.mem_cons_of_mem _ (ih (fun ids' h' => h ids' (List.mem_cons_of_mem _ h')) hs)

/-- Without repetitions the sibling lists of a tree are its levels, from the top down. -/
theorem eraseDups_siblingLists_nest {sets : List (List ℕ)}
    (h : ∀ ids ∈ sets, ids ≠ [] ∧ ids.Pairwise (· ≤ ·)) (hnodup : sets.Nodup) :
    (siblingLists (nest sets)).eraseDups = sets := by
  induction sets with
  | nil => rfl
  | cons ids rest ih =>
    obtain ⟨hne, hasc⟩ := h ids List.mem_cons_self
    have hrest : ∀ ids' ∈ rest, ids' ≠ [] ∧ ids'.Pairwise (· ≤ ·) :=
      fun ids' h' => h ids' (List.mem_cons_of_mem _ h')
    obtain ⟨hnotin, hnodup⟩ := List.nodup_cons.mp hnodup
    -- the lower levels occur once for each alternative, and there is at least one
    obtain ⟨n, hn⟩ : ∃ n, ids.length = n + 1 :=
      ⟨ids.length - 1, by have := List.length_pos_iff.mpr hne; omega⟩
    have hdisjoint :
        [ids].Disjoint (List.replicate ids.length (siblingLists (nest rest))).flatten := by
      rintro s hs hs'
      rw [List.mem_singleton] at hs
      subst hs
      obtain ⟨l, hl, hs'⟩ := List.mem_flatten.mp hs'
      rw [List.eq_of_mem_replicate hl] at hs'
      exact hnotin (mem_of_mem_siblingLists_nest hrest hs')
    rw [siblingLists_nest_cons hne hasc, ← List.singleton_append,
      eraseDups_append_of_disjoint hdisjoint, hn, eraseDups_flatten_replicate, ih hrest hnodup]
    rfl

end Plan

/-! ### Blocks -/

namespace Workload

theorem candidate_eq_getElem {w : Workload} {c : ℕ} (hc : c < w.candidates.length) :
    w.candidate c = w.candidates[c] :=
  List.getD_eq_getElem _ _ hc

/-- Candidates that follow one another are found by the numbers from their first one on. -/
theorem map_candidate_range' {w : Workload} {pre cs post : List Candidate}
    (hw : w.candidates = pre ++ (cs ++ post)) :
    (List.range' pre.length cs.length).map w.candidate = cs := by
  unfold candidate
  rw [hw]
  exact map_range'_getD pre cs _ _

/-- What belongs to the candidates one by one is found by their numbers. -/
theorem rel_getD_of_forall₂ {γ : Type} {R : Candidate → γ → Prop} {w : Workload} {xs : List γ}
    (h : List.Forall₂ R w.candidates xs) {c : ℕ} (hc : c < w.candidates.length) (x : γ) :
    R (w.candidate c) (xs.getD c x) := by
  have hc' : c < xs.length := h.length_eq ▸ hc
  rw [candidate_eq_getElem hc, List.getD_eq_getElem _ _ hc']
  exact h.get hc hc'

theorem blocks_append (next : ℕ) (ps qs : List LevelPlan) :
    blocks next (ps ++ qs)
      = blocks next ps ++ blocks (next + (ps.flatMap LevelPlan.candidates).length) qs := by
  induction ps generalizing next with
  | nil => rfl
  | cons p ps ih =>
    cases p with
    | lookup l => exact ih next
    | tables l cs =>
      rw [List.cons_append, blocks, blocks, ih, List.cons_append, List.flatMap_cons,
        List.length_append, ← Nat.add_assoc]
      rfl

/-- The blocks together count all candidates. -/
theorem flatten_blocks (next : ℕ) (ps : List LevelPlan) :
    (blocks next ps).flatten = List.range' next (ps.flatMap LevelPlan.candidates).length := by
  induction ps generalizing next with
  | nil => rfl
  | cons p ps ih =>
    cases p with
    | lookup l => exact ih next
    | tables l cs =>
      rw [blocks, List.flatten_cons, ih, List.flatMap_cons, List.length_append,
        List.range'_append_1]
      rfl

/-- A planned level without candidates is no answer of a search. -/
def AllFound (ps : List LevelPlan) : Prop := ∀ p ∈ ps, p.isPlanned = true → p.candidates ≠ []

theorem block_spec {ps : List LevelPlan} (h : AllFound ps) (next : ℕ) :
    ∀ ids ∈ blocks next ps, ids ≠ [] ∧ ids.Pairwise (· ≤ ·) := by
  induction ps generalizing next with
  | nil => intro ids hids; simp [blocks] at hids
  | cons p ps ih =>
    have ih := ih fun q hq => h q (List.mem_cons_of_mem _ hq)
    cases p with
    | lookup l => exact ih next
    | tables l cs =>
      intro ids hids
      rw [blocks] at hids
      rcases List.mem_cons.mp hids with rfl | hids
      · have hcs : cs ≠ [] := h _ List.mem_cons_self rfl
        refine ⟨by simpa using hcs, ?_⟩
        exact (List.pairwise_lt_range' (s := next)).imp fun h => Nat.le_of_lt h
      · exact ih _ ids hids

theorem nodup_blocks {ps : List LevelPlan} (h : AllFound ps) (next : ℕ) :
    (blocks next ps).Nodup := by
  have hflat : (blocks next ps).flatten.Nodup := by
    rw [flatten_blocks]
    exact List.nodup_range'
  -- two equal blocks would share a number, since none is empty
  refine (List.nodup_flatten.mp hflat).2.imp_of_mem fun {s t} hs _ hdisjoint heq => ?_
  subst heq
  obtain ⟨x, hx⟩ := List.exists_mem_of_ne_nil s (block_spec h next s hs).1
  exact hdisjoint hx hx

/-! ### All trees -/

theorem flatMap_siblingLists_selectionPlan? (next : ℕ) (ps : List LevelPlan) :
    ((selectionPlan? next ps).toList.flatMap fun p => Plan.siblingLists p.plans)
      = Plan.siblingLists (Plan.nest (blocks next ps)) := by
  rw [selectionPlan?]
  cases hfirst : ps.find? LevelPlan.isPlanned with
  | some first => simp
  | none =>
    -- without a planned level there is no tree, and there are no blocks either
    have hblocks : ∀ ps : List LevelPlan, (∀ p ∈ ps, ¬ p.isPlanned = true) →
        blocks next ps = [] := by
      intro ps
      induction ps with
      | nil => intro _; rfl
      | cons p ps ih =>
        intro h
        cases p with
        | lookup l => exact ih fun q hq => h q (List.mem_cons_of_mem _ hq)
        | tables l cs => exact absurd rfl (h _ List.mem_cons_self)
    rw [hblocks ps (List.find?_eq_none.mp hfirst)]
    rfl

/-- Without repetitions the sibling lists of all trees are the blocks of all levels. -/
theorem eraseDups_selectionPlans {selections : List (List LevelPlan)}
    (h : AllFound selections.flatten) (next : ℕ) :
    ((selectionPlans next selections).flatMap fun p => Plan.siblingLists p.plans).eraseDups
      = blocks next selections.flatten := by
  suffices both : ∀ next, (∀ s ∈ (selectionPlans next selections).flatMap fun p =>
        Plan.siblingLists p.plans, s ∈ blocks next selections.flatten) ∧
      ((selectionPlans next selections).flatMap fun p => Plan.siblingLists p.plans).eraseDups
        = blocks next selections.flatten from (both next).2
  -- disjointness of the trees needs to know that they list no other than their own blocks
  clear next
  induction selections with
  | nil => intro next; exact ⟨fun s hs => by simp [selectionPlans] at hs, rfl⟩
  | cons ps rest ih =>
    intro next
    have hps : AllFound ps := fun p hp => h p (List.mem_append_left _ hp)
    have hrest : AllFound rest.flatten := fun p hp => h p (List.mem_append_right _ hp)
    obtain ⟨hmem, hdups⟩ := ih hrest (next + (ps.flatMap LevelPlan.candidates).length)
    have hnodup := nodup_blocks h next
    rw [List.flatten_cons, blocks_append] at hnodup
    rw [selectionPlans, List.flatMap_append, flatMap_siblingLists_selectionPlan?, List.flatten_cons,
      blocks_append]
    have hfirst : ∀ s ∈ Plan.siblingLists (Plan.nest (blocks next ps)), s ∈ blocks next ps :=
      fun s hs => Plan.mem_of_mem_siblingLists_nest (block_spec hps next) hs
    constructor
    · intro s hs
      rcases List.mem_append.mp hs with hs | hs
      · exact List.mem_append_left _ (hfirst s hs)
      · exact List.mem_append_right _ (hmem s hs)
    · have hdisjoint := (List.nodup_append'.mp hnodup).2.2
      rw [eraseDups_append_of_disjoint fun s hs hs' => hdisjoint (hfirst s hs) (hmem s hs'), hdups,
        Plan.eraseDups_siblingLists_nest (block_spec hps next) (nodup_blocks hps next)]

/-- A partition of the candidates into the alternatives of the levels: consecutive blocks, none
empty, each with candidates of one root entity. -/
structure IsLeveled (w : Workload) (sets : List (List ℕ)) : Prop where
  flatten_eq : sets.flatten = List.range w.candidates.length
  nonempty : ∀ ids ∈ sets, ids ≠ []
  root_eq : ∀ ids ∈ sets, ∀ c ∈ ids, ∀ d ∈ ids,
    (w.candidate c).key.root = (w.candidate d).key.root

namespace IsLeveled

variable {w : Workload} {sets : List (List ℕ)} (h : w.IsLeveled sets)
include h

/-- Every candidate is an alternative for some level. -/
theorem exists_mem {c : ℕ} (hc : c < w.candidates.length) : ∃ ids ∈ sets, c ∈ ids := by
  have hmem : c ∈ sets.flatten := by
    rw [h.flatten_eq]
    exact List.mem_range.mpr hc
  exact List.mem_flatten.mp hmem

/-- And for no other. -/
theorem existsUnique_mem {c : ℕ} (hc : c < w.candidates.length) :
    ∃! k : ℕ, ∃ ids, sets[k]? = some ids ∧ c ∈ ids := by
  obtain ⟨ids, hids, hmem⟩ := h.exists_mem hc
  obtain ⟨k, hk⟩ := List.mem_iff_getElem?.mp hids
  refine ⟨k, ⟨ids, hk, hmem⟩, ?_⟩
  rintro k' ⟨ids', hk', hmem'⟩
  -- a number in two sets would be listed twice
  have hnodup : sets.flatten.Nodup := by
    rw [h.flatten_eq]
    exact List.nodup_range
  have hdisjoint := List.pairwise_iff_getElem.mp (List.nodup_flatten.mp hnodup).2
  obtain ⟨hlt, rfl⟩ := List.getElem?_eq_some_iff.mp hk
  obtain ⟨hlt', rfl⟩ := List.getElem?_eq_some_iff.mp hk'
  rcases Nat.lt_trichotomy k' k with hlt₁ | heq | hlt₁
  · exact absurd hmem (hdisjoint k' k hlt' hlt hlt₁ hmem')
  · exact heq
  · exact absurd hmem' (hdisjoint k k' hlt hlt' hlt₁ hmem)

theorem lt_of_mem {ids : List ℕ} (hids : ids ∈ sets) {c : ℕ} (hc : c ∈ ids) :
    c < w.candidates.length := by
  rw [← List.mem_range, ← h.flatten_eq]
  exact List.mem_flatten.mpr ⟨ids, hids, hc⟩

/-- Without candidates there is no level. -/
theorem eq_nil (hempty : w.isEmpty = true) : sets = [] := by
  rw [isEmpty, List.isEmpty_iff] at hempty
  refine List.eq_nil_iff_forall_not_mem.mpr fun ids hids => ?_
  obtain ⟨c, hc⟩ := List.exists_mem_of_ne_nil ids (h.nonempty ids hids)
  have hlt := h.lt_of_mem hids hc
  rw [hempty] at hlt
  exact absurd hlt (Nat.not_lt_zero c)

/-- The alternatives of a level are listed in ascending order. -/
theorem pairwise_lt {ids : List ℕ} (hids : ids ∈ sets) : ids.Pairwise (· < ·) := by
  have hsub := List.sublist_flatten_of_mem hids
  rw [h.flatten_eq] at hsub
  exact List.pairwise_lt_range.sublist hsub

/-- No level has more alternatives than there are candidates. -/
theorem length_le {ids : List ℕ} (hids : ids ∈ sets) : ids.length ≤ w.candidates.length := by
  rw [← List.length_range (n := w.candidates.length), ← h.flatten_eq]
  exact (List.sublist_flatten_of_mem hids).length_le

end IsLeveled

end Workload

/-! ### The planned levels of a search -/

namespace Model

variable {α : Type} (m : Model α)

variable {m} in
/-- What the blocks hold, wherever the counting starts: consecutive numbers, of the candidates that
answer the level. -/
theorem forall₂_blocks {R : Level → LevelPlan → Prop} (hR : ∀ l p, R l p → m.Answers l p)
    {w : Workload} {levels : List Level} {ps : List LevelPlan} (h : List.Forall₂ R levels ps) :
    ∀ pre post : List Candidate,
      w.candidates = pre ++ (ps.flatMap LevelPlan.candidates ++ post) →
      List.Forall₂
        (fun l ids => (∃ next, ids = List.range' next ids.length) ∧
          R l (.tables l (ids.map w.candidate)))
        (levels.filter fun l => !m.bindsIdentifier l.clause) (Workload.blocks pre.length ps) := by
  induction h with
  | nil => exact fun _ _ _ => .nil
  | @cons l p _ _ hl _ ih =>
    intro pre post hw
    have hanswer := hR l p hl
    cases hanswer with
    | lookup binds =>
      rw [List.filter_cons_of_neg (by simp [binds])]
      exact ih pre post hw
    | @tables cs binds nonempty sublist =>
      rw [List.flatMap_cons, LevelPlan.candidates, List.append_assoc] at hw
      rw [List.filter_cons_of_pos (by simp [binds]), Workload.blocks]
      refine .cons ⟨⟨pre.length, by rw [List.length_range']⟩, ?_⟩ ?_
      · rwa [Workload.map_candidate_range' hw]
      · have ih := ih (pre ++ cs) post (hw.trans (List.append_assoc _ _ _).symm)
        rwa [List.length_append] at ih

variable {m}

/-- The answers of a search have the tables they need. -/
theorem allFound_of_answers {levels : List Level} {ps : List LevelPlan}
    (h : List.Forall₂ m.Answers levels ps) : Workload.AllFound ps := by
  induction h with
  | nil => intro p hp; simp at hp
  | cons hl _ ih =>
    intro p hp hplanned
    rcases List.mem_cons.mp hp with rfl | hp
    · cases hl with
      | lookup binds => simp [LevelPlan.isPlanned] at hplanned
      | tables binds nonempty sublist => exact nonempty
    · exact ih p hp hplanned

variable [Scalar α]

variable (m) in
/-- The candidates that a search found for each planned level, by number. -/
def levelSets (rowScanCost : α) (prune : Bool) (memo : Memo α) : List (List ℕ) :=
  match m.levelPlans rowScanCost prune memo with
  | .error _ => []
  | .ok ps => Workload.blocks 0 ps.flatten

section Found

variable {rowScanCost : α} {prune : Bool} {memo : Memo α} {w : Workload}
  (h : (m.search rowScanCost prune memo).1 = .ok w)
include h

/-- **The sibling sets of a searched workload are the candidates of the planned levels**, in the
order of the levels. -/
theorem siblingSets_eq_levelSets : w.siblingSets = m.levelSets rowScanCost prune memo := by
  obtain ⟨ps, hps, rfl⟩ := exists_levelPlans h
  rw [levelSets, hps]
  exact Workload.eraseDups_selectionPlans (allFound_of_answers (forall₂_answers hps)) 0

/-- What holds of every answered level holds of the candidates of each planned level. -/
theorem forall₂_levelSets_of {R : Level → LevelPlan → Prop} (hR : ∀ l p, R l p → m.Answers l p)
    (hlevel : ∀ l p memo, (m.planLevel rowScanCost prune l memo).1 = .ok p → R l p) :
    List.Forall₂
      (fun l ids => (∃ next, ids = List.range' next ids.length) ∧
        R l (.tables l (ids.map w.candidate)))
      m.plannedLevels (m.levelSets rowScanCost prune memo) := by
  obtain ⟨ps, hps, rfl⟩ := exists_levelPlans h
  rw [levelSets, hps]
  exact forall₂_blocks hR (List.rel_flatten (forall₂_of_levelPlans hps hlevel)) [] []
    (List.append_nil _).symm

/-- What the candidates of each planned level are. -/
theorem forall₂_levelSets :
    List.Forall₂ (fun l ids => ids ≠ [] ∧ (ids.map w.candidate).Sublist (m.candidates l))
      m.plannedLevels (m.levelSets rowScanCost prune memo) := by
  refine (forall₂_levelSets_of h (fun _ _ => id) fun _ _ _ => answers_of_planLevel).imp ?_
  rintro l ids ⟨-, hanswer⟩
  cases hanswer with
  | tables binds nonempty sublist => exact ⟨by simpa using nonempty, sublist⟩

/-- There is one set for each planned level. -/
theorem length_levelSets :
    (m.levelSets rowScanCost prune memo).length = m.plannedLevels.length :=
  (forall₂_levelSets h).length_eq.symm

/-- The candidates of the planned levels partition all candidates. -/
theorem isLeveled_levelSets : w.IsLeveled (m.levelSets rowScanCost prune memo) where
  flatten_eq := by
    obtain ⟨ps, hps, rfl⟩ := exists_levelPlans h
    rw [levelSets, hps, List.range_eq_range']
    exact Workload.flatten_blocks 0 ps.flatten
  nonempty := by
    intro ids hids
    obtain ⟨l, -, hne, -⟩ := exists_left_of_forall₂ (forall₂_levelSets h) hids
    exact hne
  root_eq := by
    intro ids hids c hc d hd
    obtain ⟨l, -, -, hsub⟩ := exists_left_of_forall₂ (forall₂_levelSets h) hids
    rw [root_of_mem_candidates (hsub.subset (List.mem_map_of_mem hc)),
      root_of_mem_candidates (hsub.subset (List.mem_map_of_mem hd))]

theorem isLeveled_siblingSets : w.IsLeveled w.siblingSets := by
  rw [siblingSets_eq_levelSets h]
  exact isLeveled_levelSets h

/-- Every candidate was found for some level. -/
theorem exists_level_of_lt {c : ℕ} (hc : c < w.candidates.length) :
    ∃ l ∈ m.levels, w.candidate c ∈ m.candidates l := by
  obtain ⟨ids, hids, hmem⟩ := (isLeveled_levelSets h).exists_mem hc
  obtain ⟨l, hl, -, hsub⟩ := exists_left_of_forall₂ (forall₂_levelSets h) hids
  exact ⟨l, List.mem_of_mem_filter hl, hsub.subset (List.mem_map_of_mem hmem)⟩

end Found

/-! ### Searches without pruning -/

variable {rowScanCost : α} {memo : Memo α} {w : Workload}

/-- Without pruning a level keeps all its candidates. -/
theorem candidates_of_planLevel {l : Level} {p : LevelPlan}
    (h : (m.planLevel rowScanCost false l memo).1 = .ok p) (hplanned : p.isPlanned = true) :
    p.candidates = m.candidates l := by
  rw [planLevel] at h
  split_ifs at h with hbinds
  · obtain rfl := Except.ok.inj h
    exact absurd hplanned Bool.false_ne_true
  · dsimp only at h
    split at h
    · exact absurd h (by simp)
    · split_ifs at h with hempty
      obtain rfl := Except.ok.inj h
      rfl

/-- Without pruning the candidates of each planned level are all there are. -/
theorem forall₂_levelSets_unpruned (hw : (m.search rowScanCost false memo).1 = .ok w) :
    List.Forall₂ (fun l ids => ids.map w.candidate = m.candidates l)
      m.plannedLevels (m.levelSets rowScanCost false memo) := by
  have hlevel : ∀ l p memo, (m.planLevel rowScanCost false l memo).1 = .ok p →
      m.Answers l p ∧ (p.isPlanned = true → p.candidates = m.candidates l) :=
    fun l p memo hp => ⟨answers_of_planLevel hp, candidates_of_planLevel hp⟩
  exact (forall₂_levelSets_of hw (fun l p h => h.1) hlevel).imp fun l ids h => h.2.2 rfl

end Model

/-- One list of threads, the authors in it, and the authors with a name, for which there are two
candidates. -/
theorem Forum.siblingSets_eq : workload.siblingSets = [[0], [1], [2, 3]] := by
  have hw : (model.search (.finite 1) false {}).1 = .ok workload := rfl
  exact (Model.siblingSets_eq_levelSets hw).trans rfl

end Keyspace
