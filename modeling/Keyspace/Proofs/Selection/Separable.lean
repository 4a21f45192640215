import Keyspace.Proofs.Selection.Readers

/-!
# Least costs level by level

Levels have no candidates in common, and tables cost nothing in the first phase.  So if insertions
may touch any number of tables, each level takes its cheapest candidate on its own account, and the
least cost of a plan is the sum of the least costs of the levels (`Model.costFloor`).  The bounds on
insertions are all that couples the levels: with them the least cost is that sum exactly if some
choice of a cheapest candidate for every level keeps within the bounds
(`Model.phase1Cost_eq_costFloor_iff`).
-/

namespace Keyspace

open Tables Formulation
open Exact (finite)

/-! ### The least cost of a level -/

/-- The least cost of some candidates. -/
def leastCost (costs : List ℚ) (ids : List ℕ) : ℚ :=
  (ids.map fun c => costs.getD c 0).min?.getD 0

theorem isLeast_leastCost {ids : List ℕ} (hne : ids ≠ []) (costs : List ℚ) :
    IsLeast {q | ∃ c ∈ ids, costs.getD c 0 = q} (leastCost costs ids) := by
  obtain ⟨q, hq⟩ := Option.ne_none_iff_exists'.mp
    (mt List.min?_eq_none_iff.mp (mt List.map_eq_nil_iff.mp hne) :
      (ids.map fun c => costs.getD c 0).min? ≠ none)
  rw [leastCost, hq, Option.getD_some]
  obtain ⟨hmem, hleast⟩ := List.min?_eq_some_iff.mp hq
  refine ⟨List.mem_map.mp hmem, ?_⟩
  rintro _ ⟨c, hc, rfl⟩
  exact hleast _ (List.mem_map_of_mem hc)

namespace Model

variable (m : Model Exact) (w : Workload) (costs : List ℚ)

/-- What a level costs at least: its cheapest candidate as often as its query runs. -/
def levelFloor (l : Level) (ids : List ℕ) : ℚ :=
  (m.query l.query).serviceLevel.throughput * leastCost costs ids

/-- What the planned levels cost at least if each is taken by itself. -/
def costFloor (sets : List (List ℕ)) : ℚ :=
  (List.zipWith (m.levelFloor costs) m.plannedLevels sets).sum

/-- The candidate is among the alternatives, none of which has a lower weighted cost. -/
def IsLightest (c : ℕ) (ids : List ℕ) : Prop :=
  c ∈ ids ∧ ∀ d ∈ ids, m.weight w costs c ≤ m.weight w costs d

variable {m w costs}

/-- The candidates of a level have the throughput of its query in common, so the cheapest one has
the least weighted cost. -/
theorem isLeast_levelFloor {l : Level} {ids : List ℕ} (hne : ids ≠ [])
    (hsub : (ids.map w.candidate).Sublist (m.candidates l)) :
    IsLeast {q | ∃ c ∈ ids, m.weight w costs c = q} (m.levelFloor costs l ids) := by
  have hweight : ∀ c ∈ ids, m.weight w costs c
      = (m.query l.query).serviceLevel.throughput * costs.getD c 0 := by
    intro c hc
    rw [weight, query_of_mem_candidates (hsub.subset (List.mem_map_of_mem hc)), mul_comm]
  obtain ⟨⟨c, hc, hcost⟩, hleast⟩ := isLeast_leastCost hne costs
  refine ⟨⟨c, hc, by rw [hweight c hc, hcost, levelFloor]⟩, ?_⟩
  rintro _ ⟨d, hd, rfl⟩
  rw [hweight d hd, levelFloor]
  exact mul_le_mul_of_nonneg_left (hleast ⟨d, hd, rfl⟩) (Nat.cast_nonneg _)

/-! ### Sums over the levels -/

/-- The alternatives of the levels with the least weighted costs among them. -/
theorem forall₂_levelFloor {rowScanCost : Exact} {prune : Bool} {memo : Memo Exact}
    (hw : (m.search rowScanCost prune memo).1 = .ok w) (costs : List ℚ) :
    List.Forall₂ (fun ids floor => IsLeast {q | ∃ c ∈ ids, m.weight w costs c = q} floor)
      (m.levelSets rowScanCost prune memo)
      (List.zipWith (m.levelFloor costs) m.plannedLevels
        (m.levelSets rowScanCost prune memo)) :=
  forall₂_zipWith (forall₂_levelSets hw) fun _ _ hlevel => isLeast_levelFloor hlevel.1 hlevel.2

variable {sets : List (List ℕ)} {floors : List ℚ}
  (h : List.Forall₂ (fun ids floor => IsLeast {q | ∃ c ∈ ids, m.weight w costs c = q} floor)
    sets floors)
include h

/-- No choice costs less than the least weighted costs add up to, and one costs no more exactly if
it takes a lightest alternative everywhere. -/
theorem sum_floors_le_planCost {choice : List ℕ} (hchoice : List.Forall₂ (· ∈ ·) choice sets) :
    floors.sum ≤ m.planCost w costs choice ∧
      (m.planCost w costs choice = floors.sum ↔
        List.Forall₂ (m.IsLightest w costs) choice sets) := by
  induction h generalizing choice with
  | nil =>
    cases hchoice
    exact ⟨le_rfl, iff_of_true rfl .nil⟩
  | @cons ids floor _ floors hfloor _ ih =>
    cases hchoice with
    | @cons c _ choice _ hc hchoice =>
      obtain ⟨hle, heq⟩ := ih hchoice
      have hfirst : floor ≤ m.weight w costs c := hfloor.2 ⟨c, hc, rfl⟩
      have hsum : m.planCost w costs (c :: choice)
          = m.weight w costs c + m.planCost w costs choice := List.sum_cons
      have hlightest : m.weight w costs c = floor ↔ m.IsLightest w costs c ids := by
        constructor
        · exact fun heq => ⟨hc, fun d hd => heq.trans_le (hfloor.2 ⟨d, hd, rfl⟩)⟩
        · rintro ⟨-, hleast⟩
          obtain ⟨d, hd, hd'⟩ := hfloor.1
          exact le_antisymm (hd' ▸ hleast d hd) hfirst
      rw [hsum, List.sum_cons, List.forall₂_cons, ← hlightest, ← heq]
      refine ⟨add_le_add hfirst hle, fun htotal => ?_, fun ⟨h₁, h₂⟩ => by rw [h₁, h₂]⟩
      -- neither part can make up for the other
      constructor <;> linarith

theorem exists_forall₂_isLightest :
    ∃ choice, List.Forall₂ (m.IsLightest w costs) choice sets := by
  induction h with
  | nil => exact ⟨[], .nil⟩
  | cons hfloor _ ih =>
    obtain ⟨choice, hchoice⟩ := ih
    obtain ⟨c, hc, hweight⟩ := hfloor.1
    exact ⟨c :: choice, .cons ⟨hc, fun d hd => hweight.trans_le (hfloor.2 ⟨d, hd, rfl⟩)⟩ hchoice⟩

end Model

/-! ### Plans on the tables of their candidates -/

/-- The tables that some candidates are read from. -/
def Workload.homesOf (w : Workload) (choice : List ℕ) : Finset ℕ :=
  (choice.map (collapse w.candidates).home).toFinset

section Homes

variable {α : Type} {m : Model α} {w : Workload} {sets : List (List ℕ)} {choice : List ℕ}

/-- A choice is that of a plan if insertions allow for the tables it is read from. -/
theorem Model.isPlan_homesOf (hw : w.IsLeveled sets) (hchoice : List.Forall₂ (· ∈ ·) choice sets)
    (hfanout : ∀ mu ∈ m.mutations, mu.kind = .insert →
      (w.chosenAt (w.homesOf choice) mu.entity).card ≤ mu.maxTables) :
    m.IsPlan w sets (w.homesOf choice) choice := by
  refine ⟨fun t ht => ?_, hchoice, fun c hc => ?_, hfanout⟩
  · obtain ⟨c, hc, rfl⟩ := List.mem_map.mp (List.mem_toFinset.mp ht)
    exact home_lt_size (lt_of_forall₂ hw hchoice hc)
  · exact List.mem_toFinset.mpr (List.mem_map_of_mem hc)

/-- And only then: a plan builds these tables at least. -/
theorem Model.IsPlan.card_homesOf_le {T : Finset ℕ} (h : m.IsPlan w sets T choice) {mu : Mutation}
    (hmu : mu ∈ m.mutations) (hins : mu.kind = .insert) :
    (w.chosenAt (w.homesOf choice) mu.entity).card ≤ mu.maxTables := by
  have hsub : w.homesOf choice ⊆ T := by
    intro t ht
    obtain ⟨c, hc, rfl⟩ := List.mem_map.mp (List.mem_toFinset.mp ht)
    exact h.built c hc
  exact (Finset.card_le_card (Finset.filter_subset_filter _ hsub)).trans (h.fanout mu hmu hins)

end Homes

/-! ### The first phase -/

section Select

variable {σ : Type} {m : Model Exact} {rowScanCost : Exact} {prune : Bool} {memo : Memo Exact}
  {w : Workload}

/-- **The cost of the first phase is separable** but for the bounds on insertions.  With an exact
solver it is never below the sum of the least costs of the levels, and it is that sum exactly if
there is a lightest candidate for every level such that insertions allow for the tables of all of
them; in particular if there are no insertions. -/
theorem Model.phase1Cost_eq_costFloor_iff (hw : (m.search rowScanCost prune memo).1 = .ok w)
    (hne : w.isEmpty = false) {costs : List ℚ} (hcosts : ∀ q ∈ costs, 0 ≤ q)
    {costMargin tolerance : Exact} {solver : Solver σ Exact} (hexact : solver.IsExact) {state : σ}
    {o : Outcome Exact}
    (ho : (m.select w (costs.map finite) costMargin tolerance solver state).1 = .ok o) :
    ∃ cost, o.phase1Cost = finite cost ∧
      m.costFloor costs (m.levelSets rowScanCost prune memo) ≤ cost ∧
      (cost = m.costFloor costs (m.levelSets rowScanCost prune memo) ↔
        ∃ choice,
          List.Forall₂ (m.IsLightest w costs) choice (m.levelSets rowScanCost prune memo) ∧
          ∀ mu ∈ m.mutations, mu.kind = .insert →
            (w.chosenAt (w.homesOf choice) mu.entity).card ≤ mu.maxTables) ∧
      ((∀ mu ∈ m.mutations, mu.kind ≠ .insert) →
        cost = m.costFloor costs (m.levelSets rowScanCost prune memo)) := by
  have hlevels := isLeveled_levelSets hw
  have hfloors := forall₂_levelFloor hw costs
  have hnames := names_ne_nil (m := m) hne (costs.map finite)
  obtain ⟨phase1, phase2, hs₁, -, -, -, rfl⟩ := exists_answers_of_select_eq_ok hne ho
  have hleveled := isLeveled_siblingSets hw
  have hoptimal := hexact.isOptimal (isRational_formulate m w costs hleveled) hnames hs₁
  obtain ⟨_, U, -, -, hobjective, hleast⟩ := exists_least_of_isOptimal hleveled hcosts hoptimal
  rw [siblingSets_eq_levelSets hw] at hleast
  obtain ⟨⟨T, choice, hplan, hcost⟩, hlower⟩ := hleast
  obtain ⟨hfloor, heq⟩ := sum_floors_le_planCost hfloors hplan.chosen
  -- whoever takes lightest candidates within the bounds has a plan that costs the sum
  have hattained : ∀ choice',
      List.Forall₂ (m.IsLightest w costs) choice' (m.levelSets rowScanCost prune memo) →
      (∀ mu ∈ m.mutations, mu.kind = .insert →
        (w.chosenAt (w.homesOf choice') mu.entity).card ≤ mu.maxTables) →
      ∑ c ∈ U, m.weight w costs c
        = m.costFloor costs (m.levelSets rowScanCost prune memo) := by
    intro choice' hlightest hfanout
    have hmem : List.Forall₂ (· ∈ ·) choice' (m.levelSets rowScanCost prune memo) :=
      hlightest.imp fun _ _ h => h.1
    have hsum := (sum_floors_le_planCost hfloors hmem).2.mpr hlightest
    refine le_antisymm ?_ (hfloor.trans hcost.le)
    exact (hlower ⟨_, choice', isPlan_homesOf hlevels hmem hfanout, rfl⟩).trans hsum.le
  refine ⟨_, hobjective, hfloor.trans hcost.le, ⟨fun hsum => ?_, ?_⟩, fun hnone => ?_⟩
  · exact ⟨choice, heq.mp (hcost.trans hsum), fun mu hmu hins => hplan.card_homesOf_le hmu hins⟩
  · rintro ⟨choice', hlightest, hfanout⟩
    exact hattained choice' hlightest hfanout
  · obtain ⟨choice', hlightest⟩ := exists_forall₂_isLightest hfloors
    exact hattained choice' hlightest fun mu hmu hins => absurd hins (hnone mu hmu)

end Select

/-- A log read in two directions costs more than its levels by themselves: the lightest candidates
of the two levels are on different tables, and an append may touch only one. -/
theorem Model.phase1Cost_ne_costFloor_log :
    ∃ o cost, ((Log.model [.asc, .desc]).select (Log.workload [.asc, .desc])
        ([1, 5, 5, 1].map finite) (finite (3 / 2)) (finite (1 / 1000)) ExactSolver.enumerate {}).1
          = .ok o ∧
      o.phase1Cost = finite cost ∧ (Log.model [.asc, .desc]).costFloor [1, 5, 5, 1]
        ((Log.model [.asc, .desc]).levelSets (finite 1) false {}) < cost := by
  have hw : ((Log.model [.asc, .desc]).search (finite 1) false {}).1
      = .ok (Log.workload [.asc, .desc]) := rfl
  have hlevels : (Log.model [.asc, .desc]).levelSets (finite 1) false {} = [[0, 1], [2, 3]] := rfl
  have hok : ((Log.model [.asc, .desc]).select (Log.workload [.asc, .desc])
      ([1, 5, 5, 1].map finite) (finite (3 / 2)) (finite (1 / 1000)) ExactSolver.enumerate
      {}).1.isOk = true := by
    rw [Model.select, Model.formulate, Model.siblingSets_eq_levelSets hw, hlevels]
    decide +kernel
  obtain ⟨o, hselect⟩ := exists_eq_ok_of_isOk hok
  obtain ⟨cost, hcost, hle, hiff, -⟩ := Model.phase1Cost_eq_costFloor_iff hw rfl
    (by decide : ∀ q ∈ ([1, 5, 5, 1] : List ℚ), 0 ≤ q) isExact_enumerate hselect
  refine ⟨o, cost, hselect, hcost, lt_of_le_of_ne hle fun heq => ?_⟩
  obtain ⟨choice, hlightest, hfanout⟩ := hiff.mp heq.symm
  rw [hlevels] at hlightest
  -- of each pair the other candidate costs five times as much
  obtain ⟨c, rest, hc, hrest, rfl⟩ := List.forall₂_cons_right_iff.mp hlightest
  obtain ⟨d, rest, hd, hnil, rfl⟩ := List.forall₂_cons_right_iff.mp hrest
  obtain rfl := List.forall₂_nil_right_iff.mp hnil
  obtain rfl : c = 0 := by
    rcases List.mem_pair.mp hc.1 with rfl | rfl
    · rfl
    · exact absurd (hc.2 0 List.mem_cons_self) (by decide +kernel)
  obtain rfl : d = 3 := by
    rcases List.mem_pair.mp hd.1 with rfl | rfl
    · exact absurd (hd.2 3 (by decide)) (by decide +kernel)
    · rfl
  exact absurd (hfanout _ List.mem_cons_self rfl) (by decide +kernel)

end Keyspace
