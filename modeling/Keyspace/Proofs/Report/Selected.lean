import Keyspace.Proofs.Report.Accounts
import Keyspace.Proofs.Selection.Assignment

/-!
# Assigned tables are built

With answers of zeros and ones a tolerance below one is as good as none: the two sides of a
constraint are whole numbers, and such numbers are not one apart unless they differ by one
(`satisfies_zero_of_binary`).  So every planned level of a report has a table, and this table is
among those to be built (`Model.plan_selected`), however many variables the program has.

A tolerance of one is valid as well, and accepts that nothing is built
(`Log.exists_plan_unassigned`).
-/

namespace Keyspace

open Scalar Tables Formulation
open Exact (finite)

/-! ### Answers of zeros and ones -/

section Binary

variable {w : Workload} {qs : List ℚ} (hbin : ∀ q ∈ qs, q = 0 ∨ q = 1)
include hbin

/-- A sum of zeros and ones is a number of ones. -/
theorem exists_sum_eq_natCast (ids : List ℕ) (var : ℕ → ℕ) :
    ∃ n : ℕ, (ids.map fun i => qs.getD (var i) 0).sum = n := by
  have hnear := abs_sum_getD_sub_countP_le le_rfl (abs_sub_bitOf_of_binary hbin) ids var
  rw [mul_zero] at hnear
  exact ⟨_, sub_eq_zero.mp (abs_nonpos_iff.mp hnear)⟩

/-- A tolerance below one accepts no more zeros and ones than no tolerance. -/
theorem satisfies_zero_of_binary {m : Model Exact} {t : ℚ} (ht : t < 1) (h : m.Satisfies w t qs) :
    m.Satisfies w 0 qs := by
  -- what lacks less than one of one is one
  have hlower : ∀ (ids : List ℕ) (var : ℕ → ℕ),
      1 - t ≤ (ids.map fun i => qs.getD (var i) 0).sum →
        1 - 0 ≤ (ids.map fun i => qs.getD (var i) 0).sum := by
    intro ids var hsum
    obtain ⟨n, hn⟩ := exists_sum_eq_natCast hbin ids var
    rw [hn] at hsum ⊢
    have hpos : (0 : ℚ) < n := by linarith
    have hone : 1 ≤ n := Nat.cast_pos.mp hpos
    rw [sub_zero]
    exact_mod_cast hone
  refine ⟨fun c hc => ?_, fun s hs => hlower s _ (h.coverage s hs), fun mu hmu hins hne => ?_⟩
  · have hlink := h.linking c hc
    have hcandidate := getD_of_binary hbin (candidateVar (collapse w.candidates) c)
    have htable := getD_of_binary hbin (tableVar ((collapse w.candidates).home c))
    rcases hcandidate with hcandidate | hcandidate <;> rcases htable with htable | htable <;>
      rw [hcandidate, htable] at hlink ⊢ <;> linarith
  · obtain ⟨hmin, hmax⟩ := h.fanout mu hmu hins hne
    refine ⟨hlower _ _ hmin, ?_⟩
    obtain ⟨n, hn⟩ :=
      exists_sum_eq_natCast hbin ((collapse w.candidates).rootedAt mu.entity) tableVar
    rw [hn] at hmax ⊢
    have hlt : (n : ℚ) < (mu.maxTables + 1 : ℕ) := by
      push_cast
      linarith
    have hle : n ≤ mu.maxTables := Nat.lt_succ_iff.mp (Nat.cast_lt.mp hlt)
    rw [add_zero]
    exact_mod_cast hle

end Binary

/-- An answer of zeros and ones that verifies up to a tolerance below one reads as a selection. -/
theorem Model.exists_isSelection_of_binary {m : Model Exact} {w : Workload} {costs : List Exact}
    {t : ℚ} {values : List Exact} (hw : w.IsLeveled w.siblingSets) (ht : t < 1)
    (hbin : ∀ x ∈ values, x = finite 0 ∨ x = finite 1)
    (h : (m.formulate w costs).program.verify (finite t) values = .ok ()) :
    ∃ qs : List ℚ, values = qs.map finite ∧
      m.IsSelection w w.siblingSets (setTables w qs) (setCandidates w qs) := by
  obtain ⟨qs, rfl, hqs⟩ := exists_binary_eq hbin
  obtain ⟨-, -, hholds⟩ := (Program.verify_eq_ok_iff _ _ _).mp h
  have hsatisfies := (forall_holds_iff m w costs t qs).mp hholds
  exact ⟨qs, rfl, isSelection_of_binary hw hqs (satisfies_zero_of_binary hqs ht hsatisfies)⟩

/-! ### Tables in a report -/

section Report

variable {α : Type} [Scalar α] {m : Model α} {w : Workload} {costs : List α} {o : Outcome α}

/-- A table is described in a report as its key is. -/
theorem describe_ofTable (catalog : Catalog) (key : TableKey) (selected : Bool) :
    (Report.ofTable catalog key selected).describe = key.describe catalog := by
  simp only [TableReport.describe, Report.ofTable, TableKey.describe, PathSet.text, orderText,
    String.append_assoc]
  rfl

/-- If the table of a candidate is built, the report says so, under the text of the candidate. -/
theorem exists_tables_of_built (ho : o.tables = collapse w.candidates) {c : ℕ}
    (hc : c < w.candidates.length) (hbuilt : (collapse w.candidates).home c ∈ o.selectedTables) :
    ∃ t, (Report.build m w costs o).tables[(collapse w.candidates).home c]? = some t ∧
      t.selected = true ∧ t.describe = (w.candidate c).key.describe m.catalog := by
  have hlt : (collapse w.candidates).home c < (collapse w.candidates).tables.length :=
    home_lt_size hc
  have hkey := compare_key_home hc
  rw [table, List.getD_eq_getElem _ _ hlt, ← Workload.candidate_eq_getElem hc] at hkey
  have htable : (Report.build m w costs o).tables[(collapse w.candidates).home c]?
      = some (Report.ofTable m.catalog
          (collapse w.candidates).tables[(collapse w.candidates).home c].key
          (o.selectedTables.contains ((collapse w.candidates).home c))) := by
    rw [Report.build, Report.tablesOf, List.getElem?_mapIdx, ho, List.getElem?_eq_getElem hlt]
    rfl
  refine ⟨_, htable, List.contains_iff_mem.mpr hbuilt, ?_⟩
  rw [describe_ofTable, TableKey.describe_eq hkey]

end Report

/-! ### Plans -/

/-- A solver all of whose answers are zeros and ones. -/
def Solver.IsBinary {σ : Type} (solver : Solver σ Exact) : Prop :=
  ∀ p state s, (solver p state).1 = .ok s → ∀ x ∈ s.values, x = finite 0 ∨ x = finite 1

/-- **Below a tolerance of one every assigned table is built**, if the answers of the solver are
zeros and ones: each planned level has a table, which the report marks as selected. -/
theorem Model.plan_selected {σ : Type} {m : Model Exact} {s : Settings Exact}
    (hone : lt s.verifyTolerance one = true) {solver : Solver σ Exact} (hsolver : solver.IsBinary)
    {state : σ} {r : Report Exact} (h : (m.plan s solver state).1 = .ok r) :
    ∃ w costs choice,
      m.pricedWorkload s.rowScanCost s.pruneOverLatency = .ok (w, costs) ∧
      r.Accounts m w costs choice ∧
      ∀ c ∈ choice, ∃ t, r.tables[(collapse w.candidates).home c]? = some t ∧
        t.selected = true ∧ t.describe = (w.candidate c).key.describe m.catalog := by
  obtain ⟨hvalid, w, costs, o, hpriced, hselect, rfl⟩ := plan_eq_ok_iff.mp h
  have hw := search_of_pricedWorkload hpriced
  have hlevels := isLeveled_siblingSets hw
  cases hne : w.isEmpty with
  | true => exact ⟨w, costs, [], hpriced, accounts_of_isEmpty hw hne hselect, by simp⟩
  | false =>
    obtain ⟨t, -, htolerance⟩ :=
      (Settings.tolerance_of_validate hvalid).resolve_right fun hinf => by
        rw [hinf] at hone
        exact absurd hone Bool.false_ne_true
    rw [htolerance, Exact.one_eq, Exact.lt_finite, decide_eq_true_eq] at hone
    rw [htolerance] at hselect
    obtain ⟨phase1, phase2, -, hs₂, -, hv₂, rfl⟩ := exists_answers_of_select_eq_ok hne hselect
    obtain ⟨qs, hqs, hsel⟩ := exists_isSelection_of_binary hlevels hone (hsolver _ _ _ hs₂)
      (verify_of_countTables hv₂)
    obtain ⟨choice, haccounts, hcheapest⟩ := exists_accounts_of_serves hw hqs hsel.toServes
    refine ⟨w, costs, choice, hpriced, haccounts, fun c hc => ?_⟩
    obtain ⟨ids, hids, hused⟩ := exists_left_of_forall₂ hcheapest hc
    have hlt := hlevels.lt_of_mem hids hused.mem
    have hset := (mem_setCandidates_iff m costs hqs hlt).mpr hused.isSet
    exact exists_tables_of_built rfl hlt ((mem_builtTables m costs hqs).mpr (hsel.linked c hset))

/-- The report on a forum of which every table is built marks the tables it assigns. -/
theorem Model.plan_selected_forum :
    ∃ r choice, (Forum.model.plan Forum.settings Forum.allSet ()).1 = .ok r ∧
      r.Accounts Forum.model Forum.workload Forum.costs choice ∧
      ∀ c ∈ choice, ∃ t, r.tables[(collapse Forum.workload.candidates).home c]? = some t ∧
        t.selected = true := by
  have hbinary : Solver.IsBinary Forum.allSet := by
    intro p state s hs x hx
    obtain rfl := Except.ok.inj hs
    obtain ⟨_, -, rfl⟩ := List.mem_map.mp hx
    exact .inr rfl
  obtain ⟨r, hr⟩ := Forum.exists_plan_eq_ok
  obtain ⟨w, costs, choice, hpriced, haccounts, hselected⟩ :=
    Model.plan_selected (by decide +kernel) hbinary hr
  obtain ⟨rfl, rfl⟩ := Prod.mk.inj (Except.ok.inj (Forum.pricedWorkload_eq.symm.trans hpriced))
  refine ⟨r, choice, hr, haccounts, fun c hc => ?_⟩
  obtain ⟨t, ht, hmarked, -⟩ := hselected c hc
  exact ⟨t, ht, hmarked⟩

/-! ### A tolerance of one -/

namespace Log

/-- Settings with a tolerance that every sum of zeros meets. -/
def looseSettings : Settings Exact where
  rowScanCost := finite 1
  costMargin := finite 1
  verifyTolerance := finite 1
  pruneOverLatency := false

/-- A solver that sets no variable of any program. -/
def noneSet : Solver Unit Exact := .constant (finite 0) (finite 0)

/-- At a tolerance of one a valid plan may read from no table: nothing is built for the only level
of a log, and nothing is assigned to it. -/
theorem exists_plan_unassigned :
    looseSettings.validate = .ok () ∧ noneSet.IsBinary ∧
    ∃ r, ((model [.any]).plan looseSettings noneSet ()).1 = .ok r ∧
      (∃ l ∈ (model [.any]).plannedLevels, l.query = 0) ∧
      ∃ a, r.queries[0]? = some a ∧ a.indexes.length = 0 := by
  have hcount : ((model [.any]).plan looseSettings noneSet ()).1.toOption.map
      (fun r => r.queries[0]?.map fun a => a.indexes.length) = some (some 0) := by decide +kernel
  refine ⟨rfl, ?_, ?_⟩
  · intro p state s hs x hx
    obtain rfl := Except.ok.inj hs
    exact .inl (List.eq_of_mem_replicate hx)
  · obtain ⟨r, hplan, hread⟩ := exists_eq_ok_of_map hcount
    obtain ⟨a, ha, hlength⟩ := Option.map_eq_some_iff.mp hread
    exact ⟨r, hplan, ⟨_, List.mem_cons_self, rfl⟩, a, ha, hlength⟩

end Log

end Keyspace
