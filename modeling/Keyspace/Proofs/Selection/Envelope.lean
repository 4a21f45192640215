import Mathlib.Algebra.BigOperators.Ring.Finset
import Keyspace.Proofs.Planner
import Keyspace.Proofs.Scalar.Binary64
import Keyspace.Proofs.Scalar.Laws
import Keyspace.Proofs.Selection.Optimal

/-!
# The cost envelope

The second program asks for a cost within a margin of the objective of the first answer.  The
constraint is checked on the values as they are, and these may be off by the tolerance in either
direction, while the cost of a selection is that of whole candidates.

`Model.phase2Cost_le` bounds the cost of what is selected, whatever the solver does: noise adds the
tolerance for every candidate there is, and the check itself adds one tolerance.

`Model.reverifies` looks at the answer of the first phase as an answer to the second one.  Noise can
make its objective negative, and then the margin moves the limit away from it, so that the answer
itself may not pass (`Directory.not_reverifies`).  It passes whenever its objective is not negative,
which only needs that rounding keeps the order of numbers.  In exact arithmetic it passes as long as
the margin moves the limit by no more than the tolerance.
-/

namespace Keyspace

open Scalar Tables Formulation
open Exact (finite)

/-- The weighted cost of all candidates together. -/
def Model.totalWeight (m : Model Exact) (w : Workload) (costs : List ℚ) : ℚ :=
  ∑ c ∈ Finset.range w.candidates.length, m.weight w costs c

/-! ### Costs under noise -/

section Noise

variable {m : Model Exact} {w : Workload} {costs qs : List ℚ} {d : ℚ}
  (hcosts : ∀ q ∈ costs, 0 ≤ q) (hd : 0 ≤ d)
include hcosts hd

/-- Reading values as bits raises the cost by no more than the noise on every candidate. -/
theorem sum_weight_setCandidates_le (near : ∀ q ∈ qs, |q - bitOf q| ≤ d) :
    ∑ c ∈ setCandidates w qs, m.weight w costs c
      ≤ (∑ c ∈ Finset.range w.candidates.length,
          m.weight w costs c * qs.getD (candidateVar (collapse w.candidates) c) 0)
        + d * m.totalWeight w costs := by
  rw [setCandidates, Finset.sum_filter, Model.totalWeight, Finset.mul_sum,
    ← Finset.sum_add_distrib]
  refine Finset.sum_le_sum fun c _ => ?_
  have hbit := abs_le.mp (abs_getD_sub_bitOf_le hd near (candidateVar (collapse w.candidates) c))
  calc (if 1 / 2 < qs.getD (candidateVar (collapse w.candidates) c) 0
        then m.weight w costs c else 0)
      = m.weight w costs c * bitOf (qs.getD (candidateVar (collapse w.candidates) c) 0) := by
        rw [bitOf, mul_ite, mul_one, mul_zero]
    _ ≤ m.weight w costs c * (qs.getD (candidateVar (collapse w.candidates) c) 0 + d) :=
        mul_le_mul_of_nonneg_left (by linarith [hbit.1]) (weight_nonneg hcosts c)
    _ = _ := by ring

/-- Values that are hardly negative cost hardly less than nothing. -/
theorem neg_mul_totalWeight_le (hqs : ∀ q ∈ qs, -d ≤ q) :
    -(d * m.totalWeight w costs) ≤ ∑ c ∈ Finset.range w.candidates.length,
      m.weight w costs c * qs.getD (candidateVar (collapse w.candidates) c) 0 := by
  rw [Model.totalWeight, Finset.mul_sum, ← Finset.sum_neg_distrib]
  refine Finset.sum_le_sum fun c _ => ?_
  have hq : -d ≤ qs.getD (candidateVar (collapse w.candidates) c) 0 :=
    Exact.getD_of_forall_mem (neg_nonpos.mpr hd) hqs _
  linarith [mul_le_mul_of_nonneg_left hq (weight_nonneg (m := m) (w := w) hcosts c)]

end Noise

/-! ### The cost of a selection -/

section Reported

variable (m : Model Exact) {w : Workload} (costs : List ℚ) {qs : List ℚ} {s : Solution Exact}
  (hw : w.IsLeveled w.siblingSets) (hs : s.values = qs.map finite)
include hw hs

/-- Only set candidates are selected. -/
theorem forall_mem_setCandidates :
    ∀ c ∈ ((m.formulate w (costs.map finite)).usedCandidates w (costs.map finite) s).toList,
      c ∈ setCandidates w qs := by
  intro c hc
  obtain ⟨ids, hids, hcheapest⟩ := List.mem_filterMap.mp (SortedSet.mem_toList_ofList.mp hc)
  obtain ⟨hmem, hset⟩ := cheapestUsed?_eq_some _ _ s hcheapest
  exact (mem_setCandidates_iff m _ hs (hw.lt_of_mem hids hmem)).mpr hset

/-- The selected candidates are within the limit of an answer, up to the noise of its values. -/
theorem weightedCost_usedCandidates_le (hcosts : ∀ q ∈ costs, 0 ≤ q) {d t : ℚ} (hd : 0 ≤ d)
    (near : ∀ q ∈ qs, |q - bitOf q| ≤ d) {limit : Exact}
    (hlimit : le ((m.formulate w (costs.map finite)).costTerms.eval s.values) (limit + finite t)
      = true) :
    le ((m.formulate w (costs.map finite)).weightedCost
        ((m.formulate w (costs.map finite)).usedCandidates w (costs.map finite) s).toList)
      (limit + finite (t + d * m.totalWeight w costs)) = true := by
  have hset := forall_mem_setCandidates m costs hw hs
  rw [hs, eval_costTerms] at hlimit
  rw [weightedCost_eq m costs fun c hc =>
    Finset.mem_range.mp (Finset.mem_filter.mp (hset c hc)).1]
  refine Exact.le_add_finite_of_le hlimit ?_
  exact (planCost_le_of_nodup hcosts (SortedSet.nodup_toList _) hset).trans
    (sum_weight_setCandidates_le hcosts hd near)

end Reported

section Select

variable {σ : Type} {m : Model Exact} {rowScanCost : Exact} {prune : Bool} {memo : Memo Exact}
  {w : Workload}

/-- A workload without candidates costs nothing. -/
theorem Model.outcome_of_isEmpty (hne : w.isEmpty = true) {costs : List Exact}
    {costMargin tolerance : Exact} {solver : Solver σ Exact} {state : σ} {o : Outcome Exact}
    (h : (m.select w costs costMargin tolerance solver state).1 = .ok o) :
    o.phase1Cost = finite 0 ∧ o.phase2Cost = finite 0 := by
  rw [select, if_pos hne] at h
  obtain rfl := Except.ok.inj h
  exact ⟨rfl, rfl⟩

/-- **The cost of a selection is within the margin, up to noise**, whatever the solver does: above
the margin there is the tolerance once for the check and once for all candidates together, and only
the former if the values of the second answer are zeros and ones. -/
theorem Model.phase2Cost_le (hw : (m.search rowScanCost prune memo).1 = .ok w) {costs : List ℚ}
    (hcosts : ∀ q ∈ costs, 0 ≤ q) {costMargin t : ℚ} (ht : 0 < t) (hhalf : t < 1 / 2)
    {solver : Solver σ Exact} {state : σ} {o : Outcome Exact}
    (h : (m.select w (costs.map finite) (finite costMargin) (finite t) solver state).1 = .ok o) :
    le o.phase2Cost
      (o.phase1Cost * finite costMargin + finite (t + t * m.totalWeight w costs)) = true ∧
    ∀ s₁ s₂, (solver (m.formulate w (costs.map finite)).program state).1 = .ok s₁ →
      (solver ((m.formulate w (costs.map finite)).countTables (s₁.objective * finite costMargin))
        (solver (m.formulate w (costs.map finite)).program state).2).1 = .ok s₂ →
      (∀ x ∈ s₂.values, x = finite 0 ∨ x = finite 1) →
      le o.phase2Cost (o.phase1Cost * finite costMargin + finite t) = true := by
  have hlevels := isLeveled_siblingSets hw
  cases hne : w.isEmpty with
  | true =>
    obtain ⟨h₁, h₂⟩ := outcome_of_isEmpty hne h
    have htotal : 0 ≤ m.totalWeight w costs := Finset.sum_nonneg fun c _ => weight_nonneg hcosts c
    simp only [h₁, h₂, Exact.finite_mul_finite, zero_mul, Exact.finite_add_finite, zero_add,
      Exact.le_finite, decide_eq_true_eq]
    exact ⟨by positivity, fun _ _ _ _ _ => ht.le⟩
  | false =>
    obtain ⟨phase1, phase2, hs₁, hs₂, -, hv₂, rfl⟩ := exists_answers_of_select_eq_ok hne h
    obtain ⟨hv, hlimit⟩ := verify_countTables_iff.mp hv₂
    constructor
    · obtain ⟨qs, hqs⟩ := Exact.exists_eq_map_finite
        (Program.isFinite_of_verify hv fun v => exists_term_eq m w (costs.map finite))
      refine weightedCost_usedCandidates_le m costs hlevels hqs hcosts ht.le (fun q hq => ?_) hlimit
      refine abs_sub_bitOf_le hhalf (((Program.verify_eq_ok_iff _ _ _).mp hv).2.1 _ ?_)
      exact hqs ▸ List.mem_map_of_mem hq
    · -- zeros and ones are without noise
      intro s₁ s₂ hs₁' hs₂' hbinary
      obtain rfl := Except.ok.inj (hs₁.symm.trans hs₁')
      obtain rfl := Except.ok.inj (hs₂.symm.trans hs₂')
      obtain ⟨qs, hqs, hbits⟩ := exists_binary_eq hbinary
      have hle := weightedCost_usedCandidates_le m costs hlevels hqs hcosts le_rfl
        (abs_sub_bitOf_of_binary hbits) hlimit
      rwa [zero_mul, add_zero] at hle

end Select

/-- All candidates for a forum are set, and of the two for the names of authors the cheaper one is
selected.  With all values at three quarters the selection costs more than margin and tolerance
allow without noise; with ones it does not. -/
theorem Model.phase2Cost_le_forum :
    (∃ o, (Forum.model.select Forum.workload ([1, 1, 2, 1].map finite) (finite 1) (finite (1 / 4))
        (.constant (finite (3 / 4)) (finite (13 / 2))) ()).1 = .ok o ∧
      o.selectedCandidates.toList = [0, 1, 3] ∧
      le o.phase2Cost (o.phase1Cost * finite 1 + finite (1 / 4)) = false ∧
      le o.phase2Cost (o.phase1Cost * finite 1
        + finite (1 / 4 + 1 / 4 * Forum.model.totalWeight Forum.workload [1, 1, 2, 1])) = true) ∧
    ∃ o, (Forum.model.select Forum.workload ([1, 1, 2, 1].map finite) (finite 1) (finite (1 / 4))
        (.constant (finite 1) (finite 9)) ()).1 = .ok o ∧
      le o.phase2Cost (o.phase1Cost * finite 1 + finite (1 / 4)) = true := by
  have hw : (Forum.model.search (finite 1) false {}).1 = .ok Forum.workload := rfl
  have hcosts : ∀ q ∈ ([1, 1, 2, 1] : List ℚ), 0 ≤ q := by decide
  constructor
  · have hread : (Forum.model.select Forum.workload ([1, 1, 2, 1].map finite) (finite 1)
        (finite (1 / 4)) (.constant (finite (3 / 4)) (finite (13 / 2))) ()).1.toOption.map
          (fun o => (o.selectedCandidates.toList, o.phase1Cost, o.phase2Cost))
        = some ([0, 1, 3], finite (13 / 2), finite 7) := by
      rw [Model.select, Model.formulate]
      simp only [outcome, usedCandidates, Forum.siblingSets_eq]
      decide +kernel
    obtain ⟨o, hselect, hread⟩ := exists_eq_ok_of_map hread
    obtain ⟨hselected, hcost₁, hcost₂⟩ : _ ∧ _ ∧ _ := by simpa only [Prod.mk.injEq] using hread
    refine ⟨o, hselect, hselected, ?_, ?_⟩
    · rw [hcost₁, hcost₂]
      decide +kernel
    · exact (Model.phase2Cost_le hw hcosts (by norm_num) (by norm_num) hselect).1
  · have hok : (Forum.model.select Forum.workload ([1, 1, 2, 1].map finite) (finite 1)
        (finite (1 / 4)) (.constant (finite 1) (finite 9)) ()).1.isOk = true := by
      rw [Model.select, Model.formulate, Forum.siblingSets_eq]
      decide +kernel
    obtain ⟨o, hselect⟩ := exists_eq_ok_of_isOk hok
    refine ⟨o, hselect, ?_⟩
    refine (Model.phase2Cost_le hw hcosts (by norm_num) (by norm_num) hselect).2 _ _ rfl rfl ?_
    exact fun x hx => .inr (List.eq_of_mem_replicate hx)

/-! ### The first answer as a second one -/

/-- Does an answer to the first program, with its value as the objective, pass the verification of
the second one? -/
def Formulation.Reverifies {α : Type} [Scalar α] (f : Formulation α) (s : Settings α)
    (values : List α) : Prop :=
  (f.countTables (f.program.evaluate values * s.costMargin)).verify s.verifyTolerance values
    = .ok ()

section Rounded

variable {α : Type} [Scalar α] {m : Model α} {w : Workload} {s : Settings α} {costs values : List α}

/-- Only the limit is new to an answer that has passed once. -/
theorem reverifies_iff
    (hv : (m.formulate w costs).program.verify s.verifyTolerance values = .ok ()) :
    (m.formulate w costs).Reverifies s values ↔
      le ((m.formulate w costs).program.evaluate values)
        ((m.formulate w costs).program.evaluate values * s.costMargin + s.verifyTolerance)
          = true :=
  verify_countTables_iff.trans (and_iff_right hv)

variable [KeepsOrder α]

/-- Without negative costs and values the objective is not negative, if it is a number. -/
theorem zero_le_evaluate (hcosts : ∀ cost ∈ costs, le zero cost = true)
    (hvalues : ∀ x ∈ values, le zero x = true)
    (hnumber : isNaN ((m.formulate w costs).program.evaluate values) = false) :
    le zero ((m.formulate w costs).program.evaluate values) = true := by
  have hzero : le zero (zero : α) = true := KeepsOrder.zero_le_ofNat 0
  refine zero_le_sum fun x hx => ?_
  -- a term or a weight that is not a number would spread to the objective
  have hproduct : isNaN x = false := isNaN_eq_false_of_mem_of_sum hnumber hx
  obtain ⟨term, hterm, rfl⟩ := List.mem_map.mp hx
  obtain ⟨c, -, rfl⟩ := List.mem_map.mp hterm
  refine KeepsOrder.zero_le_mul (KeepsOrder.zero_le_mul ?_ (KeepsOrder.zero_le_ofNat _) ?_) ?_
    hproduct
  · exact Exact.getD_of_forall_mem (P := fun cost => le zero cost = true) hzero hcosts c
  · exact isNaN_eq_false_of_mul hproduct
  · exact Exact.getD_of_forall_mem (P := fun x => le zero x = true) hzero hvalues _

/-- An objective that is not negative is within the limit that is made of it. -/
theorem reverifies_of_zero_le (hs : s.validate = .ok ())
    (hv : (m.formulate w costs).program.verify s.verifyTolerance values = .ok ())
    (hlimit : isNaN ((m.formulate w costs).program.evaluate values * s.costMargin) = false)
    (hnonneg : le zero ((m.formulate w costs).program.evaluate values) = true) :
    (m.formulate w costs).Reverifies s values := by
  obtain ⟨-, hmargin, htolerance⟩ := Settings.validate_eq_ok_iff.mp hs
  exact (reverifies_iff hv).mpr (le_mul_add hnonneg hmargin hlimit htolerance)

end Rounded

section Exactly

variable {m : Model Exact} {w : Workload} {s : Settings Exact} {values : List Exact}

/-- Over rationals, the margin may move the limit down by the tolerance. -/
theorem reverifies_iff_of_finite {costs : List Exact} {v margin t : ℚ}
    (hv : (m.formulate w costs).program.verify s.verifyTolerance values = .ok ())
    (hvalue : (m.formulate w costs).program.evaluate values = finite v)
    (hmargin : s.costMargin = finite margin) (ht : s.verifyTolerance = finite t) :
    (m.formulate w costs).Reverifies s values ↔ (margin - 1) * -v ≤ t := by
  rw [reverifies_iff hv, hvalue, hmargin, ht, Exact.finite_mul_finite, Exact.finite_add_finite,
    Exact.le_finite, decide_eq_true_eq]
  constructor <;> intro h <;> linarith

/-- The value of a verified answer is negative by no more than the noise on all candidates. -/
theorem exists_evaluate_eq {costs : List ℚ} (hcosts : ∀ q ∈ costs, 0 ≤ q) {t : ℚ} (ht : 0 < t)
    (hv : (m.formulate w (costs.map finite)).program.verify (finite t) values = .ok ()) :
    ∃ v : ℚ, (m.formulate w (costs.map finite)).program.evaluate values = finite v ∧
      -(t * m.totalWeight w costs) ≤ v ∧ ((∀ x ∈ values, le zero x = true) → 0 ≤ v) := by
  obtain ⟨qs, rfl⟩ := Exact.exists_eq_map_finite
    (Program.isFinite_of_verify hv fun v => exists_term_eq m w (costs.map finite))
  refine ⟨_, eval_costTerms m w costs qs, neg_mul_totalWeight_le hcosts ht.le fun q hq => ?_,
    fun hnonneg => ?_⟩
  · have hbinary := ((Program.verify_eq_ok_iff _ _ _).mp hv).2.1 _ (List.mem_map_of_mem hq)
    have hq : |q| ≤ t ∨ |q - 1| ≤ t := by simpa using isBinary_eq_true_iff.mp hbinary
    rcases hq with hq | hq
    · exact (abs_le.mp hq).1
    · linarith [(abs_le.mp hq).1]
  · -- without negative values there is no noise below zero
    have hqs : ∀ q ∈ qs, -0 ≤ q := by
      intro q hq
      have hle := hnonneg _ (List.mem_map_of_mem hq)
      rw [Exact.zero_eq, Exact.le_finite, decide_eq_true_eq] at hle
      rwa [neg_zero]
    have hzero := neg_mul_totalWeight_le (m := m) (w := w) hcosts le_rfl hqs
    rwa [zero_mul, neg_zero] at hzero

end Exactly

/-- **When the answer of the first phase passes as one of the second.**  Exactly if its objective is
within the limit that is made of it, as the scalars compute it; in any arithmetic that keeps the
order of numbers, such as that of doubles, this is so if the objective is not negative, and so if
neither costs nor values are.

In exact arithmetic it is so exactly if the margin lowers the limit by no more than the tolerance.
So with rational costs the answer passes if no value is negative, and whatever the values if what
the margin adds to the cost of all candidates is at most one. -/
theorem Model.reverifies :
    (∀ {α : Type} [Scalar α] [KeepsOrder α] (m : Model α) (w : Workload) {s : Settings α},
      s.validate = .ok () → ∀ {costs values : List α} {v : α},
      (m.formulate w costs).program.verify s.verifyTolerance values = .ok () →
      (m.formulate w costs).program.evaluate values = v →
      ((m.formulate w costs).Reverifies s values ↔
        le v (v * s.costMargin + s.verifyTolerance) = true) ∧
      (isNaN (v * s.costMargin) = false →
        (le zero v = true → (m.formulate w costs).Reverifies s values) ∧
        ((∀ cost ∈ costs, le zero cost = true) → (∀ x ∈ values, le zero x = true) →
          (m.formulate w costs).Reverifies s values))) ∧
    ∀ (m : Model Exact) (w : Workload) {s : Settings Exact}, s.validate = .ok () →
      ∀ {costs values : List Exact} {margin t : ℚ},
      s.costMargin = finite margin → s.verifyTolerance = finite t →
      (m.formulate w costs).program.verify s.verifyTolerance values = .ok () →
      (∀ v : ℚ, (m.formulate w costs).program.evaluate values = finite v →
        ((m.formulate w costs).Reverifies s values ↔ (margin - 1) * -v ≤ t)) ∧
      ∀ qs : List ℚ, costs = qs.map finite → (∀ q ∈ qs, 0 ≤ q) →
        ((∀ x ∈ values, le zero x = true) → (m.formulate w costs).Reverifies s values) ∧
        ((margin - 1) * m.totalWeight w qs ≤ 1 → (m.formulate w costs).Reverifies s values) := by
  constructor
  · rintro α _ _ m w s hs costs values v hv rfl
    refine ⟨reverifies_iff hv, fun hlimit => ⟨reverifies_of_zero_le hs hv hlimit, ?_⟩⟩
    exact fun hcosts hvalues => reverifies_of_zero_le hs hv hlimit
      (zero_le_evaluate hcosts hvalues (isNaN_eq_false_of_mul hlimit))
  · intro m w s hs costs values margin t hm ht hv
    refine ⟨fun v hvalue => reverifies_iff_of_finite hv hvalue hm ht, ?_⟩
    rintro qs rfl hqs
    obtain ⟨-, hmargin, htolerance⟩ := Settings.validate_eq_ok_iff.mp hs
    rw [hm, Exact.one_eq, Exact.le_finite, decide_eq_true_eq] at hmargin
    rw [ht, Exact.zero_eq, Exact.lt_finite, decide_eq_true_eq] at htolerance
    obtain ⟨v, hvalue, hlower, hnonneg⟩ := exists_evaluate_eq hqs htolerance (ht ▸ hv)
    rw [reverifies_iff_of_finite hv hvalue hm ht]
    constructor
    · intro hvalues
      have hlowered := mul_nonneg (sub_nonneg.mpr hmargin) (hnonneg hvalues)
      linarith
    · intro htotal
      calc (margin - 1) * -v
          ≤ (margin - 1) * (t * m.totalWeight w qs) :=
            mul_le_mul_of_nonneg_left (by linarith) (by linarith)
        _ = t * ((margin - 1) * m.totalWeight w qs) := by ring
        _ ≤ t * 1 := mul_le_mul_of_nonneg_left htotal htolerance.le
        _ = t := mul_one t

theorem Settings.validate_standard : (standard : Settings Exact).validate = .ok () := rfl

theorem Settings.costMargin_standard : (standard : Settings Exact).costMargin = finite (11 / 10) :=
  congrArg finite (by norm_num [Rat.mkRat_eq_div])

theorem Settings.verifyTolerance_standard :
    (standard : Settings Exact).verifyTolerance = finite (1 / 10000000) :=
  congrArg finite (by norm_num [Rat.mkRat_eq_div])

namespace Directory

/-- A directory of many people who are looked up by email. -/
def declarations : Declarations Float where
  entities := [{
    name := "Person"
    maxRows := 100000000
    fields := [{ name := "id", typeName := idType }, { name := "email", typeName := "String" }]
    statistics := [] }]
  definitions := [
    { name := "byEmail", entity := "Person", clause := { predicates := [("email", "$email")] } }]
  queries := [{ name := "find", selections := [⟨"byEmail", 10, []⟩] }]

/-- The model of a directory. -/
def model : Model Float := declarations.build.toOption.getD default

/-- The settings of a run without any file. -/
def settings : Settings Float := .standard

/-- The candidates for a directory, found without pruning. -/
def workload : {w : Workload //
    (model.search settings.rowScanCost settings.pruneOverLatency {}).1 = .ok w} :=
  ⟨_, eq_ok_of_isOk (by decide +kernel) default⟩

/-- The costs of the candidates.  Without the email in the key all people have to be scanned. -/
def costs : List Float := [decimal 10049999999999999 8, one]

/-- Values that use the cheap candidate, with the other one slightly below zero. -/
def noisy : List Float := [zero, one, zero - decimal 1 7, one]

theorem verify_noisy (costs : List Float) :
    (model.formulate workload costs).program.verify settings.verifyTolerance noisy = .ok () := by
  have hsets : workload.1.siblingSets = [[0, 1]] :=
    (Model.siblingSets_eq_levelSets workload.2).trans (by decide +kernel)
  -- the constraints do not depend on the costs
  have hholds : ∀ c ∈ (model.formulate workload []).program.constraints,
      c.holds (c.terms.eval noisy) settings.verifyTolerance = true := by
    rw [Model.formulate, hsets]
    decide +kernel
  exact (Program.verify_eq_ok_iff _ _ _).mpr ⟨rfl, by decide +kernel, hholds⟩

end Directory

/-- If a scan of the directory were as cheap as a lookup, noise would leave the objective above
zero.  For a forum with one candidate that is not free the objective may be below zero, since the
margin on that candidate is small. -/
theorem Model.reverifies_directory :
    (Directory.model.formulate Directory.workload [one, one]).Reverifies Directory.settings
      Directory.noisy ∧
    (Forum.model.formulate Forum.workload ([0, 0, 2, 0].map finite)).program.evaluate
      ([1, 1, 1, 1, 1, -1 / 10000000, 1].map finite) = finite (-2 / 10000000) ∧
    (Forum.model.formulate Forum.workload ([0, 0, 2, 0].map finite)).Reverifies .standard
      ([1, 1, 1, 1, 1, -1 / 10000000, 1].map finite) := by
  refine ⟨?_, by decide +kernel, ?_⟩
  · have hvalid : Directory.settings.validate = .ok () :=
      Settings.validate_eq_ok_iff.mpr (by decide +kernel)
    refine ((Model.reverifies.1 Directory.model Directory.workload hvalid
      (Directory.verify_noisy _) rfl).2 ?_).1 ?_
    · decide +kernel
    · decide +kernel
  · have hverify : (Forum.model.formulate Forum.workload ([0, 0, 2, 0].map finite)).program.verify
        Settings.standard.verifyTolerance ([1, 1, 1, 1, 1, -1 / 10000000, 1].map finite)
          = .ok () := by
      refine (Program.verify_eq_ok_iff _ _ _).mpr ⟨rfl, by decide +kernel, ?_⟩
      rw [Model.formulate, Forum.siblingSets_eq]
      decide +kernel
    refine ((Model.reverifies.2 Forum.model Forum.workload Settings.validate_standard
      Settings.costMargin_standard Settings.verifyTolerance_standard hverify).2 [0, 0, 2, 0] rfl
        (by decide)).2 ?_
    decide +kernel

/-- The objective of a verified answer may be negative, and then the answer does not pass the
second verification. -/
theorem Directory.not_reverifies :
    model.pricedWorkload settings.rowScanCost settings.pruneOverLatency
      = .ok (workload.1, costs) ∧
    (∀ cost ∈ costs, le zero cost = true) ∧ settings.validate = .ok () ∧
    (model.formulate workload costs).program.verify settings.verifyTolerance noisy = .ok () ∧
    ¬ (model.formulate workload costs).Reverifies settings noisy := by
  refine ⟨Model.pricedWorkload_eq_ok workload.2 (by decide +kernel), by decide +kernel,
    Settings.validate_eq_ok_iff.mpr (by decide +kernel), verify_noisy _, ?_⟩
  rw [reverifies_iff (verify_noisy _), Bool.not_eq_true]
  decide +kernel

end Keyspace
