import Keyspace.Proofs.Program.Feasible
import Keyspace.Proofs.Selection.Formulation
import Mathlib.Algebra.BigOperators.Group.Finset.Basic
import Mathlib.Algebra.Order.BigOperators.Group.List

/-!
# Choices as assignments

`Workload.assignment` writes a choice of tables and candidates as zeros and ones, and is undone by
`setTables` and `setCandidates`.  `Model.bijOn_feasible` is the meaning of the program: its feasible
assignments are exactly the selections, and its objective is their weighted cost.

The lower fanout bounds add nothing to linking and coverage (`satisfies_of_isSelection` never asks
for them); they are constraints of the program all the same, and are counted.
-/

namespace Keyspace

open Scalar Tables Formulation
open Exact (finite)

/-! ### Assignments -/

section Assignment

/-- The values of a choice: one for what is chosen, zero for the rest. -/
def Workload.assignment (w : Workload) (T U : Finset ℕ) : List ℚ :=
  ((List.range (collapse w.candidates).size).map fun t => if t ∈ T then 1 else 0) ++
    (List.range w.candidates.length).map fun c => if c ∈ U then 1 else 0

variable {w : Workload} {T U : Finset ℕ}

theorem length_assignment :
    (w.assignment T U).length = (collapse w.candidates).size + w.candidates.length := by
  simp [Workload.assignment]

theorem mem_assignment {q : ℚ} (h : q ∈ w.assignment T U) : q = 0 ∨ q = 1 := by
  have hbit : ∀ (S : Finset ℕ) (i : ℕ), (if i ∈ S then (1 : ℚ) else 0) = 0 ∨
      (if i ∈ S then (1 : ℚ) else 0) = 1 := by
    intro S i
    split_ifs
    · exact .inr rfl
    · exact .inl rfl
  rcases List.mem_append.mp h with h | h
  · obtain ⟨t, -, rfl⟩ := List.mem_map.mp h
    exact hbit T t
  · obtain ⟨c, -, rfl⟩ := List.mem_map.mp h
    exact hbit U c

theorem getD_tableVar {t : ℕ} (ht : t < (collapse w.candidates).size) :
    (w.assignment T U).getD (tableVar t) 0 = if t ∈ T then 1 else 0 := by
  have ht' : t < ((List.range (collapse w.candidates).size).map
      fun t => if t ∈ T then (1 : ℚ) else 0).length := by simpa using ht
  rw [Workload.assignment, tableVar, List.getD_append _ _ _ _ ht', List.getD_eq_getElem _ _ ht',
    List.getElem_map, List.getElem_range]

theorem getD_candidateVar {c : ℕ} (hc : c < w.candidates.length) :
    (w.assignment T U).getD (candidateVar (collapse w.candidates) c) 0
      = if c ∈ U then 1 else 0 := by
  rw [Workload.assignment, candidateVar, List.getD_append_right _ _ _ _ (by simp), List.length_map,
    List.length_range, Nat.add_sub_cancel_left, List.getD_eq_getElem _ _ (by simpa using hc),
    List.getElem_map, List.getElem_range]

/-- The tables of an assignment are those it was made from. -/
theorem setTables_assignment (hT : ∀ t ∈ T, t < (collapse w.candidates).size) :
    setTables w (w.assignment T U) = T := by
  ext t
  rw [setTables, Finset.mem_filter, Finset.mem_range]
  constructor
  · rintro ⟨ht, hset⟩
    rw [getD_tableVar ht] at hset
    by_contra hmem
    rw [if_neg hmem] at hset
    norm_num at hset
  · intro hmem
    refine ⟨hT t hmem, ?_⟩
    rw [getD_tableVar (hT t hmem), if_pos hmem]
    norm_num

/-- The candidates of an assignment are those it was made from. -/
theorem setCandidates_assignment (hU : ∀ c ∈ U, c < w.candidates.length) :
    setCandidates w (w.assignment T U) = U := by
  ext c
  rw [setCandidates, Finset.mem_filter, Finset.mem_range]
  constructor
  · rintro ⟨hc, hset⟩
    rw [getD_candidateVar hc] at hset
    by_contra hmem
    rw [if_neg hmem] at hset
    norm_num at hset
  · intro hmem
    refine ⟨hU c hmem, ?_⟩
    rw [getD_candidateVar (hU c hmem), if_pos hmem]
    norm_num

theorem getD_of_binary {qs : List ℚ} (hbin : ∀ q ∈ qs, q = 0 ∨ q = 1) (v : ℕ) :
    qs.getD v 0 = 0 ∨ qs.getD v 0 = 1 :=
  Exact.getD_of_forall_mem (P := fun q => q = 0 ∨ q = 1) (.inl rfl) hbin v

/-- Zeros and ones are the assignment of what they set. -/
theorem assignment_set {qs : List ℚ} (hbin : ∀ q ∈ qs, q = 0 ∨ q = 1)
    (hlen : qs.length = (collapse w.candidates).size + w.candidates.length) :
    w.assignment (setTables w qs) (setCandidates w qs) = qs := by
  have hbit : ∀ v : ℕ, (if 1 / 2 < qs.getD v 0 then (1 : ℚ) else 0) = qs.getD v 0 := by
    intro v
    rcases getD_of_binary hbin v with hv | hv
    · rw [hv, if_neg (by norm_num)]
    · rw [hv, if_pos (by norm_num)]
  -- variable by variable, the tables first
  refine List.ext_getElem (by rw [length_assignment, hlen]) fun v h₁ h₂ => ?_
  rw [← List.getD_eq_getElem _ 0 h₁, ← List.getD_eq_getElem _ 0 h₂]
  by_cases hv : v < (collapse w.candidates).size
  · rw [show v = tableVar v from rfl, getD_tableVar hv, ← hbit (tableVar v)]
    simp [setTables, hv]
  · obtain ⟨c, rfl⟩ := Nat.exists_eq_add_of_le (not_lt.mp hv)
    have hc : c < w.candidates.length := by
      rw [length_assignment] at h₁
      omega
    rw [show (collapse w.candidates).size + c = candidateVar (collapse w.candidates) c from rfl,
      getD_candidateVar hc, ← hbit (candidateVar (collapse w.candidates) c)]
    simp [setCandidates, hc]

end Assignment

/-! ### Feasible assignments -/

section Feasible

variable {m : Model Exact} {w : Workload} {T U : Finset ℕ} {qs : List ℚ}

theorem abs_sub_bitOf_of_binary (hbin : ∀ q ∈ qs, q = 0 ∨ q = 1) :
    ∀ q ∈ qs, |q - bitOf q| ≤ 0 := by
  intro q hq
  rcases hbin q hq with rfl | rfl
  · simp [bitOf_zero]
  · rw [bitOf, if_pos (by norm_num), sub_self, abs_zero]

/-- Zeros and ones that satisfy the constraints exactly read as a selection. -/
theorem isSelection_of_binary (hw : w.IsLeveled w.siblingSets) (hbin : ∀ q ∈ qs, q = 0 ∨ q = 1)
    (h : m.Satisfies w 0 qs) :
    m.IsSelection w w.siblingSets (setTables w qs) (setCandidates w qs) :=
  isSelection_of_satisfies hw le_rfl (by rw [mul_zero]; norm_num) (abs_sub_bitOf_of_binary hbin) h

theorem exists_binary_eq {values : List Exact} (h : ∀ x ∈ values, x = finite 0 ∨ x = finite 1) :
    ∃ qs : List ℚ, values = qs.map finite ∧ ∀ q ∈ qs, q = 0 ∨ q = 1 := by
  obtain ⟨qs, rfl⟩ : ∃ qs : List ℚ, values = qs.map finite := by
    refine Exact.exists_eq_map_finite fun x hx => ?_
    rcases h x hx with rfl | rfl
    · exact ⟨0, rfl⟩
    · exact ⟨1, rfl⟩
  refine ⟨qs, rfl, fun q hq => ?_⟩
  simpa using h (finite q) (List.mem_map_of_mem hq)

/-- The assignment of a selection satisfies the constraints. -/
theorem satisfies_of_isSelection (hw : w.IsLeveled w.siblingSets)
    (h : m.IsSelection w w.siblingSets T U) : m.Satisfies w 0 (w.assignment T U) := by
  refine ⟨fun c hc => ?_, fun s hs => ?_, fun mu hmu hins hne => ?_⟩
  · rw [getD_candidateVar hc, getD_tableVar (home_lt_size hc), add_zero]
    by_cases hused : c ∈ U
    · rw [if_pos hused, if_pos (h.linked c hused)]
    · rw [if_neg hused]
      split_ifs <;> norm_num
  · obtain ⟨c, hc, hused⟩ := h.covered s hs
    have hone : (w.assignment T U).getD (candidateVar (collapse w.candidates) c) 0 = 1 := by
      rw [getD_candidateVar (hw.lt_of_mem hs hc), if_pos hused]
    rw [sub_zero, ← hone]
    refine List.single_le_sum (fun q hq => ?_) _ (List.mem_map_of_mem hc)
    obtain ⟨d, hd, rfl⟩ := List.mem_map.mp hq
    rw [getD_candidateVar (hw.lt_of_mem hs hd)]
    split_ifs <;> norm_num
  · -- without tolerance, the sum is the number of chosen tables
    have hnear := abs_sum_getD_sub_countP_le le_rfl
      (abs_sub_bitOf_of_binary fun q => mem_assignment (w := w) (T := T) (U := U))
      ((collapse w.candidates).rootedAt mu.entity) tableVar
    rw [mul_zero, ← card_chosenAt_setTables, setTables_assignment h.table_lt] at hnear
    have hsum := sub_eq_zero.mp (abs_nonpos_iff.mp hnear)
    have hex := rootedAt_ne_nil_iff.mp hne
    rw [hsum, sub_zero, add_zero]
    exact ⟨by exact_mod_cast h.toServes.one_le_card hw hex,
      by exact_mod_cast h.fanout mu hmu hins hex⟩

/-- **Feasible assignments are selections.** -/
theorem feasible_iff_isSelection (hw : w.IsLeveled w.siblingSets) (costs : List Exact)
    (hbin : ∀ q ∈ qs, q = 0 ∨ q = 1)
    (hlen : qs.length = (collapse w.candidates).size + w.candidates.length) :
    (m.formulate w costs).program.Feasible (qs.map finite) ↔
      m.IsSelection w w.siblingSets (setTables w qs) (setCandidates w qs) := by
  constructor
  · intro h
    exact isSelection_of_binary hw hbin ((forall_holds_iff m w costs 0 qs).mp h.holds)
  · intro h
    have hsat := satisfies_of_isSelection hw h
    rw [assignment_set hbin hlen] at hsat
    refine ⟨?_, fun x hx => ?_, (forall_holds_iff m w costs 0 qs).mpr hsat⟩
    · rw [List.length_map, hlen, length_names]
    · obtain ⟨q, hq, rfl⟩ := List.mem_map.mp hx
      simpa using hbin q hq

/-- A selection is a feasible assignment. -/
theorem feasible_assignment (hw : w.IsLeveled w.siblingSets) (costs : List Exact)
    (h : m.IsSelection w w.siblingSets T U) :
    (m.formulate w costs).program.Feasible ((w.assignment T U).map finite) := by
  refine (feasible_iff_isSelection hw costs (fun q => mem_assignment) length_assignment).mpr ?_
  rwa [setTables_assignment h.table_lt, setCandidates_assignment h.candidate_lt]

/-- Every feasible assignment is that of a selection. -/
theorem exists_of_feasible (hw : w.IsLeveled w.siblingSets) {costs values : List Exact}
    (h : (m.formulate w costs).program.Feasible values) :
    ∃ T U, m.IsSelection w w.siblingSets T U ∧ values = (w.assignment T U).map finite := by
  obtain ⟨qs, rfl, hbin⟩ := exists_binary_eq h.binary
  have hlen : qs.length = (collapse w.candidates).size + w.candidates.length := by
    rw [← length_names m w costs, ← h.length_eq, List.length_map]
  exact ⟨_, _, (feasible_iff_isSelection hw costs hbin hlen).mp h,
    by rw [assignment_set hbin hlen]⟩

/-- The lower fanout bounds follow from linking and coverage. -/
theorem holds_fanout_atLeast (hw : w.IsLeveled w.siblingSets) {values : List Exact}
    (hvalues : ∀ x ∈ values, x = finite 0 ∨ x = finite 1)
    (hlink : ∀ i < w.candidates.length, (linking (collapse w.candidates) i).holds
      ((linking (collapse w.candidates) i).terms.eval values) zero = true)
    (hcover : ∀ k s, w.siblingSets[k]? = some s → (coverage (collapse w.candidates) k s).holds
      ((coverage (collapse w.candidates) k s).terms.eval values) zero = true)
    (k : ℕ) (mu : Mutation) {c : Constraint Exact} (hc : c ∈ fanout (collapse w.candidates) k mu)
    (hsense : c.sense = .atLeast) : c.holds (c.terms.eval values) zero = true := by
  obtain ⟨qs, rfl, hbin⟩ := exists_binary_eq hvalues
  have hserves := serves_of_linking_coverage hw le_rfl (by rw [mul_zero]; norm_num)
    (abs_sub_bitOf_of_binary hbin)
    (fun i hi => (holds_linking _ 0 qs i).mp (hlink i hi))
    (fun s hs => by
      obtain ⟨k, hk⟩ := List.mem_iff_getElem?.mp hs
      exact (holds_coverage _ 0 qs k s).mp (hcover k s hk))
  unfold fanout at hc
  dsimp only at hc
  split_ifs at hc with hactive
  · rcases List.mem_pair.mp hc with rfl | rfl
    · have hne : (collapse w.candidates).rootedAt mu.entity ≠ [] := by simp_all
      have hcard := hserves.one_le_card hw (rootedAt_ne_nil_iff.mp hne)
      have hnear := abs_sum_getD_sub_countP_le le_rfl (abs_sub_bitOf_of_binary hbin)
        ((collapse w.candidates).rootedAt mu.entity) tableVar
      rw [mul_zero, ← card_chosenAt_setTables] at hnear
      have hsum := sub_eq_zero.mp (abs_nonpos_iff.mp hnear)
      have hterms := LinearForm.eval_map_one ((collapse w.candidates).rootedAt mu.entity) tableVar
        qs
      simp only [Constraint.holds, Exact.one_eq, Exact.zero_eq, hterms, hsum,
        Exact.finite_sub_finite, Exact.le_finite, decide_eq_true_eq, sub_zero]
      exact_mod_cast hcard
    · simp at hsense
  · simp at hc

end Feasible

/-! ### The objective -/

section Objective

variable (m : Model Exact) (w : Workload) (costs : List ℚ)

/-- The weighted cost of a candidate: its cost as often as its query runs. -/
def Model.weight (c : ℕ) : ℚ :=
  costs.getD c 0 * (m.query (w.candidate c).query).serviceLevel.throughput

theorem costTerms_eq :
    (m.formulate w (costs.map finite)).costTerms
      = ((List.range w.candidates.length).map fun c =>
          (candidateVar (collapse w.candidates) c, m.weight w costs c)).map
            fun t => (t.1, finite t.2) := by
  rw [Model.formulate, List.map_map]
  refine List.map_congr_left fun c _ => ?_
  rw [Exact.zero_eq, Exact.getD_map_finite, Exact.ofNat_eq, Exact.finite_mul_finite]
  rfl

/-- The cost of rational values is the sum of the weighted values of the candidates. -/
theorem eval_costTerms (qs : List ℚ) :
    (m.formulate w (costs.map finite)).costTerms.eval (qs.map finite)
      = finite (∑ c ∈ Finset.range w.candidates.length,
          m.weight w costs c * qs.getD (candidateVar (collapse w.candidates) c) 0) := by
  have hrange : Finset.range w.candidates.length = (List.range w.candidates.length).toFinset := by
    ext c
    simp
  rw [costTerms_eq, LinearForm.eval_map_finite, List.map_map, hrange,
    List.sum_toFinset _ List.nodup_range]
  rfl

variable {w} {T U : Finset ℕ} (hU : ∀ c ∈ U, c < w.candidates.length)
include hU

/-- The cost of a choice is that of its candidates. -/
theorem eval_costTerms_assignment :
    (m.formulate w (costs.map finite)).costTerms.eval ((w.assignment T U).map finite)
      = finite (∑ c ∈ U, m.weight w costs c) := by
  rw [eval_costTerms]
  have hsub : U ⊆ Finset.range w.candidates.length := fun c hc => Finset.mem_range.mpr (hU c hc)
  -- unused candidates add nothing
  rw [← Finset.sum_subset hsub fun c hc hunused => ?_]
  · refine congrArg finite (Finset.sum_congr rfl fun c hc => ?_)
    rw [getD_candidateVar (hU c hc), if_pos hc, mul_one]
  · rw [getD_candidateVar (Finset.mem_range.mp hc), if_neg hunused, mul_zero]

end Objective

/-! ### The program is the problem -/

section Correspondence

variable {m : Model Exact} {rowScanCost : Exact} {prune : Bool} {memo : Memo Exact} {w : Workload}

/-- **The program for a searched workload is the selection problem.**  Its feasible assignments
are those of the selections, one for each, and its objective is their weighted cost.  The lower
fanout bounds could be left out. -/
theorem Model.bijOn_feasible (hw : (m.search rowScanCost prune memo).1 = .ok w)
    (costs : List ℚ) :
    Set.BijOn (fun c : Finset ℕ × Finset ℕ => (w.assignment c.1 c.2).map finite)
      {c | m.IsSelection w (m.levelSets rowScanCost prune memo) c.1 c.2}
      {values | (m.formulate w (costs.map finite)).program.Feasible values} ∧
    (∀ T U, m.IsSelection w (m.levelSets rowScanCost prune memo) T U →
      (m.formulate w (costs.map finite)).program.evaluate ((w.assignment T U).map finite)
        = finite (∑ c ∈ U, m.weight w costs c)) ∧
    (∀ values : List Exact, (∀ x ∈ values, x = finite 0 ∨ x = finite 1) →
      (∀ i < w.candidates.length, (linking (collapse w.candidates) i).holds
        ((linking (collapse w.candidates) i).terms.eval values) zero = true) →
      (∀ k s, w.siblingSets[k]? = some s → (coverage (collapse w.candidates) k s).holds
        ((coverage (collapse w.candidates) k s).terms.eval values) zero = true) →
      ∀ k mu, m.mutations[k]? = some mu →
        ∀ c ∈ fanout (α := Exact) (collapse w.candidates) k mu, c.sense = .atLeast →
          c.holds (c.terms.eval values) zero = true) ∧
    (m.formulate w (costs.map finite)).program.names.length
      = (collapse w.candidates).size + w.candidates.length ∧
    (m.formulate w (costs.map finite)).program.constraints.length
      = w.candidates.length + m.plannedLevels.length
        + 2 * m.mutations.countP fun mu =>
          mu.kind == .insert && w.candidates.any fun c => c.key.root == mu.entity := by
  have hlevels := isLeveled_levelSets hw
  have hsets := siblingSets_eq_levelSets hw
  rw [← hsets] at hlevels ⊢
  refine ⟨⟨?_, ?_, ?_⟩, fun T U h => eval_costTerms_assignment m costs h.candidate_lt,
    fun values hbin hlink hcover k mu _ c hc hsense =>
      holds_fanout_atLeast hlevels hbin hlink hcover k mu hc hsense,
    length_names m w _, ?_⟩
  · rintro ⟨T, U⟩ h
    exact feasible_assignment hlevels _ h
  · -- a choice can be read off its values
    rintro ⟨T, U⟩ h ⟨T', U'⟩ h' heq
    have heq : w.assignment T U = w.assignment T' U' :=
      List.map_injective_iff.mpr (fun p q hpq => Exact.finite.inj hpq) heq
    have hT := congrArg (setTables w) heq
    have hU := congrArg (setCandidates w) heq
    rw [setTables_assignment h.table_lt, setTables_assignment h'.table_lt] at hT
    rw [setCandidates_assignment h.candidate_lt, setCandidates_assignment h'.candidate_lt] at hU
    exact Prod.ext hT hU
  · intro values hvalues
    obtain ⟨T, U, h, rfl⟩ := exists_of_feasible hlevels hvalues
    exact ⟨(T, U), h, rfl⟩
  · rw [length_constraints, hsets, length_levelSets hw]

end Correspondence

/-- The program for a log read in two directions: two candidates for each of two levels, which
share two tables, and one insertion. -/
theorem Model.bijOn_feasible_log :
    Set.BijOn (fun c : Finset ℕ × Finset ℕ =>
        ((Log.workload [.asc, .desc]).assignment c.1 c.2).map finite)
      {c | (Log.model [.asc, .desc]).IsSelection (Log.workload [.asc, .desc])
        ((Log.model [.asc, .desc]).levelSets (finite 1) false {}) c.1 c.2}
      {values | ((Log.model [.asc, .desc]).formulate (Log.workload [.asc, .desc])
        ([1, 5, 5, 1].map finite)).program.Feasible values} ∧
    ((Log.model [.asc, .desc]).formulate (Log.workload [.asc, .desc])
      ([1, 5, 5, 1].map finite)).program.constraints.length = 4 + 2 + 2 * 1 := by
  have hw : ((Log.model [.asc, .desc]).search (finite 1) false {}).1
      = .ok (Log.workload [.asc, .desc]) := rfl
  obtain ⟨hbij, -, -, -, hcount⟩ := Model.bijOn_feasible hw [1, 5, 5, 1]
  exact ⟨hbij, hcount⟩

end Keyspace
