import Keyspace.Proofs.Cost.Finite
import Keyspace.Proofs.Planner
import Keyspace.Proofs.Workload.Answer

/-!
# Prices of searched workloads

A candidate that a search finds has a cost, since its level could not be answered otherwise.  So
pricing a searched workload does not fail (`Model.exists_pricedWorkload`), and the prices are what
the estimates say; they are rational if the cost of scanning a row is
(`Model.exists_rational_pricedWorkload`).
-/

namespace Keyspace.Model

open Exact (finite)

section Search

variable {α : Type} [Scalar α] {m : Model α} {rowScanCost : α} {prune : Bool} {memo : Memo α}
  {w : Workload}

/-- The candidates of an answered level have costs. -/
theorem exists_estimate_of_answer {l : Level} {p : LevelPlan}
    (h : m.answer rowScanCost prune l = .ok p) {c : Candidate} (hc : c ∈ p.candidates) :
    ∃ e, m.estimate rowScanCost c = .ok e := by
  have hmem := (answers_of_answer h).mem_candidates hc
  rw [answer] at h
  split_ifs at h
  · obtain rfl := Except.ok.inj h
    exact absurd hc List.not_mem_nil
  · cases hcosts : m.levelCosts rowScanCost l with
    | error e =>
      rw [hcosts] at h
      exact absurd h (by simp)
    | ok costs =>
      obtain ⟨cost, -, hcost⟩ := exists_left_of_forall₂ (mapM_eq_ok_iff.mp hcosts).flip hmem
      obtain ⟨e, he, -⟩ := map_eq_ok_iff.mp hcost
      exact ⟨e, he⟩

/-- A candidate that a search finds is one of the answer for some planned level. -/
theorem exists_answer_of_search (hmemo : m.RemembersCosts rowScanCost memo)
    (hw : (m.search rowScanCost prune memo).1 = .ok w) {c : Candidate} (hc : c ∈ w.candidates) :
    ∃ l ∈ m.plannedLevels, ∃ p, m.answer rowScanCost prune l = .ok p ∧ c ∈ p.candidates := by
  obtain ⟨i, hi, rfl⟩ := List.getElem_of_mem hc
  obtain ⟨ids, hids, hmem⟩ := (isLeveled_siblingSets hw).exists_mem hi
  obtain ⟨l, hl, hp⟩ := exists_left_of_forall₂ (forall₂_siblingSets hmemo hw) hids
  rw [← Workload.candidate_eq_getElem hi]
  exact ⟨l, hl, _, hp, List.mem_map_of_mem hmem⟩

theorem exists_estimate_of_search (hmemo : m.RemembersCosts rowScanCost memo)
    (hw : (m.search rowScanCost prune memo).1 = .ok w) {c : Candidate} (hc : c ∈ w.candidates) :
    ∃ e, m.estimate rowScanCost c = .ok e := by
  obtain ⟨l, -, p, hp, hc⟩ := exists_answer_of_search hmemo hw hc
  exact exists_estimate_of_answer hp hc

/-- **A searched workload has prices**, those of the estimates. -/
theorem exists_pricedWorkload (hw : (m.search rowScanCost prune {}).1 = .ok w) :
    ∃ costs, m.pricedWorkload rowScanCost prune = .ok (w, costs) ∧
      List.Forall₂ (fun c cost => (m.estimate rowScanCost c).map Estimate.total = .ok cost)
        w.candidates costs := by
  have hempty : m.RemembersCosts rowScanCost {} := remembersCosts_empty
  have hafter : m.RemembersCosts rowScanCost (m.search rowScanCost prune {}).2 :=
    remembersCosts_search hempty
  have hprice := (costs_eq hafter w.candidates).1
  have hok : ∃ costs, w.candidates.mapM (fun c => (m.estimate rowScanCost c).map Estimate.total)
      = .ok costs := by
    rw [← failure?_eq_none_iff, failure?_mapM, List.findSome?_eq_none_iff]
    intro c hc
    rw [failure?_map, failure?_eq_none_iff]
    exact exists_estimate_of_search hempty hw hc
  obtain ⟨costs, hcosts⟩ := hok
  refine ⟨costs, ?_, mapM_eq_ok_iff.mp hcosts⟩
  rw [hcosts] at hprice
  rw [pricedWorkload]
  revert hw hprice
  rcases m.search rowScanCost prune {} with ⟨_, memo⟩
  rintro rfl hprice
  dsimp only [price] at hprice ⊢
  revert hprice
  rcases m.costs rowScanCost w.candidates memo with ⟨_, memo'⟩
  rintro rfl
  rfl

end Search

/-- If the cost of scanning a row is rational, so are the prices. -/
theorem exists_rational_pricedWorkload {m : Model Exact} {rowScanCost : ℚ} {prune : Bool}
    {w : Workload} (hw : (m.search (finite rowScanCost) prune {}).1 = .ok w) :
    ∃ costs : List ℚ,
      m.pricedWorkload (finite rowScanCost) prune = .ok (w, costs.map finite) ∧
      List.Forall₂
        (fun c cost => (m.estimate (finite rowScanCost) c).map Estimate.total = .ok (finite cost))
        w.candidates costs := by
  obtain ⟨costs, hpriced, hcosts⟩ := exists_pricedWorkload hw
  have hfinite : ∀ x ∈ costs, x.IsFinite := by
    intro x hx
    obtain ⟨c, -, hc⟩ := exists_left_of_forall₂ hcosts hx
    obtain ⟨e, he, rfl⟩ := map_eq_ok_iff.mp hc
    exact isFinite_total he ⟨_, rfl⟩
  obtain ⟨qs, rfl⟩ := Exact.exists_eq_map_finite hfinite
  rw [List.forall₂_map_right_iff] at hcosts
  exact ⟨qs, hpriced, hcosts⟩

end Keyspace.Model
