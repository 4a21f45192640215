import Keyspace.Planner
import Keyspace.Proofs.Lists
import Keyspace.Proofs.Scalar.Exact

/-!
# The stages of planning

`Model.plan_eq_ok_iff` takes a plan apart into its stages: a report says that the settings are
valid, that a search has found and priced a workload, and that tables were selected for it.  Each
stage is looked at on its own elsewhere.
-/

namespace Keyspace

open Scalar
open Exact (finite)

/-! ### Settings -/

/-- The range of each value. -/
theorem Settings.validate_eq_ok_iff {α : Type} [Scalar α] {s : Settings α} :
    s.validate = .ok () ↔ le one s.rowScanCost = true ∧ le one s.costMargin = true ∧
      lt zero s.verifyTolerance = true := by
  rw [validate]
  split_ifs with hscan hmargin htolerance
  · exact iff_of_false (by simp) fun h => absurd h.1 (by simpa using hscan)
  · exact iff_of_false (by simp) fun h => absurd h.2.1 (by simpa using hmargin)
  · exact iff_of_false (by simp) fun h => absurd h.2.2 (by simpa using htolerance)
  · exact iff_of_true rfl
      ⟨by simpa using hscan, by simpa using hmargin, by simpa using htolerance⟩

/-- Valid settings have a positive tolerance, which need not be finite. -/
theorem Settings.tolerance_of_validate {s : Settings Exact} (h : s.validate = .ok ()) :
    (∃ t : ℚ, 0 < t ∧ s.verifyTolerance = finite t) ∨ s.verifyTolerance = .posInf := by
  obtain ⟨-, -, hpos⟩ := Settings.validate_eq_ok_iff.mp h
  cases htolerance : s.verifyTolerance with
  | finite t =>
    rw [htolerance] at hpos
    exact .inl ⟨t, of_decide_eq_true hpos, rfl⟩
  | posInf => exact .inr rfl
  | negInf | nan =>
    rw [htolerance] at hpos
    exact absurd hpos Bool.false_ne_true

/-! ### Workloads and reports -/

section Stages

variable {α σ : Type} [Scalar α] {m : Model α}

/-- A priced workload is what a search has found, with its costs. -/
theorem Model.exists_price_of_pricedWorkload {rowScanCost : α} {prune : Bool} {w : Workload}
    {costs : List α} (h : m.pricedWorkload rowScanCost prune = .ok (w, costs)) :
    (m.search rowScanCost prune {}).1 = .ok w ∧
      ∃ memo, (m.price rowScanCost w memo).1 = .ok costs := by
  rw [pricedWorkload] at h
  split at h
  · exact absurd h (by simp)
  next hsearch =>
    split at h
    · exact absurd h (by simp)
    next hprice =>
      obtain ⟨rfl, rfl⟩ := Prod.mk.inj (Except.ok.inj h)
      exact ⟨by rw [hsearch], _, by rw [hprice]⟩

theorem Model.search_of_pricedWorkload {rowScanCost : α} {prune : Bool} {w : Workload}
    {costs : List α} (h : m.pricedWorkload rowScanCost prune = .ok (w, costs)) :
    (m.search rowScanCost prune {}).1 = .ok w :=
  (exists_price_of_pricedWorkload h).1

/-- A search and the costs of what it found make a priced workload. -/
theorem Model.pricedWorkload_eq_ok {rowScanCost : α} {prune : Bool} {w : Workload} {costs : List α}
    (hw : (m.search rowScanCost prune {}).1 = .ok w)
    (hcosts : (m.pricedWorkload rowScanCost prune).toOption.map Prod.snd = some costs) :
    m.pricedWorkload rowScanCost prune = .ok (w, costs) := by
  obtain ⟨⟨w', _⟩, hpriced, rfl⟩ := exists_eq_ok_of_map hcosts
  obtain rfl := Except.ok.inj ((search_of_pricedWorkload hpriced).symm.trans hw)
  exact hpriced

/-- What is behind a report. -/
theorem Model.plan_eq_ok_iff {s : Settings α} {solver : Solver σ α} {state : σ} {r : Report α} :
    (m.plan s solver state).1 = .ok r ↔
      s.validate = .ok () ∧ ∃ w costs o,
        m.pricedWorkload s.rowScanCost s.pruneOverLatency = .ok (w, costs) ∧
        (m.select w costs s.costMargin s.verifyTolerance solver state).1 = .ok o ∧
        .build m w costs o = r := by
  rw [plan]
  constructor
  · intro h
    split at h
    · exact absurd h (by simp)
    next hvalid =>
      split at h
      · exact absurd h (by simp)
      next w costs hpriced =>
        split at h
        · exact absurd h (by simp)
        next o state' hselect =>
          exact ⟨hvalid, w, costs, o, hpriced, by rw [hselect], Except.ok.inj h⟩
  · rintro ⟨hvalid, w, costs, o, hpriced, hselect, rfl⟩
    rw [hvalid]
    dsimp only
    rw [hpriced]
    dsimp only
    split
    next e state' h =>
      rw [h] at hselect
      exact absurd hselect (by simp)
    next o' state' h =>
      rw [h] at hselect
      rw [Except.ok.inj hselect]

end Stages

end Keyspace
