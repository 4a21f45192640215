import Keyspace.Cost.Estimate
import Keyspace.Proofs.Scalar.Laws
import Keyspace.Proofs.Schema.Build
import Mathlib.Algebra.Order.Field.Basic

/-!
# Estimates are finite

The numbers of rows behind a cost are rationals whatever the statistics say: an expected scan that
is infinite or not a number gives way to the size of the entity (`Model.exists_filterRows`,
`Model.exists_sortRows`).  A cost is made of them and of the cost of scanning a row
(`Model.exists_rows_of_estimate`), and so is only as exceptional as that.  It is rational if that is
(`Model.isFinite_total`), and a number if that is (`Model.total_ne_nan`).
-/

namespace Keyspace

open Scalar
open Exact (finite IsFinite)

namespace Exact

theorem max_finite (p q : ℚ) : Scalar.max (finite p) (finite q) = finite (max p q) := by
  have hnumber : Scalar.isNaN (finite p) = false := by simp [Scalar.isNaN]
  rw [Scalar.max, lt_finite, hnumber, Bool.or_false]
  by_cases h : p < q
  · rw [if_pos (decide_eq_true h), max_eq_right h.le]
  · rw [if_neg (by simpa using h), max_eq_left (not_lt.mp h)]

theorem finite_div_finite (p : ℚ) {q : ℚ} (hq : q ≠ 0) : finite p / finite q = finite (p / q) :=
  if_neg hq

/-- A scan is cut off at the size of the entity and at one row. -/
theorem exists_max_min_eq (x : Exact) (n : ℚ) :
    ∃ q : ℚ, 1 ≤ q ∧ q ≤ max n 1 ∧ Scalar.max (Scalar.min x (finite n)) one = finite q := by
  have hcut : ∀ p : ℚ, p ≤ n →
      ∃ q : ℚ, 1 ≤ q ∧ q ≤ max n 1 ∧ Scalar.max (finite p) one = finite q :=
    fun p hp => ⟨max p 1, le_max_right p 1, max_le_max hp le_rfl, max_finite p 1⟩
  cases x with
  | nan => exact hcut n le_rfl
  | posInf => exact hcut n le_rfl
  | negInf => exact ⟨1, le_rfl, le_max_right n 1, rfl⟩
  | finite p =>
    have hnumber : Scalar.isNaN (finite p) = false := by simp [Scalar.isNaN]
    rw [Scalar.min, lt_finite, hnumber, Bool.or_false]
    split_ifs with hlt
    · exact hcut n le_rfl
    · exact hcut p (by simpa using hlt)

theorem finite_mul_ne_nan {q : ℚ} (hq : 0 < q) {r : Exact} (hr : r ≠ nan) :
    finite q * r ≠ nan := by
  cases r with
  | nan => exact absurd rfl hr
  | finite p => simp [finite_mul_finite]
  | posInf => simp [finite_mul_posInf hq]
  | negInf =>
    have hneg : finite q * negInf = infinityLike (-q) := rfl
    rw [hneg, infinityLike, if_neg (by linarith : (-q : ℚ) ≠ 0), if_neg (by linarith)]
    simp

end Exact

namespace Model

variable {m : Model Exact} {c : Candidate}

/-- A read that filters scans at least one row, and no more than the entity has. -/
theorem exists_filterRows {rows : Exact} (h : m.filterRows c = .ok rows) :
    ∃ q : ℚ, 1 ≤ q ∧ q ≤ max ((m.entity c.key.root).maxRows : ℚ) 1 ∧ rows = finite q := by
  rw [filterRows] at h
  split_ifs at h
  · exact ⟨1, le_rfl, le_max_right _ _, (Except.ok.inj h).symm⟩
  · refine ⟨max (m.entity c.key.root).maxRows 1, le_max_right _ _, le_rfl, ?_⟩
    rw [← Except.ok.inj h]
    exact Exact.max_finite _ _
  · obtain ⟨s, -, h⟩ := bind_eq_ok_iff.mp h
    obtain ⟨q, hone, hrows, heq⟩ := Exact.exists_max_min_eq (s.expected c.pageSize)
      (m.entity c.key.root).maxRows
    exact ⟨q, hone, hrows, (Except.ok.inj h).symm.trans heq⟩

/-- Rows that share a value are those of the entity, or at least one of them. -/
theorem exists_rowsPerPartition {id : EntityId} {paths : PathSet} {rows : Exact}
    (h : m.rowsPerPartition id paths = .ok rows) :
    ∃ q : ℚ, (q = (m.entity id).maxRows ∨ 1 ≤ q) ∧
      q ≤ max ((m.entity id).maxRows : ℚ) 1 ∧ rows = finite q := by
  rw [rowsPerPartition] at h
  split_ifs at h
  · exact ⟨_, .inl rfl, le_max_left _ _, (Except.ok.inj h).symm⟩
  · obtain ⟨s, -, h⟩ := bind_eq_ok_iff.mp h
    -- the number of distinct values is at least one
    have hdistinct : (1 : ℚ) ≤ (Nat.max s.distinct 1 : ℕ) :=
      Nat.one_le_cast.mpr (Nat.le_max_right _ _)
    have hquotient : m.maxRows id / Scalar.ofNat (Nat.max s.distinct 1)
        = finite ((m.entity id).maxRows / (Nat.max s.distinct 1 : ℕ)) :=
      Exact.finite_div_finite _ (one_pos.trans_le hdistinct).ne'
    rw [hquotient, Exact.one_eq, Exact.max_finite] at h
    refine ⟨_, .inr (le_max_right _ _), ?_, (Except.ok.inj h).symm⟩
    exact max_le_max (div_le_self (Nat.cast_nonneg _) hdistinct) le_rfl

theorem exists_sortRows {rows : Exact} (h : m.sortRows c = .ok rows) :
    ∃ q : ℚ, (q = 0 ∨ q = (m.entity c.key.root).maxRows ∨ 1 ≤ q) ∧
      q ≤ max ((m.entity c.key.root).maxRows : ℚ) 1 ∧ rows = finite q := by
  unfold sortRows at h
  dsimp only at h
  split_ifs at h
  · exact ⟨0, .inl rfl, zero_le_one.trans (le_max_right _ _), (Except.ok.inj h).symm⟩
  · obtain ⟨q, hq, hrows, rfl⟩ := exists_rowsPerPartition h
    exact ⟨q, .inr hq, hrows, rfl⟩

/-- A read that neither filters nor sorts costs one row, any other the greater of its two numbers
of rows at the given cost each. -/
theorem exists_rows_of_estimate {rowScanCost : Exact} {e : Estimate Exact}
    (h : m.estimate rowScanCost c = .ok e) :
    ∃ p q : ℚ, m.filterRows c = .ok (finite p) ∧ m.sortRows c = .ok (finite q) ∧
      e = ⟨finite p, finite q,
        if c.remaining.isEmpty = true ∧ q = 0 then one else finite (max p q) * rowScanCost⟩ := by
  obtain ⟨filter, hfilter, h⟩ := bind_eq_ok_iff.mp h
  obtain ⟨sort, hsort, h⟩ := bind_eq_ok_iff.mp h
  obtain ⟨p, -, -, rfl⟩ := exists_filterRows hfilter
  obtain ⟨q, -, -, rfl⟩ := exists_sortRows hsort
  refine ⟨p, q, hfilter, hsort, (Except.ok.inj h).symm.trans ?_⟩
  rw [Exact.zero_eq, Exact.same_finite, Exact.max_finite]
  simp only [Bool.and_eq_true, decide_eq_true_eq]

/-- A cost is that of one row, or of some rows at the given cost each. -/
theorem total_eq_one_or {rowScanCost : Exact} {e : Estimate Exact}
    (h : m.estimate rowScanCost c = .ok e) :
    e.total = finite 1 ∨ ∃ q : ℚ, 0 < q ∧ e.total = finite q * rowScanCost := by
  obtain ⟨p, q, hfilter, -, rfl⟩ := exists_rows_of_estimate h
  obtain ⟨_, hp, -, heq⟩ := exists_filterRows hfilter
  obtain rfl := Exact.finite.inj heq
  dsimp only
  split_ifs
  · exact .inl rfl
  · exact .inr ⟨max p q, one_pos.trans_le (le_max_of_le_left hp), rfl⟩

theorem isFinite_total {rowScanCost : Exact} {e : Estimate Exact}
    (h : m.estimate rowScanCost c = .ok e) (hr : rowScanCost.IsFinite) : e.total.IsFinite := by
  rcases total_eq_one_or h with heq | ⟨q, -, heq⟩
  · exact ⟨1, heq⟩
  · obtain ⟨r, rfl⟩ := hr
    exact ⟨q * r, heq⟩

theorem total_ne_nan {rowScanCost : Exact} {e : Estimate Exact}
    (h : m.estimate rowScanCost c = .ok e) (hr : rowScanCost ≠ .nan) : e.total ≠ .nan := by
  rcases total_eq_one_or h with heq | ⟨q, hq, heq⟩
  · simp [heq]
  · rw [heq]
    exact Exact.finite_mul_ne_nan hq hr

end Model

end Keyspace
