import Keyspace.Proofs.Cost.Finite

/-!
# Bounds of costs

Whatever the statistics say, a read scans between one row and all rows of its entity, both to filter
and to sort, and its cost lies between that of one row and that of a full scan.
`Model.estimate_bounds` says so of every candidate rooted at an entity of a built model, be it one
that a search would never offer, and tells when either bound is met: a candidate that has to filter
without any key costs a full scan, and none costs as little as one row unless it neither filters nor
sorts.
-/

namespace Keyspace

open Scalar
open Exact (finite)

namespace Exact

/-- A scalar lies between two others. -/
def Between (lower upper x : Exact) : Prop := le lower x = true ∧ le x upper = true

/-- What is at least one is a rational or infinite. -/
theorem one_le_iff {x : Exact} :
    le one x = true ↔ x = posInf ∨ ∃ q : ℚ, 1 ≤ q ∧ x = finite q := by
  cases x with
  | finite q => simp
  | posInf => exact iff_of_true rfl (.inl rfl)
  | negInf | nan => exact iff_of_false Bool.false_ne_true (by simp)

theorem between_finite {p q r : ℚ} : Between (finite p) (finite q) (finite r) ↔ p ≤ r ∧ r ≤ q := by
  simp [Between]

/-- Some of `n` things that cost at least one each, and no fewer than one of them. -/
theorem between_mul {q n : ℚ} (hq : 1 ≤ q) (hn : q ≤ n) {x : Exact} (hx : le one x = true) :
    Between one (finite n * x) (finite q * x) := by
  rcases one_le_iff.mp hx with rfl | ⟨r, hr, rfl⟩
  · rw [finite_mul_posInf (one_pos.trans_le hq), finite_mul_posInf (one_pos.trans_le (hq.trans hn))]
    exact ⟨rfl, rfl⟩
  · exact between_finite.mpr ⟨one_le_mul_of_one_le_of_one_le hq hr,
      mul_le_mul_of_nonneg_right hn (zero_le_one.trans hr)⟩

/-- Things that cost more than one each do not cost one. -/
theorem finite_mul_ne_one {q : ℚ} (hq : 1 ≤ q) {x : Exact} (hx : Scalar.lt one x = true) :
    finite q * x ≠ one := by
  cases x with
  | negInf | nan => exact absurd hx Bool.false_ne_true
  | posInf =>
    rw [finite_mul_posInf (one_pos.trans_le hq)]
    simp
  | finite r =>
    have hr : 1 < r := by simpa using hx
    rw [finite_mul_finite, one_eq, Ne, finite.injEq]
    exact (one_lt_mul_of_le_of_lt hq hr).ne'

end Exact

/-! ### Bounds -/

/-- What is known of the estimates for a candidate whose entity has at most `maxRows` rows, if
scanning one of them costs `rowScanCost`. -/
structure Candidate.Bounds (c : Candidate) (maxRows rowScanCost : Exact) (e : Estimate Exact) :
    Prop where
  filterRows : Exact.Between one maxRows e.filterRows
  sortRows : e.sortRows = zero ∨ Exact.Between one maxRows e.sortRows
  total : Exact.Between one (maxRows * rowScanCost) e.total
  /-- Without any key, what is left to filter takes a full scan. -/
  total_of_scan : c.remaining.isEmpty = false → c.effectiveKey.isEmpty = true →
    e.total = maxRows * rowScanCost
  /-- Only a read that neither filters nor sorts is as cheap as one row. -/
  total_eq_one_iff : Scalar.lt one rowScanCost = true →
    (e.total = one ↔ c.remaining.isEmpty = true ∧ e.sortRows = zero)

namespace Model

variable {m : Model Exact} {c : Candidate}

/-- Filtering without any key reads all rows. -/
theorem filterRows_of_scan (hremaining : c.remaining.isEmpty = false)
    (hkey : c.effectiveKey.isEmpty = true) :
    m.filterRows c = .ok (Scalar.max (m.maxRows c.key.root) one) := by
  rw [filterRows, hremaining, if_neg Bool.false_ne_true, if_pos hkey]

/-- Estimates are bounded where an entity has rows. -/
theorem bounds_of_maxRows_pos (hrows : 0 < (m.entity c.key.root).maxRows) {rowScanCost : Exact}
    (hcost : le one rowScanCost = true) {e : Estimate Exact}
    (h : m.estimate rowScanCost c = .ok e) :
    c.Bounds (m.maxRows c.key.root) rowScanCost e := by
  obtain ⟨p, q, hfilter, hsort, rfl⟩ := exists_rows_of_estimate h
  obtain ⟨_, hp, hpn, hfinite⟩ := exists_filterRows hfilter
  obtain rfl := Exact.finite.inj hfinite
  obtain ⟨_, hq, hqn, hfinite⟩ := exists_sortRows hsort
  obtain rfl := Exact.finite.inj hfinite
  have hmaxRows : m.maxRows c.key.root = finite ((m.entity c.key.root).maxRows : ℚ) := rfl
  have hn : (1 : ℚ) ≤ (m.entity c.key.root).maxRows := Nat.one_le_cast.mpr hrows
  rw [max_eq_left hn] at hpn hqn
  -- a read that sorts reads at least one row
  have hq : q = 0 ∨ 1 ≤ q := hq.imp_right fun hq => hq.elim (fun heq => heq ▸ hn) id
  have hscan : 1 ≤ max p q := le_max_of_le_left hp
  rw [hmaxRows]
  refine ⟨Exact.between_finite.mpr ⟨hp, hpn⟩, hq.imp (congrArg finite) fun hq =>
    Exact.between_finite.mpr ⟨hq, hqn⟩, ?_, fun hremaining hkey => ?_, fun hmore => ?_⟩
  · dsimp only
    split_ifs
    · exact ⟨rfl, (Exact.between_mul hn le_rfl hcost).1⟩
    · exact Exact.between_mul hscan (max_le hpn hqn) hcost
  · -- the full scan to filter is not less than any sort
    have hp : p = (m.entity c.key.root).maxRows := by
      rw [filterRows_of_scan hremaining hkey, hmaxRows, Exact.one_eq, Exact.max_finite,
        max_eq_left hn] at hfilter
      exact (Exact.finite.inj (Except.ok.inj hfilter)).symm
    dsimp only
    rw [if_neg (by simp [hremaining]), hp, max_eq_left hqn]
  · dsimp only
    split_ifs with hfree
    · exact iff_of_true rfl ⟨hfree.1, congrArg finite hfree.2⟩
    · refine iff_of_false (Exact.finite_mul_ne_one hscan hmore) fun ⟨hremaining, hzero⟩ => ?_
      exact hfree ⟨hremaining, Exact.finite.inj hzero⟩

/-- **Costs are bounded**, for every candidate rooted at an entity of a built model, whether or not
its parts fit together, and whatever the distributions answer. -/
theorem estimate_bounds {decls : Declarations Exact} (hbuild : decls.build = .ok m)
    (hroot : c.key.root < m.catalog.entities.length) {rowScanCost : Exact}
    (hcost : le one rowScanCost = true) {e : Estimate Exact}
    (h : m.estimate rowScanCost c = .ok e) :
    c.Bounds (m.maxRows c.key.root) rowScanCost e := by
  refine bounds_of_maxRows_pos ?_ hcost h
  have hentity : m.entity c.key.root = m.catalog.entities[c.key.root] :=
    List.getD_eq_getElem _ _ hroot
  rw [hentity]
  exact (Declarations.isClosed_of_build hbuild).maxRows_pos _ (List.getElem_mem hroot)

end Model

namespace Journal

/-- A journal whose statistics are of little use: nothing is known of the scan for an author. -/
def declarations : Declarations Exact where
  entities := [{
    name := "Entry"
    maxRows := 1000
    fields := [{ name := "id", typeName := idType }, { name := "at", typeName := "DateTime" },
      { name := "author", typeName := "String" }]
    statistics := [⟨["at"], .uniform 4⟩, ⟨["author"], .ofDistribution 0 (.constant .nan)⟩] }]

/-- The model of a journal. -/
def model : Model Exact := declarations.build.toOption.getD default

/-- A candidate that leaves to filter what its clause does not ask for, and does not sort. -/
def stray : Candidate where
  key := ⟨∅, [⟨⟨0, ["id"], true⟩, .desc⟩], 0⟩
  query := 0
  remaining := .ofList [⟨0, ["author"], true⟩]
  clause := ⟨0, [⟨⟨0, ["at"], true⟩, "$at"⟩], [⟨⟨0, ["at"], true⟩, .asc⟩]⟩
  pageSize := 10

end Journal

/-- A scan whose length is not a number counts as a full scan, and outweighs the sort. -/
theorem Model.estimate_bounds_journal :
    Journal.model.estimate (finite (3 / 2)) Journal.stray
      = .ok ⟨finite 1000, finite 250, finite 1500⟩ ∧
    Journal.stray.Bounds (finite 1000) (finite (3 / 2))
      ⟨finite 1000, finite 250, finite 1500⟩ := by
  have hbuild : Journal.declarations.build = .ok Journal.model := rfl
  have hfilter : Journal.model.filterRows Journal.stray = .ok (finite 1000) := rfl
  have hsort : Journal.model.sortRows Journal.stray = .ok (finite 250) := by
    have hrows : Journal.model.sortRows Journal.stray
        = .ok (Scalar.max (finite 1000 / finite 4) one) := rfl
    rw [hrows, Exact.finite_div_finite _ four_ne_zero, Exact.one_eq, Exact.max_finite]
    norm_num
  have hestimate : Journal.model.estimate (finite (3 / 2)) Journal.stray
      = .ok ⟨finite 1000, finite 250, finite 1500⟩ := by
    have htotal : Scalar.max (finite 1000) (finite 250) * finite (3 / 2) = finite 1500 := by
      rw [Exact.max_finite, Exact.finite_mul_finite]
      norm_num
    rw [Model.estimate, hfilter, hsort, ← htotal]
    rfl
  exact ⟨hestimate, Model.estimate_bounds hbuild (by decide) (by norm_num) hestimate⟩

end Keyspace
