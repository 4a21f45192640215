import Keyspace.Program.Basic
import Keyspace.Proofs.Scalar.Ordered

/-!
# What a verified answer satisfies

`Program.verify_eq_ok_iff` says of every scalar type what passes verification: one value for each
variable, each value binary and each constraint satisfied within the tolerance.  The test for binary
values alone lets a value pass that is not a number (`Program.isBinary_iff`), but in a constraint
such a value is caught, rounding or not (`Program.isNaN_of_verify`).

Over exact scalars the rest of the module draws the consequences:

* `isFinite_of_verify`: if every variable occurs in a constraint, a verified answer is finite.
* `abs_sum_sub_countP_le`: a sum of `n` verified values differs from the number of set ones by at
  most `n` tolerances.
-/

namespace Keyspace

open Scalar Exact

/-! ### The verdict -/

section Verdict

variable {α : Type} [Scalar α] (p : Program α) (tolerance : α) (values : List α)

theorem Program.nonBinary?_eq_none_iff (h : values.length = p.names.length) :
    p.nonBinary? tolerance values = none ↔ ∀ v ∈ values, Program.isBinary tolerance v = true := by
  rw [Program.nonBinary?, Option.map_eq_none_iff, List.find?_eq_none]
  constructor
  · intro hall v hv
    obtain ⟨i, hi, rfl⟩ := List.getElem_of_mem hv
    have hmem : (p.names.get ⟨i, h ▸ hi⟩, values[i]) ∈ p.names.zip values :=
      List.mem_iff_getElem.mpr ⟨i, by rw [List.length_zip]; omega, List.getElem_zip⟩
    simpa using hall _ hmem
  · rintro hall ⟨name, v⟩ hmem
    simp [hall v (List.of_mem_zip hmem).2]

theorem Program.unsatisfied?_eq_none_iff :
    p.unsatisfied? tolerance values = none ↔
      ∀ c ∈ p.constraints, c.holds (c.terms.eval values) tolerance = true := by
  rw [Program.unsatisfied?, Option.map_eq_none_iff, List.find?_eq_none]
  simp

/-- What passes verification. -/
theorem Program.verify_eq_ok_iff :
    p.verify tolerance values = .ok () ↔
      values.length = p.names.length ∧
      (∀ v ∈ values, Program.isBinary tolerance v = true) ∧
      ∀ c ∈ p.constraints, c.holds (c.terms.eval values) tolerance = true := by
  have hverdict : p.verify tolerance values = .ok () ↔ p.violation? tolerance values = none := by
    unfold Program.verify
    split <;> simp_all
  rw [hverdict, Program.violation?]
  split_ifs with h
  · simp [h]
  · rw [Option.or_eq_none_iff, p.nonBinary?_eq_none_iff tolerance values (not_not.mp h),
      p.unsatisfied?_eq_none_iff tolerance values]
    simp [not_not.mp h]

/-- An answer is verified or some violation is found. -/
theorem Program.verify_eq_ok_or_error :
    p.verify tolerance values = .ok () ∨ ∃ v, p.verify tolerance values = .error v := by
  cases h : p.verify tolerance values with
  | ok => exact .inl rfl
  | error v => exact .inr ⟨v, rfl⟩

end Verdict

/-! ### Values that are not numbers -/

/-- Is a value within the tolerance of 0 or of 1? -/
def Scalar.IsNearBit {α : Type} [Scalar α] (tolerance x : α) : Prop :=
  le (Scalar.abs x) tolerance = true ∨ le (Scalar.abs (x - one)) tolerance = true

section Numbers

variable {α : Type} [Scalar α] [SpreadsNaN α] {tolerance x : α}

/-- Only numbers are near a bit. -/
theorem isNaN_of_isNearBit (h : IsNearBit tolerance x) : isNaN x = false := by
  rcases h with h | h
  · exact (SpreadsNaN.isNaN_abs x).symm.trans (SpreadsNaN.isNaN_of_le h).1
  · have hdistance := (SpreadsNaN.isNaN_of_le h).1
    rwa [SpreadsNaN.isNaN_abs, SpreadsNaN.isNaN_sub_one] at hdistance

/-- The test for binary values asks whether a value is far from both bits, and what is not a number
is far from nothing. -/
theorem Program.isBinary_iff (ht : isNaN tolerance = false) :
    Program.isBinary tolerance x = true ↔ isNaN x = true ∨ IsNearBit tolerance x := by
  have hzero := SpreadsNaN.lt_eq_false_iff tolerance (Scalar.abs x)
  have hone := SpreadsNaN.lt_eq_false_iff tolerance (Scalar.abs (x - one))
  rw [ht, SpreadsNaN.isNaN_abs] at hzero
  rw [ht, SpreadsNaN.isNaN_abs, SpreadsNaN.isNaN_sub_one] at hone
  rw [Program.isBinary, Bool.not_eq_true', Bool.and_eq_false_iff, hzero, hone, IsNearBit]
  simp only [Bool.false_eq_true, false_or]
  tauto

/-- A value that is not a number spreads to the forms that it occurs in. -/
theorem LinearForm.isNaN_eval {f : LinearForm α} {values : List α} {t : ℕ × α} (ht : t ∈ f)
    (h : isNaN (values.getD t.1 zero) = true) : isNaN (f.eval values) = true :=
  isNaN_sum ⟨_, List.mem_map_of_mem ht, SpreadsNaN.isNaN_mul (.inr h)⟩

/-- No constraint accepts what is not a number. -/
theorem Constraint.holds_eq_false_of_isNaN (c : Constraint α) {lhs : α} (h : isNaN lhs = true) :
    c.holds lhs tolerance = false := by
  unfold Constraint.holds
  cases c.sense with
  | atLeast => exact le_eq_false_of_isNaN (.inr h)
  | atMost => exact le_eq_false_of_isNaN (.inl h)
  | equal =>
    refine le_eq_false_of_isNaN (.inl ?_)
    rw [SpreadsNaN.isNaN_abs]
    exact SpreadsNaN.isNaN_sub _ h

/-- If every variable occurs in some constraint, a verified answer consists of numbers. -/
theorem Program.isNaN_of_verify {p : Program α} {values : List α}
    (h : p.verify tolerance values = .ok ())
    (occurs : ∀ v < p.names.length, ∃ c ∈ p.constraints, ∃ term ∈ c.terms, term.1 = v) :
    ∀ x ∈ values, isNaN x = false := by
  obtain ⟨hlen, -, hholds⟩ := (p.verify_eq_ok_iff _ _).mp h
  intro x hx
  rw [← Bool.not_eq_true]
  intro hnan
  obtain ⟨v, hv, rfl⟩ := List.getElem_of_mem hx
  obtain ⟨c, hc, term, hterm, rfl⟩ := occurs v (hlen ▸ hv)
  have hlhs : isNaN (c.terms.eval values) = true :=
    LinearForm.isNaN_eval hterm (by rwa [List.getD_eq_getElem _ _ hv])
  have hfalse := hholds c hc
  rw [c.holds_eq_false_of_isNaN hlhs] at hfalse
  exact absurd hfalse Bool.false_ne_true

end Numbers

/-! ### Linear forms over exact scalars -/

/-- A form with rational coefficients has a rational value at rational values. -/
theorem LinearForm.eval_map_finite (f : List (ℕ × ℚ)) (qs : List ℚ) :
    LinearForm.eval (f.map fun t => (t.1, finite t.2)) (qs.map finite)
      = finite (f.map fun t => t.2 * qs.getD t.1 0).sum := by
  rw [LinearForm.eval, ← sum_map_finite, List.map_map, List.map_map]
  refine congrArg Scalar.sum (List.map_congr_left fun t _ => ?_)
  rw [Function.comp, Function.comp, zero_eq, getD_map_finite, finite_mul_finite]

/-- A form that adds up variables. -/
theorem LinearForm.eval_map_one (ids : List ℕ) (var : ℕ → ℕ) (qs : List ℚ) :
    LinearForm.eval (ids.map fun i => (var i, finite 1)) (qs.map finite)
      = finite (ids.map fun i => qs.getD (var i) 0).sum := by
  have h := LinearForm.eval_map_finite (ids.map fun i => (var i, 1)) qs
  rw [List.map_map, List.map_map] at h
  simpa only [Function.comp_def, one_mul] using h

/-! ### Verified answers are finite -/

/-- Exact values near a bit are rationals. -/
theorem Exact.isNearBit_iff {t : ℚ} {x : Exact} :
    IsNearBit (finite t) x ↔ ∃ q : ℚ, x = finite q ∧ (|q| ≤ t ∨ |q - 1| ≤ t) := by
  cases x with
  | finite q =>
    simp only [IsNearBit, abs_finite, one_eq, finite_sub_finite, le_finite, decide_eq_true_eq]
    exact ⟨fun h => ⟨q, rfl, h⟩, fun ⟨_, hq, h⟩ => Exact.finite.inj hq ▸ h⟩
  | posInf | negInf | nan =>
    refine iff_of_false ?_ (by simp)
    rintro (h | h) <;> exact Bool.false_ne_true h

/-- Infinities are not binary; what is not a number is not told apart. -/
theorem isBinary_eq_true_iff {t : ℚ} {x : Exact} :
    Program.isBinary (finite t) x = true ↔
      x = nan ∨ ∃ q : ℚ, x = finite q ∧ (|q| ≤ t ∨ |q - 1| ≤ t) := by
  rw [Program.isBinary_iff (isNaN_finite t), Exact.isNaN_iff, Exact.isNearBit_iff]

/-- A verified answer is finite if every variable occurs in some constraint. -/
theorem Program.isFinite_of_verify {p : Program Exact} {t : ℚ} {values : List Exact}
    (h : p.verify (finite t) values = .ok ())
    (occurs : ∀ v < p.names.length, ∃ c ∈ p.constraints, ∃ term ∈ c.terms, term.1 = v) :
    ∀ x ∈ values, x.IsFinite := by
  intro x hx
  have hnumber : x ≠ nan := isNaN_eq_false_iff.mp (Program.isNaN_of_verify h occurs x hx)
  -- the test for binary values catches the infinities
  have hbinary := ((p.verify_eq_ok_iff _ _).mp h).2.1 x hx
  obtain ⟨q, rfl, -⟩ := (isBinary_eq_true_iff.mp hbinary).resolve_left hnumber
  exact ⟨q, rfl⟩

/-! ### Reading values as bits -/

/-- The bit that a value is read as. -/
def bitOf (q : ℚ) : ℚ := if 1 / 2 < q then 1 else 0

theorem bitOf_zero : bitOf 0 = 0 := if_neg (by norm_num)

theorem Solution.isSet_eq_decide {s : Solution Exact} {qs : List ℚ} (h : s.values = qs.map finite)
    (v : ℕ) : s.isSet v = decide (1 / 2 < qs.getD v 0) := by
  rw [Solution.isSet, h, half_eq, zero_eq, getD_map_finite, lt_finite]

/-- Below one half, the tolerance is the distance of a binary value from its bit. -/
theorem abs_sub_bitOf_le {t q : ℚ} (ht : t < 1 / 2)
    (h : Program.isBinary (finite t) (finite q) = true) : |q - bitOf q| ≤ t := by
  have hq : |q| ≤ t ∨ |q - 1| ≤ t := by simpa using isBinary_eq_true_iff.mp h
  unfold bitOf
  split_ifs with hset
  · refine hq.resolve_left fun h0 => ?_
    have := (abs_le.mp h0).2
    linarith
  · rw [sub_zero]
    refine hq.resolve_right fun h1 => ?_
    have := (abs_le.mp h1).1
    linarith

/-- A sum of nearly binary values is near the number of those read as one. -/
theorem abs_sum_sub_countP_le {t : ℚ} (qs : List ℚ) (h : ∀ q ∈ qs, |q - bitOf q| ≤ t) :
    |qs.sum - (qs.countP fun q => 1 / 2 < q : ℕ)| ≤ qs.length * t := by
  induction qs with
  | nil => simp
  | cons q qs ih =>
    have hq := h q List.mem_cons_self
    have ih := ih fun x hx => h x (List.mem_cons_of_mem _ hx)
    have hcount : (((q :: qs).countP fun q => 1 / 2 < q : ℕ) : ℚ)
        = bitOf q + (qs.countP fun q => 1 / 2 < q : ℕ) := by
      rw [List.countP_cons, bitOf]
      by_cases hset : 1 / 2 < q
      · rw [if_pos (decide_eq_true hset), if_pos hset, Nat.cast_succ, add_comm]
      · rw [if_neg (by simpa using hset), if_neg hset, add_zero, zero_add]
    rw [hcount, List.sum_cons, List.length_cons, Nat.cast_succ, add_sub_add_comm]
    have htri := abs_add_le (q - bitOf q) (qs.sum - (qs.countP fun q => 1 / 2 < q : ℕ))
    linarith

end Keyspace
