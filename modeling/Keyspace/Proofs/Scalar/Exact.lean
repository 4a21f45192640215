import Keyspace.Scalar.Exact
import Mathlib.Algebra.BigOperators.Group.List.Basic
import Mathlib.Algebra.Order.Field.Rat
import Mathlib.Data.List.GetD
import Mathlib.Tactic.Linarith
import Mathlib.Tactic.NormNum
import Mathlib.Tactic.Ring

/-!
# Arithmetic of exact scalars

On finite values the operations of `Exact` are those of the rationals, and so are sums and
comparisons (`sum_map_finite`, `le_finite`, `lt_finite`).  What is not a number spreads through the
operations (`nan_add`, `add_nan`, `mul_nan`), and no comparison with it holds (`le_nan`, `nan_le`).
-/

namespace Keyspace.Exact

open Scalar

/-! ### Finite values -/

@[simp]
theorem finite_add_finite (p q : ℚ) : finite p + finite q = finite (p + q) := rfl

@[simp]
theorem finite_mul_finite (p q : ℚ) : finite p * finite q = finite (p * q) := rfl

@[simp]
theorem finite_sub_finite (p q : ℚ) : finite p - finite q = finite (p - q) := by
  rw [sub_eq_add_neg]
  rfl

@[simp]
theorem ofNat_eq (n : ℕ) : (ofNat n : Exact) = finite n := rfl

@[simp]
theorem zero_eq : (zero : Exact) = finite 0 := rfl

@[simp]
theorem one_eq : (one : Exact) = finite 1 := rfl

@[simp]
theorem negate_finite (q : ℚ) : negate (finite q) = finite (-q) := rfl

@[simp]
theorem abs_finite (q : ℚ) : Scalar.abs (finite q) = finite |q| := by
  show finite (if q < 0 then -q else q) = finite |q|
  split_ifs with h
  · rw [abs_of_neg h]
  · rw [abs_of_nonneg (not_lt.mp h)]

/-- The value above which a variable counts as set. -/
theorem half_eq : (decimal 5 1 : Exact) = finite (1 / 2) := by
  show finite (mkRat 5 (Nat.pow 10 1)) = finite (1 / 2)
  norm_num [Rat.mkRat_eq_div]

@[simp]
theorem lt_finite (p q : ℚ) : Scalar.lt (finite p) (finite q) = decide (p < q) := rfl

@[simp]
theorem same_finite (p q : ℚ) : Scalar.same (finite p) (finite q) = decide (p = q) := rfl

@[simp]
theorem le_finite (p q : ℚ) : Scalar.le (finite p) (finite q) = decide (p ≤ q) := by
  show (decide (p < q) || decide (p = q)) = decide (p ≤ q)
  rw [← Bool.decide_or]
  exact decide_eq_decide.mpr le_iff_lt_or_eq.symm

/-! ### What is not a number -/

@[simp]
theorem nan_add (x : Exact) : nan + x = nan := by
  cases x <;> rfl

@[simp]
theorem add_nan (x : Exact) : x + nan = nan := by
  cases x <;> rfl

@[simp]
theorem mul_nan (x : Exact) : x * nan = nan := by
  cases x <;> rfl

@[simp]
theorem le_nan (x : Exact) : le x nan = false := by
  cases x <;> rfl

@[simp]
theorem nan_le (x : Exact) : le nan x = false := by
  cases x <;> rfl

/-! ### Comparisons up to a rational -/

theorem le_sub_finite_iff {x y : Exact} {t : ℚ} :
    le (x - finite t) y = true ↔ le x (y + finite t) = true := by
  cases x <;> cases y <;> try exact Iff.rfl
  simp

/-- More slack accepts more. -/
theorem le_add_finite_mono {x y : Exact} {s t : ℚ} (hst : s ≤ t)
    (h : le x (y + finite s) = true) : le x (y + finite t) = true := by
  -- only two finite sides feel the slack
  cases x <;> cases y <;> try exact h
  simp only [finite_add_finite, le_finite, decide_eq_true_eq] at h ⊢
  linarith

theorem le_finite_mono {x : Exact} {s t : ℚ} (hst : s ≤ t) (h : le x (finite s) = true) :
    le x (finite t) = true := by
  cases x <;> try exact h
  simp only [le_finite, decide_eq_true_eq] at h ⊢
  linarith

/-- A difference within rational bounds is one of rationals. -/
theorem le_abs_sub_iff {x y : Exact} {t : ℚ} :
    le (Scalar.abs (x - y)) (finite t) = true ↔
      ∃ q slack : ℚ, |slack| ≤ t ∧ x = finite (q + slack) ∧ y = finite q := by
  constructor
  · intro h
    cases x <;> cases y <;> try exact absurd h Bool.false_ne_true
    rename_i p q
    exact ⟨q, p - q, by simpa using h, by rw [add_sub_cancel], rfl⟩
  · rintro ⟨q, slack, hslack, rfl, rfl⟩
    simpa using hslack

/-! ### Sums -/

/-- A sum of finite values is the rational sum. -/
theorem sum_map_finite (qs : List ℚ) : Scalar.sum (qs.map finite) = finite qs.sum := by
  suffices h : ∀ (qs : List ℚ) (p : ℚ),
      (qs.map finite).foldl (· + ·) (finite p) = finite (p + qs.sum) by
    rw [Scalar.sum, ← zero_add qs.sum]
    exact h qs 0
  intro qs
  induction qs with
  | nil => intro p; simp
  | cons q qs ih =>
    intro p
    rw [List.map_cons, List.foldl_cons, finite_add_finite, ih, List.sum_cons, add_assoc]

/-! ### Lists of finite values -/

/-- Is a value a rational? -/
def IsFinite (x : Exact) : Prop := ∃ q : ℚ, x = finite q

/-- The rational behind a finite value. -/
def value : Exact → ℚ
  | finite q => q
  | _ => 0

/-- A list of finite values is a list of rationals. -/
theorem exists_eq_map_finite {xs : List Exact} (h : ∀ x ∈ xs, x.IsFinite) :
    ∃ qs : List ℚ, xs = qs.map finite := by
  induction xs with
  | nil => exact ⟨[], rfl⟩
  | cons x xs ih =>
    obtain ⟨q, rfl⟩ := h x List.mem_cons_self
    obtain ⟨qs, rfl⟩ := ih fun y hy => h y (List.mem_cons_of_mem _ hy)
    exact ⟨q :: qs, rfl⟩

/-- What holds of the members and of the default holds at every position. -/
theorem getD_of_forall_mem {β : Type} {P : β → Prop} {xs : List β} {d : β} (hd : P d)
    (h : ∀ x ∈ xs, P x) (i : ℕ) : P (xs.getD i d) := by
  by_cases hi : i < xs.length
  · rw [List.getD_eq_getElem _ _ hi]
    exact h _ (List.getElem_mem hi)
  · rwa [List.getD_eq_default _ _ (not_lt.mp hi)]

theorem getD_map_finite (qs : List ℚ) (i : ℕ) :
    (qs.map finite).getD i (finite 0) = finite (qs.getD i 0) := by
  rw [List.getD_eq_getElem?_getD, List.getD_eq_getElem?_getD, List.getElem?_map]
  cases qs[i]? <;> rfl

end Keyspace.Exact
