import Mathlib.Algebra.BigOperators.Group.Finset.Piecewise
import Mathlib.Algebra.BigOperators.Group.List.Lemmas
import Keyspace.Proofs.Scalar.Exact

/-!
# Laws of exact scalars

Addition of exact scalars is commutative and associative, infinities and `nan` included.  Hence an
exact sum may be taken in any order and part by part (`sum_map_eq_sum_filter`).  A rational factor
may be taken out of a sum (`sum_mul_finite`).  An infinite one may not: over 2 and -1 it adds up to
`nan`, but taken out it meets 1.

`rank` orders by tier and then by value, and so is transitive.
-/

namespace Keyspace.Exact

open Scalar
open Std (TransCmp)

/-! ### Sums -/

instance : Zero Exact := ⟨finite 0⟩

instance : AddCommMonoid Exact where
  add_assoc x y z := by
    cases x <;> cases y <;> cases z <;> try rfl
    simp only [finite_add_finite, add_assoc]
  zero_add x := by
    cases x <;> try rfl
    exact (finite_add_finite _ _).trans (congrArg finite (zero_add _))
  add_zero x := by
    cases x <;> try rfl
    exact (finite_add_finite _ _).trans (congrArg finite (add_zero _))
  add_comm x y := by
    cases x <;> cases y <;> try rfl
    simp only [finite_add_finite, add_comm]
  nsmul := nsmulRec

/-- The sum from left to right is the sum of the monoid. -/
theorem sum_eq (xs : List Exact) : Scalar.sum xs = xs.sum := List.sum_eq_foldl.symm

theorem mul_comm (x y : Exact) : x * y = y * x := by
  cases x <;> cases y <;> try rfl
  rw [finite_mul_finite, finite_mul_finite, Rat.mul_comm]

/-- The infinities with the signs of a rational and of its negation are opposite, if there are
any. -/
theorem infinityLike_neg (q : ℚ) :
    infinityLike q = nan ∧ infinityLike (-q) = nan ∨
      infinityLike q = posInf ∧ infinityLike (-q) = negInf ∨
      infinityLike q = negInf ∧ infinityLike (-q) = posInf := by
  rcases lt_trichotomy q 0 with hq | rfl | hq
  · simp [infinityLike, hq, hq.ne, hq.not_gt]
  · simp [infinityLike]
  · simp [infinityLike, hq, hq.ne', hq.not_gt]

theorem finite_mul_posInf {q : ℚ} (h : 0 < q) : finite q * posInf = posInf := by
  show infinityLike q = posInf
  rw [infinityLike, if_neg h.ne', if_pos h]

theorem ofNat_mul_posInf {n : ℕ} (h : 0 < n) : ofNat n * posInf = posInf :=
  finite_mul_posInf (Nat.cast_pos.mpr h)

theorem add_mul_finite (x y : Exact) (q : ℚ) :
    (x + y) * finite q = x * finite q + y * finite q := by
  show mul (add x y) (finite q) = add (mul x (finite q)) (mul y (finite q))
  rcases infinityLike_neg q with ⟨hpos, hneg⟩ | ⟨hpos, hneg⟩ | ⟨hpos, hneg⟩ <;>
    cases x <;> cases y <;> simp only [add, mul, hpos, hneg, add_mul]

theorem sum_mul_finite (xs : List Exact) (q : ℚ) :
    Scalar.sum xs * finite q = Scalar.sum (xs.map (· * finite q)) := by
  rw [sum_eq, sum_eq]
  induction xs with
  | nil => exact congrArg finite (zero_mul q)
  | cons x xs ih => rw [List.sum_cons, add_mul_finite, ih, List.map_cons, List.sum_cons]

/-- A sum may be taken part by part. -/
theorem sum_map_eq_sum_filter {β : Type} {part : β → ℕ} {n : ℕ} (f : β → Exact) {xs : List β}
    (h : ∀ x ∈ xs, part x < n) :
    Scalar.sum (xs.map f)
      = Scalar.sum ((List.range n).map fun k =>
          Scalar.sum ((xs.filter fun x => part x == k).map f)) := by
  simp only [sum_eq]
  induction xs with
  | nil => simp
  | cons x xs ih =>
    obtain ⟨hx, hxs⟩ := List.forall_mem_cons.mp h
    have hsplit : ∀ k, (((x :: xs).filter fun x => part x == k).map f).sum
        = (if k = part x then f x else 0) + ((xs.filter fun x => part x == k).map f).sum := by
      intro k
      by_cases hk : part x = k
      · rw [List.filter_cons_of_pos (by simpa using hk), List.map_cons, List.sum_cons,
          if_pos hk.symm]
      · rw [List.filter_cons_of_neg (by simpa using hk), if_neg (Ne.symm hk), zero_add]
    -- among the parts, the first element belongs to its own
    have hone : ((List.range n).map fun k => if k = part x then f x else 0).sum = f x := by
      rw [← List.sum_toFinset _ List.nodup_range, Finset.sum_ite_eq', if_pos]
      rwa [List.mem_toFinset, List.mem_range]
    rw [List.map_cons, List.sum_cons, ih hxs, List.map_congr_left fun k _ => hsplit k,
      List.sum_map_add, hone]

/-! ### Limits -/

/-- A limit that holds with some slack holds for a higher value with more. -/
theorem le_add_finite_of_le {x : Exact} {p q r s : ℚ}
    (h : le (finite p) (x + finite s) = true) (hq : q ≤ p + r) :
    le (finite q) (x + finite (s + r)) = true := by
  cases x with
  | finite l =>
    rw [finite_add_finite, le_finite, decide_eq_true_eq] at h ⊢
    linarith
  | posInf => rfl
  | negInf | nan => exact absurd h Bool.false_ne_true

/-! ### The total order -/

theorem rank_eq : (Scalar.rank : Exact → Exact → Ordering)
    = compareLex (compareOn tier) (compareOn value) := by
  funext x y
  cases x <;> cases y <;> rfl

instance : TransCmp (Scalar.rank : Exact → Exact → Ordering) := by
  rw [rank_eq]
  infer_instance

end Keyspace.Exact
