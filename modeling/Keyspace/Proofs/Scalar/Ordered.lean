import Keyspace.Proofs.Scalar.Laws

/-!
# Laws that rounding keeps

Operations on doubles are rounded, so their sums and products are not those of a field.  Two kinds
of laws are left, and they are enough to read what a verification has compared:

* `Scalar.SpreadsNaN`: comparisons are total among numbers and hold of nothing else, and what is
  computed from a value that is not a number is not one either.
* `Scalar.KeepsOrder`: rounding does not lead below a value that the exact result does not lie
  below.  Hence what is not negative does not shrink by adding more that is not negative
  (`Scalar.zero_le_sum`), nor by a factor of at least one (`Scalar.le_mul_add`).

Exact scalars satisfy both (`Exact.keepsOrder`), and so do doubles (`Binary64.keepsOrder`).
-/

namespace Keyspace

namespace Scalar

/-- Comparisons are total among numbers, and what is not a number spreads. -/
class SpreadsNaN (α : Type) [Scalar α] : Prop where
  lt_eq_false_iff (x y : α) : lt x y = false ↔ isNaN x = true ∨ isNaN y = true ∨ le y x = true
  isNaN_of_le {x y : α} (h : le x y = true) : isNaN x = false ∧ isNaN y = false
  isNaN_abs (x : α) : isNaN (Scalar.abs x) = isNaN x
  isNaN_sub_one (x : α) : isNaN (x - one) = isNaN x
  isNaN_sub {x : α} (y : α) (h : isNaN x = true) : isNaN (x - y) = true
  isNaN_add {x y : α} (h : isNaN x = true ∨ isNaN y = true) : isNaN (x + y) = true
  isNaN_mul {x y : α} (h : isNaN x = true ∨ isNaN y = true) : isNaN (x * y) = true

/-- Rounding keeps the order of values that are not negative. -/
class KeepsOrder (α : Type) [Scalar α] : Prop extends SpreadsNaN α where
  le_of_lt {x y : α} (h : lt x y = true) : le x y = true
  le_trans {x y z : α} (hxy : le x y = true) (hyz : le y z = true) : le x z = true
  zero_le_emptySum : le zero (emptySum : α) = true
  zero_le_ofNat (n : ℕ) : le zero (ofNat n : α) = true
  le_add {x y : α} (hx : le zero x = true) (hy : le zero y = true) : le x (x + y) = true
  le_mul {x y : α} (hx : le zero x = true) (hy : le one y = true)
    (hxy : isNaN (x * y) = false) : le x (x * y) = true
  zero_le_mul {x y : α} (hx : le zero x = true) (hy : le zero y = true)
    (hxy : isNaN (x * y) = false) : le zero (x * y) = true

variable {α : Type} [Scalar α]

/-! ### What is not a number -/

section SpreadsNaN

variable [SpreadsNaN α]

theorem le_eq_false_of_isNaN {x y : α} (h : isNaN x = true ∨ isNaN y = true) :
    le x y = false := by
  refine Bool.eq_false_iff.mpr fun hle => ?_
  obtain ⟨hx, hy⟩ := SpreadsNaN.isNaN_of_le hle
  simp [hx, hy] at h

/-- A sum with a term that is not a number is not a number. -/
theorem isNaN_sum {xs : List α} (h : ∃ x ∈ xs, isNaN x = true) : isNaN (sum xs) = true := by
  suffices spread : ∀ (xs : List α) (s : α), (isNaN s = true ∨ ∃ x ∈ xs, isNaN x = true) →
      isNaN (xs.foldl (· + ·) s) = true from spread xs _ (.inr h)
  intro xs
  induction xs with
  | nil =>
    rintro s (h | ⟨x, hx, -⟩)
    · exact h
    · exact absurd hx List.not_mem_nil
  | cons y xs ih =>
    rintro s (h | ⟨x, hx, h⟩)
    · exact ih _ (.inl (SpreadsNaN.isNaN_add (.inl h)))
    · rcases List.mem_cons.mp hx with rfl | hx
      · exact ih _ (.inl (SpreadsNaN.isNaN_add (.inr h)))
      · exact ih _ (.inr ⟨x, hx, h⟩)

theorem isNaN_eq_false_of_mem_of_sum {xs : List α} (h : isNaN (sum xs) = false) {x : α}
    (hx : x ∈ xs) : isNaN x = false := by
  rw [← Bool.not_eq_true] at h ⊢
  exact fun hnan => h (isNaN_sum ⟨x, hx, hnan⟩)

theorem isNaN_eq_false_of_mul {x y : α} (h : isNaN (x * y) = false) : isNaN x = false := by
  rw [← Bool.not_eq_true] at h ⊢
  exact fun hnan => h (SpreadsNaN.isNaN_mul (.inl hnan))

end SpreadsNaN

/-! ### What is not negative -/

section KeepsOrder

variable [KeepsOrder α]

theorem zero_le_add {x y : α} (hx : le zero x = true) (hy : le zero y = true) :
    le zero (x + y) = true :=
  KeepsOrder.le_trans hx (KeepsOrder.le_add hx hy)

/-- A sum without negative terms is not negative. -/
theorem zero_le_sum {xs : List α} (h : ∀ x ∈ xs, le zero x = true) : le zero (sum xs) = true := by
  suffices hfold : ∀ (xs : List α) (s : α), le zero s = true → (∀ x ∈ xs, le zero x = true) →
      le zero (xs.foldl (· + ·) s) = true from hfold xs _ KeepsOrder.zero_le_emptySum h
  intro xs
  induction xs with
  | nil => exact fun s hs _ => hs
  | cons y xs ih =>
    intro s hs h
    obtain ⟨hy, h⟩ := List.forall_mem_cons.mp h
    exact ih _ (zero_le_add hs hy) h

/-- A limit that is raised by a factor and by a slack is no lower. -/
theorem le_mul_add {x y t : α} (hx : le zero x = true) (hy : le one y = true)
    (hxy : isNaN (x * y) = false) (ht : lt zero t = true) : le x (x * y + t) = true := by
  have hmul : le x (x * y) = true := KeepsOrder.le_mul hx hy hxy
  have hproduct : le zero (x * y) = true := KeepsOrder.le_trans hx hmul
  exact KeepsOrder.le_trans hmul (KeepsOrder.le_add hproduct (KeepsOrder.le_of_lt ht))

end KeepsOrder

end Scalar

/-! ### Exact scalars -/

namespace Exact

open Scalar

@[simp]
theorem isNaN_finite (q : ℚ) : isNaN (finite q) = false := by
  simp [isNaN]

theorem isNaN_iff {x : Exact} : isNaN x = true ↔ x = nan := by
  cases x with
  | finite q => simp
  | posInf | negInf | nan => decide

theorem isNaN_eq_false_iff {x : Exact} : isNaN x = false ↔ x ≠ nan := by
  rw [← Bool.not_eq_true, isNaN_iff]

/-- Numbers are ordered by tier, and rationals among themselves by value. -/
theorem le_iff {x y : Exact} : le x y = true ↔
    x ≠ nan ∧ y ≠ nan ∧ (x.tier < y.tier ∨ x.tier = y.tier ∧ x.value ≤ y.value) := by
  cases x with
  | finite p =>
    cases y with
    | finite q => simp [tier, value]
    | posInf | negInf | nan => simp [tier, Scalar.le, lt, same]
  | posInf | negInf | nan => cases y <;> simp [tier, value, Scalar.le, lt, same]

/-- What is not negative is a rational or infinite. -/
theorem zero_le_iff {x : Exact} :
    le zero x = true ↔ (∃ q : ℚ, 0 ≤ q ∧ x = finite q) ∨ x = posInf := by
  cases x with
  | finite q => simp
  | posInf => exact iff_of_true rfl (.inr rfl)
  | negInf | nan => exact iff_of_false Bool.false_ne_true (by simp)

theorem finite_mul_posInf_of_nonneg {q : ℚ} (hq : 0 ≤ q) (h : finite q * posInf ≠ nan) :
    finite q * posInf = posInf := by
  refine finite_mul_posInf (lt_of_le_of_ne hq ?_)
  rintro rfl
  exact h rfl

instance spreadsNaN : SpreadsNaN Exact where
  lt_eq_false_iff x y := by
    rw [isNaN_iff, isNaN_iff]
    cases x with
    | finite p =>
      cases y with
      | finite q => simp
      | posInf | negInf | nan => simp [Scalar.lt, Scalar.le, lt, same]
    | posInf | negInf | nan => cases y <;> simp [Scalar.lt, Scalar.le, lt, same]
  isNaN_of_le h := by
    obtain ⟨hx, hy, -⟩ := le_iff.mp h
    exact ⟨isNaN_eq_false_iff.mpr hx, isNaN_eq_false_iff.mpr hy⟩
  isNaN_abs x := by
    cases x with
    | finite q => rw [abs_finite, isNaN_finite, isNaN_finite]
    | posInf | negInf | nan => rfl
  isNaN_sub_one x := by
    cases x with
    | finite q => rw [one_eq, finite_sub_finite, isNaN_finite, isNaN_finite]
    | posInf | negInf | nan => rfl
  isNaN_sub y h := by
    obtain rfl := isNaN_iff.mp h
    cases y <;> rfl
  isNaN_add := by
    simp only [isNaN_iff]
    rintro x y (rfl | rfl)
    · exact nan_add y
    · exact add_nan x
  isNaN_mul := by
    simp only [isNaN_iff]
    rintro x y (rfl | rfl)
    · rw [mul_comm, mul_nan]
    · exact mul_nan x

/-- Exact results need no rounding. -/
instance keepsOrder : KeepsOrder Exact where
  toSpreadsNaN := spreadsNaN
  le_of_lt h := by
    show (_ || _) = true
    rw [Bool.or_eq_true]
    exact .inl h
  le_trans := by
    intro x y z hxy hyz
    obtain ⟨hx, -, hxy⟩ := le_iff.mp hxy
    obtain ⟨-, hz, hyz⟩ := le_iff.mp hyz
    refine le_iff.mpr ⟨hx, hz, ?_⟩
    rcases hxy with hxy | ⟨hxy, hvxy⟩
    · omega
    · rcases hyz with hyz | ⟨hyz, hvyz⟩
      · omega
      · exact .inr ⟨hxy.trans hyz, hvxy.trans hvyz⟩
  zero_le_emptySum := rfl
  zero_le_ofNat n := zero_le_iff.mpr (.inl ⟨n, Nat.cast_nonneg n, rfl⟩)
  le_add := by
    intro x y hx hy
    rcases zero_le_iff.mp hx with ⟨p, -, rfl⟩ | rfl
    · rcases zero_le_iff.mp hy with ⟨q, hq, rfl⟩ | rfl
      · rw [finite_add_finite, le_finite]
        exact decide_eq_true (by linarith)
      · rfl
    · rcases zero_le_iff.mp hy with ⟨q, -, rfl⟩ | rfl <;> rfl
  le_mul := by
    intro x y hx hy hxy
    rw [isNaN_eq_false_iff] at hxy
    rcases zero_le_iff.mp hx with ⟨p, hp, rfl⟩ | rfl
    · cases y with
      | finite q =>
        rw [one_eq, le_finite, decide_eq_true_eq] at hy
        rw [finite_mul_finite, le_finite]
        exact decide_eq_true (le_mul_of_one_le_right hp hy)
      | posInf =>
        rw [finite_mul_posInf_of_nonneg hp hxy]
        rfl
      | negInf | nan => exact absurd hy Bool.false_ne_true
    · cases y with
      | finite q =>
        rw [one_eq, le_finite, decide_eq_true_eq] at hy
        rw [mul_comm, finite_mul_posInf (lt_of_lt_of_le one_pos hy)]
        rfl
      | posInf => rfl
      | negInf | nan => exact absurd hy Bool.false_ne_true
  zero_le_mul := by
    intro x y hx hy hxy
    rw [isNaN_eq_false_iff] at hxy
    rcases zero_le_iff.mp hx with ⟨p, hp, rfl⟩ | rfl
    · rcases zero_le_iff.mp hy with ⟨q, hq, rfl⟩ | rfl
      · exact zero_le_iff.mpr (.inl ⟨p * q, mul_nonneg hp hq, rfl⟩)
      · rw [finite_mul_posInf_of_nonneg hp hxy]
        rfl
    · rcases zero_le_iff.mp hy with ⟨q, hq, rfl⟩ | rfl
      · rw [mul_comm] at hxy ⊢
        rw [finite_mul_posInf_of_nonneg hq hxy]
        rfl
      · rfl

end Exact

end Keyspace
