import Mathlib
import Keyspace.Proofs.Scalar.Ordered

/-!
# Doubles keep the order of numbers

A double is a word of sign, exponent and mantissa.  Its operations take the words apart
(`unpacked`), compute on integers, round the result to a mantissa of 53 bits and pack it again
(`repacked`).  Two things are shown of this:

* the comparison of doubles goes by their `position`, sign first, then exponent, then mantissa
  (`le_iff`, `lt_iff`), because unpacked doubles are canonical (`isCanonical_of_unpacked`);
* rounding does not lead below a double that the exact result is not below
  (`exists_le_roundWithAccuracy`).

Hence doubles satisfy the laws of verification, `keepsOrder`.
-/

namespace Keyspace.Binary64

open Float.Model (Format UnpackedFloat totalExponent)
open Float.Model.UnpackedFloat

/-! ### Order -/

/-- A double taken apart. -/
def unpacked (x : Float) : UnpackedFloat := x.toModel.unpack

/-- Where an unpacked double stands among numbers: by sign, then by exponent, then by mantissa. -/
def position : UnpackedFloat → ℤ ×ₗ ℤ ×ₗ ℤ
  | .infinity .positive => toLex (2, toLex (0, 0))
  | .finite .positive m e _ => toLex (1, toLex (e, m))
  | .zero _ | .notANumber => toLex (0, toLex (0, 0))
  | .finite .negative m e _ => toLex (-1, toLex (-e, -m))
  | .infinity .negative => toLex (-2, toLex (0, 0))

theorem compare_neg (a b : ℤ) : compare (-a) (-b) = (compare a b).swap := by
  have hanti : StrictAnti fun a : ℤ => -a := fun _ _ h => neg_lt_neg h
  rw [← cmp_eq_compare, ← cmp_eq_compare, cmp_swap]
  exact hanti.cmp_map_eq a b

theorem compare_cast (a b : ℕ) : compare (a : ℤ) (b : ℤ) = compare a b := by
  rw [← cmp_eq_compare, ← cmp_eq_compare, Nat.strictMono_cast.cmp_map_eq]

/-- Numbers are compared by position. -/
theorem compare_eq {u v : UnpackedFloat} (hu : u ≠ .notANumber) (hv : v ≠ .notANumber) :
    u.compare v = some (compare (position u) (position v)) := by
  cases u with
  | notANumber => exact absurd rfl hu
  | infinity s =>
    cases v with
    | notANumber => exact absurd rfl hv
    | infinity t => cases s <;> cases t <;> rfl
    | zero t => cases s <;> rfl
    | finite t => cases s <;> cases t <;> rfl
  | zero s =>
    cases v with
    | notANumber => exact absurd rfl hv
    | infinity t => cases t <;> rfl
    | zero t => rfl
    | finite t => cases t <;> rfl
  | finite s m e =>
    cases v with
    | notANumber => exact absurd rfl hv
    | infinity t => cases s <;> cases t <;> rfl
    | zero t => cases s <;> rfl
    | finite t m' e' =>
      cases s with
      | negative =>
        cases t with
        | negative =>
          show some ((compare e e').then (compare m m')).swap
            = some ((compare (-e) (-e')).then (compare (-m : ℤ) (-m' : ℤ)))
          rw [compare_neg, compare_neg, compare_cast, Ordering.swap_then]
        | positive => rfl
      | positive =>
        cases t with
        | negative => rfl
        | positive =>
          show some ((compare e e').then (compare m m'))
            = some ((compare e e').then (compare (m : ℤ) m'))
          rw [compare_cast]

theorem compare_eq_some_iff {u v : UnpackedFloat} {o : Ordering} :
    u.compare v = some o ↔
      u ≠ .notANumber ∧ v ≠ .notANumber ∧ compare (position u) (position v) = o := by
  by_cases hu : u = .notANumber
  · subst hu
    exact iff_of_false nofun fun h => h.1 rfl
  · by_cases hv : v = .notANumber
    · subst hv
      exact iff_of_false (by cases u <;> nofun) fun h => h.2.1 rfl
    · rw [compare_eq hu hv, Option.some.injEq]
      exact ⟨fun h => ⟨hu, hv, h⟩, fun h => h.2.2⟩

variable {x y : Float}

theorem isNaN_iff : Scalar.isNaN x = true ↔ unpacked x = .notANumber := by
  have hsame : Scalar.same x x = true ↔ unpacked x ≠ .notANumber := by
    show ((unpacked x).compare (unpacked x) == some .eq) = true ↔ _
    rw [beq_iff_eq, compare_eq_some_iff]
    exact ⟨fun h => h.1, fun h => ⟨h, h, compare_eq_iff_eq.mpr rfl⟩⟩
  rw [Scalar.isNaN, Bool.not_eq_true', ← Bool.not_eq_true, hsame, not_not]

theorem isNaN_eq_false_iff : Scalar.isNaN x = false ↔ unpacked x ≠ .notANumber := by
  rw [← Bool.not_eq_true, isNaN_iff]

theorem le_iff : Scalar.le x y = true ↔
    unpacked x ≠ .notANumber ∧ unpacked y ≠ .notANumber ∧
      position (unpacked x) ≤ position (unpacked y) := by
  have hle : Scalar.le x y = ((unpacked x).compare (unpacked y)).any (·.isLE) := by
    show decide (decide ((unpacked x).le (unpacked y) = true) = true) = _
    rw [Bool.decide_eq_true, Bool.decide_eq_true, UnpackedFloat.le]
  have hcompare : position (unpacked x) ≤ position (unpacked y) ↔
      (compare (position (unpacked x)) (position (unpacked y))).isLE = true :=
    (Ordering.isLE_iff_ne_gt.trans compare_le_iff_le).symm
  rw [hle, Option.any_eq_true, hcompare]
  constructor
  · rintro ⟨o, h, ho⟩
    obtain ⟨hx, hy, rfl⟩ := compare_eq_some_iff.mp h
    exact ⟨hx, hy, ho⟩
  · rintro ⟨hx, hy, ho⟩
    exact ⟨_, compare_eq hx hy, ho⟩

theorem lt_iff : Scalar.lt x y = true ↔
    unpacked x ≠ .notANumber ∧ unpacked y ≠ .notANumber ∧
      position (unpacked x) < position (unpacked y) := by
  have hlt : Scalar.lt x y = ((unpacked x).compare (unpacked y) == some .lt) := by
    show decide (decide ((unpacked x).lt (unpacked y) = true) = true) = _
    rw [Bool.decide_eq_true, Bool.decide_eq_true, UnpackedFloat.lt]
  rw [hlt, beq_iff_eq, compare_eq_some_iff]
  exact and_congr_right fun _ => and_congr_right fun _ => compare_lt_iff_lt

/-! ### Packing -/

/-- An unpacked double after it was packed. -/
def repacked (u : UnpackedFloat) : UnpackedFloat :=
  unpack Format.binary64 (pack Format.binary64 u)

@[simp]
theorem repacked_notANumber : repacked .notANumber = .notANumber := rfl

@[simp]
theorem repacked_infinity (s : Sign) : repacked (.infinity s) = .infinity s := by
  cases s <;> rfl

@[simp]
theorem repacked_zero (s : Sign) : repacked (.zero s) = .zero s := by
  cases s <;> rfl

/-- A mantissa of 53 bits, or of fewer at the least exponent. -/
structure IsCanonical (m : ℕ) (e : ℤ) : Prop where
  lt : m < 2 ^ 53
  le : -1074 ≤ e
  normal : 2 ^ 52 ≤ m ∨ e = -1074

section Components

variable (s : Sign) (e : BitVec 11) (m : BitVec 52)

/-- A normal mantissa is stored without its first bit. -/
theorem toNat_append_one : (1#1 ++ m).toNat = 2 ^ 52 + m.toNat := by
  rw [BitVec.toNat_append, ← Nat.shiftLeft_add_eq_or_of_lt m.isLt]
  rfl

theorem unpack_normal (he : e ≠ -1#11) (he' : e ≠ 0#11) :
    unpack Format.binary64 (packComponents Format.binary64 s e m)
      = .finite s (2 ^ 52 + m.toNat) (e.toNat - 1075) (by omega) := by
  unfold unpack
  simp only [unpackMantissa_packComponents, unpackExponent_packComponents,
    unpackSign_packComponents, Sign.ofBitVec_toBitVec, he, he', if_false, toNat_append_one]
  rfl

theorem unpack_subnormal (hm : 0 < m.toNat) :
    unpack Format.binary64 (packComponents Format.binary64 s 0#11 m)
      = .finite s m.toNat (-1074) hm := by
  have hzero : m ≠ 0#52 := by
    rintro rfl
    exact absurd hm (by decide)
  unfold unpack
  simp only [unpackMantissa_packComponents, unpackExponent_packComponents,
    unpackSign_packComponents, Sign.ofBitVec_toBitVec]
  rw [if_neg (by decide), dif_neg hzero]
  rfl

end Components

section Finite

variable (s : Sign) {m : ℕ} (e : ℤ) (h : 0 < m)

/-- A finite double is packed as an infinity, as a normal double or as a subnormal one. -/
theorem pack_finite :
    pack Format.binary64 (.finite s m e h) =
      if 2047 ≤ (e + 1075).toNat then packedInfinity Format.binary64 s
      else if m.log2 = 52 then
        packComponents Format.binary64 s (BitVec.ofNat 11 (e + 1075).toNat) (BitVec.ofNat 52 m)
      else packComponents Format.binary64 s 0#11 (BitVec.ofNat 52 m) := by
  have hbias : e + (Format.binary64.exponentBias : ℤ) + (52 : ℕ) = e + 1075 := by
    have : (Format.binary64.exponentBias : ℤ) = 1023 := by decide
    omega
  have hbits : (m.log2 + 1 = Format.binary64.mantissaBits) = (m.log2 = 52) := by
    rw [show Format.binary64.mantissaBits = 52 + 1 from rfl, Nat.add_right_cancel_iff]
  have hexponent : (2 ^ 11 ≤ (e + 1075).toNat + 1) = (2047 ≤ (e + 1075).toNat) :=
    propext (by omega)
  unfold pack
  simp only [hbias, hbits, hexponent]

/-- A canonical double is kept if its exponent fits, and is infinite otherwise. -/
theorem repacked_finite (hc : IsCanonical m e) :
    repacked (.finite s m e h) = if e ≤ 971 then .finite s m e h else .infinity s := by
  have hleast : -1074 ≤ e := hc.le
  rw [repacked, pack_finite]
  by_cases he : e ≤ 971
  · rw [if_pos he, if_neg (by omega)]
    by_cases hm : 2 ^ 52 ≤ m
    · have hexponent : (BitVec.ofNat 11 (e + 1075).toNat).toNat = (e + 1075).toNat := by
        rw [BitVec.toNat_ofNat, Nat.mod_eq_of_lt (by omega)]
      have hmantissa : 2 ^ 52 + (BitVec.ofNat 52 m).toNat = m := by
        have := hc.lt
        rw [BitVec.toNat_ofNat]
        omega
      have hne (b : BitVec 11) (hb : b.toNat ≠ (e + 1075).toNat) :
          BitVec.ofNat 11 (e + 1075).toNat ≠ b := by
        rintro rfl
        exact hb hexponent
      rw [if_pos ((Nat.log2_eq_iff h.ne').mpr ⟨hm, hc.lt⟩),
        unpack_normal s _ _ (hne _ (show 2047 ≠ _ by omega)) (hne _ (show 0 ≠ _ by omega))]
      simp only [hexponent, hmantissa]
      congr 1
      omega
    · obtain rfl := hc.normal.resolve_left hm
      have hmantissa : (BitVec.ofNat 52 m).toNat = m := by
        rw [BitVec.toNat_ofNat, Nat.mod_eq_of_lt (not_le.mp hm)]
      rw [if_neg fun hlog => hm ((Nat.log2_eq_iff h.ne').mp hlog).1,
        unpack_subnormal s _ (by rwa [hmantissa])]
      simp only [hmantissa]
  · rw [if_neg he, if_pos (by omega)]
    exact repacked_infinity s

/-- Packing keeps the sign and makes no number into something else. -/
theorem repacked_finite_cases :
    repacked (.finite s m e h) = .infinity s ∨ repacked (.finite s m e h) = .zero s ∨
      ∃ m' e' h', repacked (.finite s m e h) = .finite s m' e' h' := by
  have hcomponents (e : BitVec 11) (m : BitVec 52) (he : e ≠ -1#11) :
      unpack Format.binary64 (packComponents Format.binary64 s e m) = .zero s ∨ ∃ m' e' h',
        unpack Format.binary64 (packComponents Format.binary64 s e m) = .finite s m' e' h' := by
    by_cases he' : e = 0#11
    · subst he'
      rcases Nat.eq_zero_or_pos m.toNat with hm | hm
      · obtain rfl : m = 0#52 := BitVec.eq_of_toNat_eq hm
        exact .inl (repacked_zero s)
      · exact .inr ⟨_, _, _, unpack_subnormal s m hm⟩
    · exact .inr ⟨_, _, _, unpack_normal s e m he he'⟩
  rw [repacked, pack_finite]
  split_ifs with hover
  · exact .inl (repacked_infinity s)
  · refine .inr (hcomponents _ _ fun heq => hover ?_)
    have hmod : (e + 1075).toNat % 2 ^ 11 = 2047 := congrArg BitVec.toNat heq
    omega
  · exact .inr (hcomponents _ _ (by decide))

end Finite

/-- Doubles are stored in canonical form. -/
theorem isCanonical_of_unpacked {s : Sign} {m : ℕ} {e : ℤ} {h : 0 < m}
    (hx : unpacked x = .finite s m e h) : IsCanonical m e ∧ e ≤ 971 := by
  have hbias : (Format.binary64.exponentBias : ℤ) = 1023 := by decide
  unfold unpacked Float.Model.unpack unpack at hx
  simp only [hbias] at hx
  set mantissa := @unpackMantissa Format.binary64 x.toModel.toBits.toBitVec
  set exponent := @unpackExponent Format.binary64 x.toModel.toBits.toBitVec
  have hmantissa : mantissa.toNat < 2 ^ 52 := mantissa.isLt
  have hexponent : exponent.toNat < 2 ^ 11 := exponent.isLt
  split_ifs at hx with hinfinity hnan hsubnormal hzero
  · obtain ⟨-, rfl, rfl⟩ := UnpackedFloat.finite.inj hx
    rw [hsubnormal]
    exact ⟨⟨by omega, by decide, .inr (by decide)⟩, by decide⟩
  · obtain ⟨-, rfl, rfl⟩ := UnpackedFloat.finite.inj hx
    have hlower : exponent.toNat ≠ 0 := fun h => hsubnormal (BitVec.eq_of_toNat_eq h)
    have hupper : exponent.toNat ≠ 2047 := fun h => hinfinity (BitVec.eq_of_toNat_eq h)
    rw [toNat_append_one]
    push_cast
    exact ⟨⟨by omega, by omega, .inl (by omega)⟩, by omega⟩

theorem repacked_unpacked (x : Float) : repacked (unpacked x) = unpacked x := by
  cases hx : unpacked x with
  | infinity s => exact repacked_infinity s
  | notANumber => rfl
  | zero s => exact repacked_zero s
  | finite s m e h =>
    obtain ⟨hc, he⟩ := isCanonical_of_unpacked hx
    rw [repacked_finite s e h hc, if_pos he]

/-! ### Rounding -/

theorem mantissa_shiftRight (em : ExtendedMantissa) (k : ℕ) :
    (em >>> k).mantissa = em.mantissa / 2 ^ k := by
  induction k with
  | zero => exact (Nat.div_one _).symm
  | succ k ih =>
    show (em >>> k).mantissa / 2 = em.mantissa / 2 ^ (k + 1)
    rw [ih, Nat.div_div_eq_div_mul, pow_succ]

theorem roundedMantissa_bounds (em : ExtendedMantissa) :
    em.mantissa ≤ em.roundedMantissa ∧ em.roundedMantissa ≤ em.mantissa + 1 := by
  rcases em with ⟨m, r, s⟩
  cases r <;> cases s <;>
    simp only [ExtendedMantissa.roundedMantissa, ExtendedMantissa.accuracy,
      Accuracy.roundToNearestEven] <;> omega

/-- The exponent at which a mantissa has 53 bits, or the least one. -/
def grid (m : ℕ) (e : ℤ) : ℤ := max (m.log2 + e - 52) (-1074)

theorem targetExponent_eq (m : ℕ) (e : ℤ) :
    Format.binary64.targetExponent (totalExponent m e) = grid m e := by
  have hbits : (Format.binary64.mantissaBits : ℤ) = 53 := by decide
  have hmin : Format.binary64.minExponent = -1074 := by decide
  rw [Format.targetExponent, totalExponent, hbits, hmin, grid]
  omega

theorem shift_eq (m : ℕ) (e : ℤ) :
    (shiftToTargetExponent Format.binary64 m e .exact).1.mantissa = m / 2 ^ (grid m e - e).toNat ∧
    (shiftToTargetExponent Format.binary64 m e .exact).2 = e + (grid m e - e).toNat := by
  simp only [shiftToTargetExponent, shiftToExponent, targetExponent_eq, mantissa_shiftRight,
    and_true]
  rfl

theorem log2_le_of_lt {m : ℕ} (h : m < 2 ^ 53) : m.log2 ≤ 52 := by
  rcases Nat.eq_zero_or_pos m with rfl | hm
  · decide
  · exact Nat.lt_succ_iff.mp ((Nat.log2_lt hm.ne').mpr h)

/-- What fits is shifted no further. -/
theorem shift_of_lt {m : ℕ} {e : ℤ} (hm : m < 2 ^ 53) (he : -1074 ≤ e) :
    (shiftToTargetExponent Format.binary64 m e .exact).1.mantissa = m ∧
    (shiftToTargetExponent Format.binary64 m e .exact).2 = e := by
  have hlog := log2_le_of_lt hm
  have hzero : (grid m e - e).toNat = 0 := by
    unfold grid
    omega
  have hshift := shift_eq m e
  rwa [hzero, pow_zero, Nat.div_one, Nat.cast_zero, add_zero] at hshift

/-- A carry is shifted by one. -/
theorem shift_carry {e : ℤ} (he : -1074 ≤ e) :
    (shiftToTargetExponent Format.binary64 (2 ^ 53) e .exact).1.mantissa = 2 ^ 52 ∧
    (shiftToTargetExponent Format.binary64 (2 ^ 53) e .exact).2 = e + 1 := by
  have hone : (grid (2 ^ 53) e - e).toNat = 1 := by
    unfold grid
    rw [Nat.log2_two_pow]
    omega
  have hshift := shift_eq (2 ^ 53) e
  rwa [hone] at hshift

/-- A mantissa of at most 53 bits after rounding, which may have carried into the next one. -/
theorem exists_roundWithAccuracy_eq (s : Sign) (m : ℕ) (e : ℤ) (he : e ≤ grid m e) :
    ∃ r, m / 2 ^ (grid m e - e).toNat ≤ r ∧ r ≤ m / 2 ^ (grid m e - e).toNat + 1 ∧
      ∀ hr : 0 < r,
        (r < 2 ^ 53 → roundWithAccuracy Format.binary64 s m e .exact = .finite s r (grid m e) hr) ∧
        (r = 2 ^ 53 → roundWithAccuracy Format.binary64 s m e .exact
          = .finite s (2 ^ 52) (grid m e + 1) (by decide)) := by
  obtain ⟨hm, he'⟩ := shift_eq m e
  have hround := roundedMantissa_bounds (shiftToTargetExponent Format.binary64 m e .exact).1
  rw [hm] at hround
  have he' : (shiftToTargetExponent Format.binary64 m e .exact).2 = grid m e := by omega
  have hgrid : -1074 ≤ grid m e := le_max_right _ _
  refine ⟨_, hround.1, hround.2, fun hr => ⟨fun h => ?_, fun h => ?_⟩⟩
  · obtain ⟨hm₂, he₂⟩ := shift_of_lt h hgrid
    unfold UnpackedFloat.roundWithAccuracy
    simp only [he']
    split_ifs with hzero
    · omega
    · simp only [hm₂, he₂]
  · obtain ⟨hm₂, he₂⟩ := shift_carry hgrid
    unfold UnpackedFloat.roundWithAccuracy
    simp only [he', h]
    split_ifs with hzero
    · exact absurd (hm₂.symm.trans hzero) (by decide)
    · simp only [hm₂, he₂]

/-- The shifted mantissa is below `2 ^ 53`, and above `2 ^ 52` unless the exponent is the least. -/
theorem div_bounds {m : ℕ} {e : ℤ} (hm : 0 < m) (he : e ≤ grid m e) :
    m / 2 ^ (grid m e - e).toNat < 2 ^ 53 ∧
      (2 ^ 52 ≤ m / 2 ^ (grid m e - e).toNat ∨ grid m e = -1074) := by
  have hlower : 2 ^ m.log2 ≤ m := Nat.log2_self_le hm.ne'
  have hupper : m < 2 ^ (m.log2 + 1) := Nat.lt_log2_self
  rw [Nat.div_lt_iff_lt_mul (Nat.two_pow_pos _), Nat.le_div_iff_mul_le (Nat.two_pow_pos _),
    ← pow_add, ← pow_add]
  constructor
  · refine hupper.trans_le (Nat.pow_le_pow_right two_pos ?_)
    unfold grid
    omega
  · by_cases hleast : grid m e = -1074
    · exact .inr hleast
    · refine .inl (le_trans (Nat.pow_le_pow_right two_pos ?_) hlower)
      unfold grid at he hleast ⊢
      omega

/-- A double that a value is not below is not above the grid of the value. -/
theorem le_grid {m m' : ℕ} {e e' : ℤ} (hc : IsCanonical m e)
    (hle : (m : ℚ) * 2 ^ e ≤ m' * 2 ^ e') : e ≤ grid m' e' := by
  rcases hc.normal with hm | rfl
  · have hupper : m' < 2 ^ (m'.log2 + 1) := Nat.lt_log2_self
    have hpow : (2 : ℚ) ^ ((52 : ℤ) + e) < 2 ^ ((m'.log2 + 1 : ℤ) + e') := by
      rw [zpow_add₀ two_ne_zero, zpow_add₀ two_ne_zero]
      calc (2 : ℚ) ^ (52 : ℤ) * 2 ^ e ≤ m * 2 ^ e := by
            refine mul_le_mul_of_nonneg_right ?_ (zpow_pos two_pos e).le
            exact_mod_cast hm
        _ ≤ m' * 2 ^ e' := hle
        _ < 2 ^ (m'.log2 + 1 : ℤ) * 2 ^ e' := by
            refine mul_lt_mul_of_pos_right ?_ (zpow_pos two_pos e')
            exact_mod_cast hupper
    have hexp := (zpow_lt_zpow_iff_right₀ one_lt_two).mp hpow
    unfold grid
    omega
  · exact le_max_right _ _

theorem pos_of_mul_zpow_le {m m' : ℕ} {e e' : ℤ} (hm : 0 < m)
    (hle : (m : ℚ) * 2 ^ e ≤ m' * 2 ^ e') : 0 < m' := by
  have hpos : (0 : ℚ) < m' * 2 ^ e' :=
    (mul_pos (Nat.cast_pos.mpr hm) (zpow_pos two_pos e)).trans_le hle
  exact Nat.cast_pos.mp ((mul_pos_iff_of_pos_right (zpow_pos two_pos e')).mp hpos)

/-- Rounding does not lead below a double that the exact value is not below. -/
theorem exists_le_roundWithAccuracy (s : Sign) {m m' : ℕ} {e e' : ℤ} (hc : IsCanonical m e)
    (hm : 0 < m) (he' : e' ≤ grid m' e') (hle : (m : ℚ) * 2 ^ e ≤ m' * 2 ^ e') :
    ∃ r g h, roundWithAccuracy Format.binary64 s m' e' .exact = .finite s r g h ∧
      IsCanonical r g ∧ (e < g ∨ e = g ∧ m ≤ r) := by
  have hm' : 0 < m' := pos_of_mul_zpow_le hm hle
  obtain ⟨r, hlower, hupper, hround⟩ := exists_roundWithAccuracy_eq s m' e' he'
  obtain ⟨hlt, hnormal⟩ := div_bounds hm' he'
  have hleast : -1074 ≤ grid m' e' := le_max_right _ _
  -- on the same grid the mantissas compare as the values do
  have hmantissa (heq : e = grid m' e') : m ≤ m' / 2 ^ (grid m' e' - e').toNat := by
    rw [Nat.le_div_iff_mul_le (Nat.two_pow_pos _)]
    have hk : e = ((grid m' e' - e').toNat : ℤ) + e' := by omega
    rw [hk, zpow_add₀ two_ne_zero, ← mul_assoc, mul_le_mul_iff_left₀ (zpow_pos two_pos e')] at hle
    exact_mod_cast hle
  have hposition : e < grid m' e' ∨ e = grid m' e' ∧ m ≤ r := by
    rcases (le_grid hc hle).lt_or_eq with hlt | heq
    · exact .inl hlt
    · exact .inr ⟨heq, (hmantissa heq).trans hlower⟩
  have hcanonical : 2 ^ 52 ≤ r ∨ grid m' e' = -1074 := hnormal.imp_left fun h => h.trans hlower
  have hr : 0 < r := by
    have := hc.le
    omega
  rcases (show r ≤ 2 ^ 53 by omega).lt_or_eq with hfits | hcarry
  · exact ⟨r, _, hr, (hround hr).1 hfits, ⟨hfits, hleast, hcanonical⟩, hposition⟩
  · refine ⟨2 ^ 52, _, _, (hround hr).2 hcarry, ⟨by decide, by omega, .inl le_rfl⟩, .inl ?_⟩
    omega

theorem log2_shiftLeft {m : ℕ} (hm : 0 < m) (k : ℕ) : (m <<< k).log2 = m.log2 + k := by
  have hlower : 2 ^ m.log2 ≤ m := Nat.log2_self_le hm.ne'
  have hupper : m < 2 ^ (m.log2 + 1) := Nat.lt_log2_self
  have hpow : 0 < 2 ^ k := Nat.two_pow_pos k
  rw [Nat.shiftLeft_eq, Nat.log2_eq_iff (Nat.mul_pos hm hpow).ne', pow_add]
  refine ⟨Nat.mul_le_mul_right _ hlower, ?_⟩
  rw [Nat.add_right_comm, pow_add]
  exact Nat.mul_lt_mul_of_pos_right hupper hpow

/-- Shifting the mantissa against the exponent keeps the value. -/
theorem shiftLeft_mul_zpow (m k : ℕ) (e : ℤ) :
    ((m <<< k : ℕ) : ℚ) * 2 ^ (e - k) = m * 2 ^ e := by
  have hsplit : (2 : ℚ) ^ e = 2 ^ (k : ℤ) * 2 ^ (e - k) := by
    rw [← zpow_add₀ two_ne_zero, add_sub_cancel]
  rw [Nat.shiftLeft_eq, hsplit, zpow_natCast, ← mul_assoc]
  push_cast
  rfl

/-- The same for a mantissa that is first brought up to 53 bits. -/
theorem exists_le_round (s : Sign) {m m' : ℕ} {e e' : ℤ} (hc : IsCanonical m e) (hm : 0 < m)
    (hle : (m : ℚ) * 2 ^ e ≤ m' * 2 ^ e') :
    ∃ r g h, UnpackedFloat.round Format.binary64 s m' e' = .finite s r g h ∧ IsCanonical r g ∧
      (e < g ∨ e = g ∧ m ≤ r) := by
  have hm' : 0 < m' := pos_of_mul_zpow_le hm hle
  have hround : UnpackedFloat.round Format.binary64 s m' e'
      = roundWithAccuracy Format.binary64 s (m' <<< (e' - grid m' e').toNat)
          (e' - (e' - grid m' e').toNat) .exact := by
    rw [UnpackedFloat.round, decreaseExponent, targetExponent_eq]
  rw [hround]
  refine exists_le_roundWithAccuracy s hc hm ?_ ?_
  · simp only [grid, log2_shiftLeft hm']
    omega
  · rwa [shiftLeft_mul_zpow]

/-! ### Operations -/

theorem unpacked_add (x y : Float) :
    unpacked (x + y) = repacked (add Format.binary64 (unpacked x) (unpacked y)) := rfl

theorem unpacked_sub (x y : Float) :
    unpacked (x - y) = repacked (sub Format.binary64 (unpacked x) (unpacked y)) := rfl

theorem unpacked_mul (x y : Float) :
    unpacked (x * y) = repacked (mul Format.binary64 (unpacked x) (unpacked y)) := rfl

theorem unpacked_abs (x : Float) :
    unpacked (Scalar.abs x) = repacked (UnpackedFloat.abs (unpacked x)) := rfl

theorem unpacked_zero : unpacked Scalar.zero = .zero .positive := by
  rfl

theorem unpacked_one : unpacked Scalar.one = .finite .positive (2 ^ 52) (-52) (by decide) := by
  rfl

theorem unpacked_emptySum : unpacked Scalar.emptySum = .zero .negative := by
  rfl

theorem repacked_ne_notANumber {u : UnpackedFloat} (h : u ≠ .notANumber) :
    repacked u ≠ .notANumber := by
  cases u with
  | notANumber => exact absurd rfl h
  | infinity s => rw [repacked_infinity]; nofun
  | zero s => rw [repacked_zero]; nofun
  | finite s m e hm =>
    rcases repacked_finite_cases s e hm with heq | heq | ⟨_, _, _, heq⟩ <;> rw [heq] <;> nofun

/-- Rounding a number gives one with the same sign. -/
theorem roundWithAccuracy_cases (s : Sign) (m : ℕ) (e : ℤ) (a : Accuracy) :
    roundWithAccuracy Format.binary64 s m e a = .zero s ∨
      ∃ m' e' h, roundWithAccuracy Format.binary64 s m e a = .finite s m' e' h := by
  unfold UnpackedFloat.roundWithAccuracy
  dsimp only
  split_ifs with hzero
  · exact .inl rfl
  · exact .inr ⟨_, _, Nat.pos_of_ne_zero hzero, rfl⟩

theorem round_ne_notANumber (s : Sign) (m : ℕ) (e : ℤ) :
    UnpackedFloat.round Format.binary64 s m e ≠ .notANumber := by
  unfold UnpackedFloat.round
  dsimp only
  rcases roundWithAccuracy_cases s (decreaseExponent m e _).1 (decreaseExponent m e _).2 .exact with
    heq | ⟨_, _, _, heq⟩ <;> rw [heq] <;> nofun

theorem normalize_ne_notANumber (m e : ℤ) (s : Sign) :
    UnpackedFloat.normalize Format.binary64 m e s ≠ .notANumber := by
  unfold UnpackedFloat.normalize
  split
  · exact round_ne_notANumber _ _ _
  · nofun
  · exact round_ne_notANumber _ _ _

/-- Doubles tell numbers from other values. -/
instance spreadsNaN : Scalar.SpreadsNaN Float where
  lt_eq_false_iff x y := by
    rw [← Bool.not_eq_true, lt_iff, isNaN_iff, isNaN_iff, le_iff, ← not_lt]
    tauto
  isNaN_of_le h := by
    obtain ⟨hx, hy, -⟩ := le_iff.mp h
    exact ⟨isNaN_eq_false_iff.mpr hx, isNaN_eq_false_iff.mpr hy⟩
  isNaN_abs x := by
    rw [Bool.eq_iff_iff, isNaN_iff, isNaN_iff, unpacked_abs]
    cases unpacked x with
    | notANumber => exact iff_of_true rfl rfl
    | infinity | zero | finite => exact iff_of_false (repacked_ne_notANumber nofun) nofun
  isNaN_sub_one x := by
    rw [Bool.eq_iff_iff, isNaN_iff, isNaN_iff, unpacked_sub, unpacked_one]
    cases unpacked x with
    | notANumber => exact iff_of_true rfl rfl
    | infinity | zero => exact iff_of_false (repacked_ne_notANumber nofun) nofun
    | finite =>
      exact iff_of_false (repacked_ne_notANumber (normalize_ne_notANumber _ _ _)) nofun
  isNaN_sub y h := by
    rw [isNaN_iff] at h ⊢
    rw [unpacked_sub, h]
    exact repacked_notANumber
  isNaN_add := by
    intro x y h
    rw [isNaN_iff, isNaN_iff] at h
    rw [isNaN_iff, unpacked_add]
    rcases h with h | h
    · rw [h]
      exact repacked_notANumber
    · rw [h]
      cases unpacked x <;> exact repacked_notANumber
  isNaN_mul := by
    intro x y h
    rw [isNaN_iff, isNaN_iff] at h
    rw [isNaN_iff, unpacked_mul]
    rcases h with h | h
    · rw [h]
      exact repacked_notANumber
    · rw [h]
      cases unpacked x <;> exact repacked_notANumber

/-! ### What is not negative -/

/-- A number that is not negative; both zeros are such. -/
inductive IsNonneg : UnpackedFloat → Prop
  | infinity : IsNonneg (.infinity .positive)
  | zero (s : Sign) : IsNonneg (.zero s)
  | finite (m : ℕ) (e : ℤ) (h : 0 < m) : IsNonneg (.finite .positive m e h)

section Nonneg

variable {u v : UnpackedFloat}

theorem isNonneg_iff :
    IsNonneg u ↔ u ≠ .notANumber ∧ position (.zero .positive) ≤ position u := by
  cases u with
  | notANumber => exact iff_of_false nofun fun h => h.1 rfl
  | zero s => exact iff_of_true (.zero s) ⟨nofun, le_rfl⟩
  | infinity s =>
    cases s with
    | positive => exact iff_of_true .infinity ⟨nofun, by decide⟩
    | negative => exact iff_of_false nofun fun h => absurd h.2 (by decide)
  | finite s m e hm =>
    cases s with
    | positive =>
      exact iff_of_true (.finite m e hm) ⟨nofun, Prod.Lex.toLex_le_toLex.mpr (.inl zero_lt_one)⟩
    | negative =>
      refine iff_of_false nofun fun h => ?_
      rcases Prod.Lex.toLex_le_toLex.mp h.2 with h | h
      · exact absurd h (show ¬ (0 : ℤ) < -1 by decide)
      · exact absurd h.1 (show ¬ (0 : ℤ) = -1 by decide)

theorem zero_le_iff : Scalar.le Scalar.zero x = true ↔ IsNonneg (unpacked x) := by
  rw [le_iff, unpacked_zero, isNonneg_iff]
  exact and_iff_right nofun

theorem IsNonneg.position_zero_le (h : IsNonneg u) (s : Sign) :
    position (.zero s) ≤ position u :=
  (isNonneg_iff.mp h).2

theorem IsNonneg.position_le_infinity (h : IsNonneg u) :
    position u ≤ position (Binary64.repacked (.infinity .positive)) := by
  rw [repacked_infinity]
  cases h with
  | infinity => exact le_rfl
  | zero s => cases s <;> decide
  | finite => exact Prod.Lex.toLex_le_toLex.mpr (.inl one_lt_two)

theorem IsNonneg.repacked (h : IsNonneg u) : IsNonneg (Binary64.repacked u) := by
  cases h with
  | infinity =>
    rw [repacked_infinity]
    exact .infinity
  | zero s =>
    rw [repacked_zero]
    exact .zero s
  | finite m e hm =>
    rcases repacked_finite_cases .positive e hm with heq | heq | ⟨_, _, _, heq⟩ <;> rw [heq]
    · exact .infinity
    · exact .zero _
    · exact .finite _ _ _

theorem isNonneg_roundWithAccuracy (m : ℕ) (e : ℤ) (a : Accuracy) :
    IsNonneg (roundWithAccuracy Format.binary64 .positive m e a) := by
  rcases roundWithAccuracy_cases .positive m e a with heq | ⟨_, _, _, heq⟩ <;> rw [heq]
  · exact .zero _
  · exact .finite _ _ _

theorem normalize_of_pos {m : ℕ} (hm : 0 < m) (e : ℤ) (s : Sign) :
    UnpackedFloat.normalize Format.binary64 m e s
      = UnpackedFloat.round Format.binary64 .positive m e := by
  have hcompare : compare (m : ℤ) 0 = .gt := compare_gt_iff_gt.mpr (Nat.cast_pos.mpr hm)
  rw [UnpackedFloat.normalize, hcompare, Int.toNat_natCast]

theorem add_finite {m m' : ℕ} (e e' : ℤ) (hm : 0 < m) (hm' : 0 < m') :
    add Format.binary64 (.finite .positive m e hm) (.finite .positive m' e' hm')
      = UnpackedFloat.round Format.binary64 .positive
          (m <<< (e - min e e').toNat + m' <<< (e' - min e e').toNat) (min e e') := by
  have hpos : 0 < m <<< (e - min e e').toNat + m' <<< (e' - min e e').toNat := by
    rw [Nat.shiftLeft_eq]
    positivity
  rw [← normalize_of_pos hpos _ .positive]
  exact congrArg (UnpackedFloat.normalize Format.binary64 · _ _) (Nat.cast_add _ _).symm

theorem IsNonneg.add (hu : IsNonneg u) (hv : IsNonneg v) :
    IsNonneg (add Format.binary64 u v) := by
  cases hu with
  | infinity => cases hv <;> exact .infinity
  | zero s =>
    cases hv with
    | infinity => exact .infinity
    | zero t => cases s <;> cases t <;> exact .zero _
    | finite => exact .finite _ _ _
  | finite m e hm =>
    cases hv with
    | infinity => exact .infinity
    | zero t => exact .finite m e hm
    | finite m' e' hm' =>
      rw [add_finite]
      exact isNonneg_roundWithAccuracy _ _ _

theorem isNonneg_normalize (m : ℕ) (e : ℤ) :
    IsNonneg (UnpackedFloat.normalize Format.binary64 m e .positive) := by
  rcases Nat.eq_zero_or_pos m with rfl | hm
  · exact .zero _
  · rw [normalize_of_pos hm]
    exact isNonneg_roundWithAccuracy _ _ _

theorem IsNonneg.mul_finite (hu : IsNonneg u) (m : ℕ) (e : ℤ) (hm : 0 < m) :
    IsNonneg (mul Format.binary64 u (.finite .positive m e hm)) := by
  cases hu with
  | infinity => exact .infinity
  | zero => exact .zero _
  | finite m' e' => exact isNonneg_roundWithAccuracy (m' * m) (e' + e) .exact

/-- Only an infinity times zero is not a number. -/
theorem IsNonneg.mul (hu : IsNonneg u) (hv : IsNonneg v)
    (huv : mul Format.binary64 u v ≠ .notANumber) : IsNonneg (mul Format.binary64 u v) := by
  cases hv with
  | infinity =>
    cases hu with
    | infinity | finite => exact .infinity
    | zero => exact absurd rfl huv
  | zero t =>
    cases hu with
    | infinity => exact absurd rfl huv
    | zero | finite => exact .zero _
  | finite m e hm => exact hu.mul_finite m e hm

end Nonneg

/-! ### Sums and products that do not shrink -/

/-- On the way into a word, what is later in the order does not fall behind. -/
theorem position_le_repacked {m r : ℕ} {e g : ℤ} (hm : 0 < m) (hr : 0 < r) (hc : IsCanonical r g)
    (hle : e < g ∨ e = g ∧ m ≤ r) :
    position (.finite .positive m e hm) ≤ position (repacked (.finite .positive r g hr)) := by
  rw [repacked_finite .positive g hr hc]
  split_ifs
  · refine Prod.Lex.toLex_le_toLex.mpr (.inr ⟨rfl, Prod.Lex.toLex_le_toLex.mpr ?_⟩)
    exact hle.imp_right fun h => ⟨h.1, Nat.cast_le.mpr h.2⟩
  · exact Prod.Lex.toLex_le_toLex.mpr (.inl one_lt_two)

section Finite

variable {m m' : ℕ} {e e' : ℤ} (hm : 0 < m) (hm' : 0 < m') (hc : IsCanonical m e)
include hc

/-- A sum is not below its first term. -/
theorem position_le_add :
    position (.finite .positive m e hm)
      ≤ position (repacked (add Format.binary64 (.finite .positive m e hm)
          (.finite .positive m' e' hm'))) := by
  have hle : (m : ℚ) * 2 ^ e
      ≤ (m <<< (e - min e e').toNat + m' <<< (e' - min e e').toNat : ℕ) * 2 ^ (min e e') := by
    have hmin : min e e' = e - (e - min e e').toNat := by omega
    rw [Nat.cast_add, add_mul, ← shiftLeft_mul_zpow m (e - min e e').toNat e, ← hmin]
    exact le_add_of_nonneg_right (mul_nonneg (Nat.cast_nonneg _) (zpow_pos two_pos _).le)
  obtain ⟨r, g, hr, hround, hcanonical, hposition⟩ := exists_le_round .positive hc hm hle
  rw [add_finite, hround]
  exact position_le_repacked hm hr hcanonical hposition

/-- A product is not below its first factor if the second one is at least one. -/
theorem position_le_mul (hlower : 2 ^ 52 ≤ m') (he' : -52 ≤ e') :
    position (.finite .positive m e hm)
      ≤ position (repacked (mul Format.binary64 (.finite .positive m e hm)
          (.finite .positive m' e' hm'))) := by
  have hproduct : mul Format.binary64 (.finite .positive m e hm) (.finite .positive m' e' hm')
      = roundWithAccuracy Format.binary64 .positive (m * m') (e + e') .exact := rfl
  have hlog : 52 ≤ (m * m').log2 :=
    (Nat.le_log2 (Nat.mul_pos hm hm').ne').mpr (hlower.trans (Nat.le_mul_of_pos_left m' hm))
  have hone : (1 : ℚ) ≤ m' * 2 ^ e' := by
    calc (1 : ℚ) = (2 ^ 52 : ℕ) * 2 ^ (-52 : ℤ) := by norm_num
      _ ≤ m' * 2 ^ e' :=
        mul_le_mul (Nat.cast_le.mpr hlower) (zpow_le_zpow_right₀ one_le_two he')
          (zpow_pos two_pos _).le (Nat.cast_nonneg m')
  have hle : (m : ℚ) * 2 ^ e ≤ (m * m' : ℕ) * 2 ^ (e + e') := by
    calc (m : ℚ) * 2 ^ e ≤ m * 2 ^ e * (m' * 2 ^ e') :=
          le_mul_of_one_le_right (mul_nonneg (Nat.cast_nonneg m) (zpow_pos two_pos e).le) hone
      _ = (m * m' : ℕ) * 2 ^ (e + e') := by
          rw [Nat.cast_mul, zpow_add₀ two_ne_zero]
          ring
  have hgrid : e + e' ≤ grid (m * m') (e + e') := by
    unfold grid
    omega
  obtain ⟨r, g, hr, hround, hcanonical, hposition⟩ :=
    exists_le_roundWithAccuracy .positive hc hm hgrid hle
  rw [hproduct, hround]
  exact position_le_repacked hm hr hcanonical hposition

end Finite

/-- What is at least one is infinite, or it has 53 bits and an exponent that is no less than that
of one. -/
inductive IsAtLeastOne : UnpackedFloat → Prop
  | infinity : IsAtLeastOne (.infinity .positive)
  | finite (m : ℕ) (e : ℤ) (h : 0 < m) (hm : 2 ^ 52 ≤ m) (he : -52 ≤ e) :
    IsAtLeastOne (.finite .positive m e h)

theorem isAtLeastOne_of_le (hx : Scalar.le Scalar.one x = true) : IsAtLeastOne (unpacked x) := by
  obtain ⟨-, hnumber, hle⟩ := le_iff.mp hx
  rw [unpacked_one] at hle
  cases hu : unpacked x with
  | notANumber => exact absurd hu hnumber
  | zero s =>
    rw [hu] at hle
    cases s <;> exact absurd hle (by decide)
  | infinity s =>
    rw [hu] at hle
    cases s with
    | positive => exact .infinity
    | negative => exact absurd hle (by decide)
  | finite s m e h =>
    have hcanonical := (isCanonical_of_unpacked hu).1.normal
    rw [hu] at hle
    cases s with
    | negative =>
      rcases Prod.Lex.toLex_le_toLex.mp hle with hlt | heq
      · exact absurd hlt (show ¬ (1 : ℤ) < -1 by decide)
      · exact absurd heq.1 (show ¬ (1 : ℤ) = -1 by decide)
    | positive =>
      rcases Prod.Lex.toLex_le_toLex.mp hle with hlt | ⟨-, hle⟩
      · exact absurd hlt (lt_irrefl _)
      · rcases Prod.Lex.toLex_le_toLex.mp hle with hlt | ⟨heq, hle⟩
        · have hlt : -52 < e := hlt
          exact .finite m e h (by omega) hlt.le
        · exact .finite m e h (Nat.cast_le.mp hle) (le_of_eq heq)

theorem IsAtLeastOne.isNonneg {u : UnpackedFloat} (h : IsAtLeastOne u) : IsNonneg u := by
  cases h with
  | infinity => exact .infinity
  | finite m e h => exact .finite m e h

theorem position_le_add_of_isNonneg (hx : IsNonneg (unpacked x)) (hy : IsNonneg (unpacked y)) :
    position (unpacked x)
      ≤ position (repacked (add Format.binary64 (unpacked x) (unpacked y))) := by
  have hsum := (hx.add hy).repacked
  have hstored := repacked_unpacked x
  generalize hu : unpacked x = u at hx hsum hstored
  generalize unpacked y = v at hy hsum
  cases hx with
  | infinity =>
    have hinfinity : add Format.binary64 (.infinity .positive) v = .infinity .positive := by
      cases hy <;> rfl
    rw [hinfinity]
    exact IsNonneg.infinity.position_le_infinity
  | zero s => exact hsum.position_zero_le s
  | finite m e hm =>
    cases hy with
    | infinity => exact (IsNonneg.finite m e hm).position_le_infinity
    | zero t => exact (congrArg position hstored).ge
    | finite m' e' hm' => exact position_le_add hm hm' (isCanonical_of_unpacked hu).1

theorem position_le_mul_of_isAtLeastOne (hx : IsNonneg (unpacked x))
    (hy : IsAtLeastOne (unpacked y))
    (hproduct : IsNonneg (mul Format.binary64 (unpacked x) (unpacked y))) :
    position (unpacked x)
      ≤ position (repacked (mul Format.binary64 (unpacked x) (unpacked y))) := by
  replace hproduct := hproduct.repacked
  generalize hu : unpacked x = u at hx hproduct
  generalize unpacked y = v at hy hproduct
  cases hx with
  | infinity =>
    have hinfinity : mul Format.binary64 (.infinity .positive) v = .infinity .positive := by
      cases hy <;> rfl
    rw [hinfinity]
    exact IsNonneg.infinity.position_le_infinity
  | zero s => exact hproduct.position_zero_le s
  | finite m e hm =>
    cases hy with
    | infinity => exact (IsNonneg.finite m e hm).position_le_infinity
    | finite m' e' hm' hlower he' =>
      exact position_le_mul hm hm' (isCanonical_of_unpacked hu).1 hlower he'

theorem isNonneg_ofScientific (n : ℕ) : IsNonneg (ofScientific Format.binary64 n 0) := by
  unfold ofScientific
  split_ifs with hzero hlarge hsmall
  · exact .zero _
  · exact .infinity
  · exact .zero _
  · exact (IsNonneg.finite _ _ _).mul_finite _ _ _
  · omega

/-- Natural numbers that fit into a word are converted exactly, and multiplied with one; others are
rounded. -/
theorem isNonneg_ofNat (n : ℕ) : IsNonneg (unpacked (Scalar.ofNat n)) := by
  show IsNonneg (unpacked (Float.ofScientific n false 0))
  unfold Float.ofScientific
  split
  · have hword : IsNonneg (unpacked n.toUInt64.toFloat) :=
      (isNonneg_normalize n.toUInt64.toNat 0).repacked
    have hone : unpacked (Float.ofBits 0x3FF0000000000000)
        = .finite .positive (2 ^ 52) (-52) (by decide) := rfl
    show IsNonneg (unpacked (n.toUInt64.toFloat * Float.ofBits 0x3FF0000000000000))
    rw [unpacked_mul, hone]
    exact (hword.mul_finite _ _ _).repacked
  · exact (isNonneg_ofScientific n).repacked

/-- Doubles keep the order of numbers. -/
instance keepsOrder : Scalar.KeepsOrder Float where
  toSpreadsNaN := spreadsNaN
  le_of_lt h := by
    obtain ⟨hx, hy, hlt⟩ := lt_iff.mp h
    exact le_iff.mpr ⟨hx, hy, hlt.le⟩
  le_trans hxy hyz := by
    obtain ⟨hx, -, hxy⟩ := le_iff.mp hxy
    obtain ⟨-, hz, hyz⟩ := le_iff.mp hyz
    exact le_iff.mpr ⟨hx, hz, hxy.trans hyz⟩
  zero_le_emptySum := by
    rw [zero_le_iff, unpacked_emptySum]
    exact .zero _
  zero_le_ofNat n := by
    rw [zero_le_iff]
    exact isNonneg_ofNat n
  le_add := by
    intro x y hx hy
    rw [zero_le_iff] at hx hy
    have hsum := (hx.add hy).repacked
    rw [← unpacked_add] at hsum
    refine le_iff.mpr ⟨(isNonneg_iff.mp hx).1, (isNonneg_iff.mp hsum).1, ?_⟩
    rw [unpacked_add]
    exact position_le_add_of_isNonneg hx hy
  le_mul := by
    intro x y hx hy hxy
    rw [zero_le_iff] at hx
    have hy := isAtLeastOne_of_le hy
    rw [isNaN_eq_false_iff, unpacked_mul] at hxy
    have hproduct := hx.mul hy.isNonneg fun h => hxy (by rw [h, repacked_notANumber])
    refine le_iff.mpr ⟨(isNonneg_iff.mp hx).1, hxy, ?_⟩
    rw [unpacked_mul]
    exact position_le_mul_of_isAtLeastOne hx hy hproduct
  zero_le_mul := by
    intro x y hx hy hxy
    rw [zero_le_iff] at hx hy ⊢
    rw [isNaN_eq_false_iff, unpacked_mul] at hxy
    rw [unpacked_mul]
    exact (hx.mul hy fun h => hxy (by rw [h, repacked_notANumber])).repacked

end Keyspace.Binary64
