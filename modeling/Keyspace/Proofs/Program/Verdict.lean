import Keyspace.Proofs.Scalar.Binary64
import Keyspace.Proofs.Program.Verify

/-!
# The first fault of an answer

An answer is at fault if it has not one value for each variable, if a value is neither 0 nor 1, or
if a constraint does not hold.  `Program.IsVerdict` says which verdict is due, for any reading of
"neither 0 nor 1" and "hold": the first fault in the order of arity, variables and constraints.

There is only one verdict (`Program.IsVerdict.unique`), and verification gives the one that its own
tests call for (`Program.verify_eq_iff`).  These tests are computed in the scalars of the program,
rounding included.  The test of a value takes what is not a number for binary, and
`Program.verify_isVerdict` says when this makes a difference, for every scalar type in which such
values spread.  Doubles are one (`Switches.not_isVerdict_verify`).

Over exact scalars the tests mean what they say: a constraint holds if one of its sides may be off
by the tolerance (`Constraint.holds_eq_true_iff`).
-/

namespace Keyspace

open Scalar Exact

/-! ### Verdicts -/

section Verdicts

variable {α : Type} [Scalar α]

/-- The verdict on an answer: the first fault, if there is one. -/
inductive Program.IsVerdict (p : Program α) (binary : α → Prop) (stands : Constraint α → α → Prop)
    (values : List α) : Except (Violation α) Unit → Prop
  | ok (harity : values.length = p.names.length) (hbinary : ∀ x ∈ values, binary x)
      (hstands : ∀ c ∈ p.constraints, stands c (c.terms.eval values)) :
      p.IsVerdict binary stands values (.ok ())
  | arity (harity : values.length ≠ p.names.length) :
      p.IsVerdict binary stands values (.error (.arity p.names.length values.length))
  | notBinary {v : ℕ} {name : String} {x : α} (harity : values.length = p.names.length)
      (hname : p.names[v]? = some name) (hvalue : values[v]? = some x)
      (hbefore : ∀ u < v, ∀ y, values[u]? = some y → binary y) (hnot : ¬ binary x) :
      p.IsVerdict binary stands values (.error (.notBinary name x))
  | unsatisfied {k : ℕ} {c : Constraint α} (harity : values.length = p.names.length)
      (hbinary : ∀ x ∈ values, binary x) (hconstraint : p.constraints[k]? = some c)
      (hbefore : ∀ j < k, ∀ d, p.constraints[j]? = some d → stands d (d.terms.eval values))
      (hnot : ¬ stands c (c.terms.eval values)) :
      p.IsVerdict binary stands values
        (.error (.unsatisfied c.name (c.terms.eval values) c.sense c.bound))

variable {p : Program α} {tolerance : α} {values : List α} {fault : Violation α}

/-- The first variable that is not binary. -/
theorem Program.exists_of_nonBinary?_eq_some (h : p.nonBinary? tolerance values = some fault) :
    ∃ (v : ℕ) (name : String) (x : α), p.names[v]? = some name ∧ values[v]? = some x ∧
      (∀ u < v, ∀ y, values[u]? = some y → Program.isBinary tolerance y = true) ∧
      Program.isBinary tolerance x = false ∧ fault = .notBinary name x := by
  obtain ⟨⟨name, x⟩, hfind, rfl⟩ := Option.map_eq_some_iff.mp h
  obtain ⟨hx, v, hv, heq, hbefore⟩ := List.find?_eq_some_iff_getElem.mp hfind
  obtain ⟨hnames, hvalues⟩ := lt_min_iff.mp (List.length_zip ▸ hv)
  obtain ⟨rfl, rfl⟩ := Prod.mk.inj (List.getElem_zip.symm.trans heq)
  refine ⟨v, _, _, List.getElem?_eq_getElem hnames, List.getElem?_eq_getElem hvalues,
    fun u hu y hy => ?_, by simpa using hx, rfl⟩
  obtain ⟨-, rfl⟩ := List.getElem?_eq_some_iff.mp hy
  simpa [List.getElem_zip] using hbefore u hu

/-- The first constraint that does not hold. -/
theorem Program.exists_of_unsatisfied?_eq_some (h : p.unsatisfied? tolerance values = some fault) :
    ∃ (k : ℕ) (c : Constraint α), p.constraints[k]? = some c ∧
      (∀ j < k, ∀ d, p.constraints[j]? = some d → d.holds (d.terms.eval values) tolerance = true) ∧
      c.holds (c.terms.eval values) tolerance = false ∧
      fault = .unsatisfied c.name (c.terms.eval values) c.sense c.bound := by
  obtain ⟨c, hfind, rfl⟩ := Option.map_eq_some_iff.mp h
  obtain ⟨hc, k, hk, rfl, hbefore⟩ := List.find?_eq_some_iff_getElem.mp hfind
  refine ⟨k, _, List.getElem?_eq_getElem hk, fun j hj d hd => ?_, by simpa using hc, rfl⟩
  obtain ⟨-, rfl⟩ := List.getElem?_eq_some_iff.mp hd
  simpa using hbefore j hj

/-- Verification reports the first fault that its tests find. -/
theorem Program.isVerdict_verify (p : Program α) (tolerance : α) (values : List α) :
    p.IsVerdict (fun x => Program.isBinary tolerance x = true)
      (fun c lhs => c.holds lhs tolerance = true) values (p.verify tolerance values) := by
  rw [Program.verify, Program.violation?]
  split_ifs with harity
  · exact .arity harity
  · have harity := not_not.mp harity
    cases hvariables : p.nonBinary? tolerance values with
    | some fault =>
      obtain ⟨v, name, x, hname, hvalue, hbefore, hnot, rfl⟩ :=
        Program.exists_of_nonBinary?_eq_some hvariables
      exact .notBinary harity hname hvalue hbefore (by simp [hnot])
    | none =>
      have hbinary := (p.nonBinary?_eq_none_iff tolerance values harity).mp hvariables
      rw [Option.none_or]
      cases hconstraints : p.unsatisfied? tolerance values with
      | some fault =>
        obtain ⟨k, c, hconstraint, hbefore, hnot, rfl⟩ :=
          Program.exists_of_unsatisfied?_eq_some hconstraints
        exact .unsatisfied harity hbinary hconstraint hbefore (by simp [hnot])
      | none =>
        exact .ok harity hbinary ((p.unsatisfied?_eq_none_iff tolerance values).mp hconstraints)

/-- There is only one first element without a property. -/
theorem eq_of_first {β : Type} {P : β → Prop} {l : List β} {i j : ℕ} {x y : β}
    (hx : l[i]? = some x) (hi : ∀ k < i, ∀ z, l[k]? = some z → P z) (hPx : ¬ P x)
    (hy : l[j]? = some y) (hj : ∀ k < j, ∀ z, l[k]? = some z → P z) (hPy : ¬ P y) : i = j := by
  rcases lt_trichotomy i j with hlt | heq | hgt
  · exact absurd (hj i hlt x hx) hPx
  · exact heq
  · exact absurd (hi j hgt y hy) hPy

/-- There is only one verdict on an answer. -/
theorem Program.IsVerdict.unique {binary : α → Prop} {stands : Constraint α → α → Prop}
    {verdict verdict' : Except (Violation α) Unit}
    (h : p.IsVerdict binary stands values verdict)
    (h' : p.IsVerdict binary stands values verdict') : verdict = verdict' := by
  cases h with
  | arity harity =>
    cases h' with
    | arity => rfl
    | ok harity' | notBinary harity' | unsatisfied harity' => exact absurd harity' harity
  | ok harity hbinary hstands =>
    cases h' with
    | ok => rfl
    | arity harity' => exact absurd harity harity'
    | notBinary _ _ hvalue _ hnot => exact absurd (hbinary _ (List.mem_of_getElem? hvalue)) hnot
    | unsatisfied _ _ hconstraint _ hnot =>
      exact absurd (hstands _ (List.mem_of_getElem? hconstraint)) hnot
  | notBinary harity hname hvalue hbefore hnot =>
    cases h' with
    | arity harity' => exact absurd harity harity'
    | ok _ hbinary | unsatisfied _ hbinary =>
      exact absurd (hbinary _ (List.mem_of_getElem? hvalue)) hnot
    | notBinary _ hname' hvalue' hbefore' hnot' =>
      obtain rfl := eq_of_first hvalue hbefore hnot hvalue' hbefore' hnot'
      obtain rfl := Option.some.inj (hname.symm.trans hname')
      obtain rfl := Option.some.inj (hvalue.symm.trans hvalue')
      rfl
  | unsatisfied harity hbinary hconstraint hbefore hnot =>
    cases h' with
    | arity harity' => exact absurd harity harity'
    | ok _ _ hstands => exact absurd (hstands _ (List.mem_of_getElem? hconstraint)) hnot
    | notBinary _ _ hvalue _ hnot' =>
      exact absurd (hbinary _ (List.mem_of_getElem? hvalue)) hnot'
    | unsatisfied _ _ hconstraint' hbefore' hnot' =>
      obtain rfl := eq_of_first hconstraint hbefore hnot hconstraint' hbefore' hnot'
      obtain rfl := Option.some.inj (hconstraint.symm.trans hconstraint')
      rfl

/-- The outcome of verification is the verdict by its own tests. -/
theorem Program.verify_eq_iff (p : Program α) (tolerance : α) (values : List α)
    (verdict : Except (Violation α) Unit) :
    p.verify tolerance values = verdict ↔
      p.IsVerdict (fun x => Program.isBinary tolerance x = true)
        (fun c lhs => c.holds lhs tolerance = true) values verdict :=
  ⟨fun h => h ▸ p.isVerdict_verify tolerance values,
    (p.isVerdict_verify tolerance values).unique⟩

/-- If a test lets some values pass that it should not, the verdict is still the one that is due
exactly if each of these values comes after another fault. -/
theorem Program.IsVerdict.strict_iff {binary bad : α → Prop} {stands : Constraint α → α → Prop}
    (hbad : ∀ x, bad x → ¬ binary x) {verdict : Except (Violation α) Unit}
    (h : p.IsVerdict (fun x => bad x ∨ binary x) stands values verdict) :
    p.IsVerdict binary stands values verdict ↔
      (values.length = p.names.length → ∀ (v : ℕ) (x : α), values[v]? = some x → bad x →
        ∃ u < v, ∃ y, values[u]? = some y ∧ ¬ (bad y ∨ binary y)) := by
  constructor
  · intro hstrict harity v a hv ha
    have hmem : a ∈ values := List.mem_of_getElem? hv
    cases hstrict with
    | ok _ hbinary => exact absurd (hbinary a hmem) (hbad a ha)
    | arity hne => exact absurd harity hne
    | unsatisfied _ hbinary => exact absurd (hbinary a hmem) (hbad a ha)
    | @notBinary u _ x _ _ hvalue hbefore _ =>
      -- the value reported fails the laxer test too, so it is another one, and comes first
      have hx : ¬ (bad x ∨ binary x) := by
        cases h with
        | notBinary _ _ _ _ hnot => exact hnot
      have hle : u ≤ v := not_lt.mp fun hlt => hbad a ha (hbefore v hlt a hv)
      refine ⟨u, lt_of_le_of_ne hle ?_, x, hvalue, hx⟩
      rintro rfl
      exact hx (.inl (Option.some.inj (hv.symm.trans hvalue) ▸ ha))
  · intro hfirst
    -- up to the first fault of the laxer test, no such value occurs
    have hstrict (harity : values.length = p.names.length) (v : ℕ)
        (hlax : ∀ u < v, ∀ y, values[u]? = some y → bad y ∨ binary y) :
        ∀ u < v, ∀ y, values[u]? = some y → binary y := by
      intro u hu y hy
      refine (hlax u hu y hy).resolve_left fun hbad => ?_
      obtain ⟨w, hw, x, hx, hnot⟩ := hfirst harity u y hy hbad
      exact hnot (hlax w (hw.trans hu) x hx)
    have hall (harity : values.length = p.names.length)
        (hlax : ∀ x ∈ values, bad x ∨ binary x) : ∀ x ∈ values, binary x := by
      intro x hx
      obtain ⟨v, hv⟩ := List.mem_iff_getElem?.mp hx
      exact hstrict harity (v + 1) (fun _ _ y hy => hlax y (List.mem_of_getElem? hy)) v
        v.lt_succ_self x hv
    cases h with
    | ok harity hbinary hstands => exact .ok harity (hall harity hbinary) hstands
    | arity harity => exact .arity harity
    | notBinary harity hname hvalue hbefore hnot =>
      exact .notBinary harity hname hvalue (hstrict harity _ hbefore) fun hx => hnot (.inr hx)
    | unsatisfied harity hbinary hconstraint hbefore hnot =>
      exact .unsatisfied harity (hall harity hbinary) hconstraint hbefore hnot

end Verdicts

/-! ### The verdict of verification -/

section Verify

variable {α : Type} [Scalar α] [SpreadsNaN α]

/-- **Verification reports the first fault of an answer**, in the order of arity, variables and
constraints, where what is not a number counts as binary.  So the verdict is the one that is due
exactly if every value that is not a number comes after one that is a number and not binary; and
acceptance is the one that is due if every variable occurs in some constraint. -/
theorem Program.verify_isVerdict (p : Program α) {tolerance : α} (ht : isNaN tolerance = false)
    (values : List α) :
    (∀ verdict, p.verify tolerance values = verdict ↔
      p.IsVerdict (fun x => isNaN x = true ∨ IsNearBit tolerance x)
        (fun c lhs => c.holds lhs tolerance = true) values verdict) ∧
    (p.IsVerdict (IsNearBit tolerance) (fun c lhs => c.holds lhs tolerance = true) values
        (p.verify tolerance values) ↔
      (values.length = p.names.length → ∀ (v : ℕ) (x : α), values[v]? = some x → isNaN x = true →
        ∃ u < v, ∃ y, values[u]? = some y ∧ ¬ (isNaN y = true ∨ IsNearBit tolerance y))) ∧
    ((∀ v < p.names.length, ∃ c ∈ p.constraints, ∃ term ∈ c.terms, term.1 = v) →
      (p.verify tolerance values = .ok () ↔
        values.length = p.names.length ∧ (∀ x ∈ values, IsNearBit tolerance x) ∧
        ∀ c ∈ p.constraints, c.holds (c.terms.eval values) tolerance = true)) := by
  have hverdict := p.verify_eq_iff tolerance values
  simp only [Program.isBinary_iff ht] at hverdict
  have hnumber (x : α) (hx : isNaN x = true) : ¬ IsNearBit tolerance x := fun h =>
    absurd (hx.symm.trans (isNaN_of_isNearBit h)) (by decide)
  refine ⟨hverdict, ((hverdict _).mp rfl).strict_iff hnumber, fun occurs => ⟨fun h => ?_, ?_⟩⟩
  · obtain ⟨harity, hbinary, hholds⟩ := (p.verify_eq_ok_iff _ _).mp h
    refine ⟨harity, fun x hx => ?_, hholds⟩
    refine ((Program.isBinary_iff ht).mp (hbinary x hx)).resolve_left ?_
    rw [Program.isNaN_of_verify h occurs x hx]
    exact Bool.false_ne_true
  · rintro ⟨harity, hbinary, hholds⟩
    exact (p.verify_eq_ok_iff _ _).mpr
      ⟨harity, fun x hx => (Program.isBinary_iff ht).mpr (.inr (hbinary x hx)), hholds⟩

end Verify

namespace Switches

/-- At least one of two switches is on. -/
def atLeastOne : Program Float where
  names := ["x", "y"]
  constraints := [⟨"on", [(0, one), (1, one)], .atLeast, one⟩]

/-- Two switches with shares of one and two tenths make three tenths together. -/
def shares (α : Type) [Scalar α] : Program α where
  names := ["x", "y"]
  constraints := [⟨"all", [(0, decimal 1 1), (1, decimal 2 1)], .equal, decimal 3 1⟩]

/-- A switch about which nothing is asked. -/
def idle : Program Float where
  names := ["x"]

end Switches

/-- The first switch is at fault before the second, which is not a number.  With no tolerance, the
shares of two switches that are on do not add up over doubles, while they do over fractions. -/
theorem Program.verify_isVerdict_switches :
    Switches.atLeastOne.IsVerdict (IsNearBit (decimal 1 7))
      (fun c lhs => c.holds lhs (decimal 1 7) = true) [ofNat 2, zero / zero]
      (.error (.notBinary "x" (ofNat 2))) ∧
    (Switches.shares Float).verify zero [one, one]
      = .error (.unsatisfied "all" (decimal 1 1 + decimal 2 1) .equal (decimal 3 1)) ∧
    (Switches.shares Exact).verify zero [one, one] = .ok () := by
  refine ⟨?_, ?_, ?_⟩
  · have ht : isNaN (decimal 1 7 : Float) = false := by decide +kernel
    have hnot : ¬ (isNaN (ofNat 2 : Float) = true ∨ IsNearBit (decimal 1 7) (ofNat 2 : Float)) := by
      unfold IsNearBit
      decide +kernel
    have hverify : Switches.atLeastOne.verify (decimal 1 7) [ofNat 2, zero / zero]
        = .error (.notBinary "x" (ofNat 2)) :=
      ((Program.verify_isVerdict Switches.atLeastOne ht _).1 _).mpr
        (.notBinary rfl (v := 0) rfl rfl (fun u hu => absurd hu u.not_lt_zero) hnot)
    rw [← hverify]
    refine (Program.verify_isVerdict Switches.atLeastOne ht _).2.1.mpr fun _ v x hv hx => ?_
    refine ⟨0, Nat.pos_of_ne_zero ?_, ofNat 2, rfl, hnot⟩
    rintro rfl
    exact hnot (.inl (Option.some.inj hv ▸ hx))
  · have ht : isNaN (zero : Float) = false := by decide +kernel
    have hbinary : IsNearBit zero (one : Float) := by
      unfold IsNearBit
      decide +kernel
    have hsum : LinearForm.eval [(0, decimal 1 1), (1, decimal 2 1)] [one, one]
        = (decimal 1 1 + decimal 2 1 : Float) := by decide +kernel
    have hall : ∀ x ∈ [one, (one : Float)], isNaN x = true ∨ IsNearBit zero x := by
      intro x hx
      obtain rfl : x = one := by simpa using hx
      exact .inr hbinary
    have hconstraint : (Switches.shares Float).constraints[0]?
        = some ⟨"all", [(0, decimal 1 1), (1, decimal 2 1)], .equal, decimal 3 1⟩ := rfl
    rw [← hsum, (Program.verify_isVerdict (Switches.shares Float) ht _).1]
    exact .unsatisfied (p := Switches.shares Float) rfl hall hconstraint
      (fun j hj => absurd hj j.not_lt_zero) (by decide +kernel)
  · refine ((Program.verify_isVerdict (Switches.shares Exact) (isNaN_finite 0) _).2.2 ?_).mpr
      ⟨rfl, ?_, ?_⟩
    · intro v hv
      have hv : v < 2 := hv
      obtain rfl | rfl : v = 0 ∨ v = 1 := by omega
      · exact ⟨_, List.mem_cons_self, _, List.mem_cons_self, rfl⟩
      · exact ⟨_, List.mem_cons_self, _, List.mem_cons_of_mem _ List.mem_cons_self, rfl⟩
    · intro x hx
      obtain rfl : x = one := by simpa using hx
      exact isNearBit_iff.mpr ⟨1, rfl, .inr (by simp)⟩
    · decide +kernel

/-- An idle switch passes even if its value is not a number. -/
theorem Switches.not_isVerdict_verify :
    idle.IsVerdict (IsNearBit (decimal 1 7)) (fun c lhs => c.holds lhs (decimal 1 7) = true)
      [zero / zero] (.error (.notBinary "x" (zero / zero))) ∧
    idle.verify (decimal 1 7) [zero / zero] = .ok () ∧
    ¬ idle.IsVerdict (IsNearBit (decimal 1 7)) (fun c lhs => c.holds lhs (decimal 1 7) = true)
      [zero / zero] (idle.verify (decimal 1 7) [zero / zero]) := by
  have hnot : ¬ IsNearBit (decimal 1 7) (zero / zero : Float) := by
    unfold IsNearBit
    decide +kernel
  have hbinary : Program.isBinary (decimal 1 7) (zero / zero : Float) = true := by decide +kernel
  have hverify : idle.verify (decimal 1 7) [zero / zero] = .ok () :=
    (idle.verify_eq_ok_iff _ _).mpr ⟨rfl, by simpa using hbinary, nofun⟩
  refine ⟨.notBinary rfl (v := 0) rfl rfl (fun u hu => absurd hu u.not_lt_zero) hnot, hverify, ?_⟩
  rw [hverify]
  rintro ⟨-, hbinary, -⟩
  exact hnot (hbinary _ List.mem_cons_self)

/-! ### The test of a constraint over exact scalars -/

/-- Does a constraint hold if one of its sides may be off by the tolerance?  The sides of an
equation have to be finite, since infinite ones have no distance. -/
def Constraint.StandsWithin (c : Constraint Exact) (tolerance : ℚ) (lhs : Exact) : Prop :=
  match c.sense with
  | .atLeast => ∃ slack : ℚ, |slack| ≤ tolerance ∧ le c.bound (lhs + finite slack) = true
  | .atMost => ∃ slack : ℚ, |slack| ≤ tolerance ∧ le lhs (c.bound + finite slack) = true
  | .equal => ∃ q slack : ℚ, |slack| ≤ tolerance ∧ lhs = finite (q + slack) ∧ c.bound = finite q

/-- The test of a constraint is exact. -/
theorem Constraint.holds_eq_true_iff {c : Constraint Exact} {t : ℚ} (ht : 0 ≤ t) {lhs : Exact} :
    c.holds lhs (finite t) = true ↔ c.StandsWithin t lhs := by
  unfold Constraint.holds Constraint.StandsWithin
  cases c.sense with
  | atLeast =>
    refine le_sub_finite_iff.trans ⟨fun h => ⟨t, (abs_of_nonneg ht).le, h⟩, ?_⟩
    rintro ⟨slack, hslack, h⟩
    exact le_add_finite_mono (le_of_abs_le hslack) h
  | atMost =>
    refine ⟨fun h => ⟨t, (abs_of_nonneg ht).le, h⟩, ?_⟩
    rintro ⟨slack, hslack, h⟩
    exact le_add_finite_mono (le_of_abs_le hslack) h
  | equal => exact le_abs_sub_iff

end Keyspace
