import Keyspace.Program.BranchBound
import Keyspace.Proofs.Program.Collect
import Keyspace.Proofs.Program.Verify
import Mathlib.Data.List.MinMax

/-!
# Feasible and optimal answers

`Program.Feasible` is what an answer is verified for, without any tolerance, and
`Program.IsOptimal` a feasible answer whose objective is least.  `Solver.IsExact` says that a
solver finds such answers.

A solver that asks a backend is exact if the backend is (`Backend.isExact_solveThrough`), as like
terms can be collected without any difference to the answers (`Program.feasible_collect_iff`).
That exact solvers exist is shown by one that tries all assignments (`ExactSolver.enumerate`,
`isExact_enumerate`).
-/

namespace Keyspace

open Scalar
open Exact (finite)

namespace Program

variable (p : Program Exact)

/-- An assignment of zeros and ones that satisfies all constraints. -/
structure Feasible (values : List Exact) : Prop where
  length_eq : values.length = p.names.length
  binary : ∀ x ∈ values, x = finite 0 ∨ x = finite 1
  holds : ∀ c ∈ p.constraints, c.holds (c.terms.eval values) zero = true

/-- A feasible answer with the value of its objective, which no feasible assignment undercuts. -/
structure IsOptimal (s : Solution Exact) : Prop where
  feasible : p.Feasible s.values
  objective_eq : s.objective = p.evaluate s.values
  least : ∀ values, p.Feasible values → le (p.evaluate s.values) (p.evaluate values) = true

/-- A program over its own variables with rational coefficients and bounds. -/
structure IsRational : Prop where
  objective : ∀ term ∈ p.objective, term.1 < p.names.length ∧ term.2.IsFinite
  terms : ∀ c ∈ p.constraints, ∀ term ∈ c.terms, term.1 < p.names.length ∧ term.2.IsFinite
  bound : ∀ c ∈ p.constraints, c.bound.IsFinite

end Program

/-- A solver that answers every rational program with variables by an optimal answer, and reports
the program as infeasible if there is none. -/
def Solver.IsExact {σ : Type} (solver : Solver σ Exact) : Prop :=
  ∀ p : Program Exact, p.IsRational → p.names ≠ [] → ∀ state,
    (∃ s, (solver p state).1 = .ok s ∧ p.IsOptimal s) ∨
      ((solver p state).1 = .error .infeasible ∧ ∀ values, ¬ p.Feasible values)

/-! ### Feasible answers verify -/

section Verify

variable {p : Program Exact} {values : List Exact} {s t : ℚ}

/-- A wider tolerance accepts more. -/
theorem Constraint.holds_mono {c : Constraint Exact} {lhs : Exact} (hst : s ≤ t)
    (h : c.holds lhs (finite s) = true) : c.holds lhs (finite t) = true := by
  unfold Constraint.holds at h ⊢
  cases hsense : c.sense with
  | atLeast =>
    rw [hsense] at h
    exact Exact.le_sub_finite_iff.mpr
      (Exact.le_add_finite_mono hst (Exact.le_sub_finite_iff.mp h))
  | atMost =>
    rw [hsense] at h
    exact Exact.le_add_finite_mono hst h
  | equal =>
    rw [hsense] at h
    exact Exact.le_finite_mono hst h

theorem Program.verify_of_feasible (ht : 0 ≤ t) (h : p.Feasible values) :
    p.verify (finite t) values = .ok () := by
  refine (p.verify_eq_ok_iff _ _).mpr ⟨h.length_eq, fun x hx => ?_, fun c hc => ?_⟩
  · refine isBinary_eq_true_iff.mpr (.inr ?_)
    rcases h.binary x hx with rfl | rfl
    · exact ⟨0, rfl, .inl (by simpa using ht)⟩
    · exact ⟨1, rfl, .inr (by simpa using ht)⟩
  · exact Constraint.holds_mono ht (h.holds c hc)

theorem Program.Feasible.isFinite (h : p.Feasible values) : ∀ x ∈ values, x.IsFinite := by
  intro x hx
  rcases h.binary x hx with rfl | rfl
  · exact ⟨0, rfl⟩
  · exact ⟨1, rfl⟩

theorem LinearForm.exists_eval_eq {f : LinearForm Exact} (hf : ∀ term ∈ f, term.2.IsFinite)
    (qs : List ℚ) : ∃ q, f.eval (qs.map finite) = finite q := by
  have hterms : ∀ x ∈ f.map fun t => t.2 * (qs.map finite).getD t.1 zero, x.IsFinite := by
    intro x hx
    obtain ⟨term, hterm, rfl⟩ := List.mem_map.mp hx
    obtain ⟨q, hq⟩ := hf term hterm
    refine ⟨q * qs.getD term.1 0, ?_⟩
    rw [hq, Exact.zero_eq, Exact.getD_map_finite, Exact.finite_mul_finite]
  obtain ⟨ps, hps⟩ := Exact.exists_eq_map_finite hterms
  exact ⟨ps.sum, by rw [LinearForm.eval, hps, Exact.sum_map_finite]⟩

/-- An answer without noise passes with any tolerance that is not negative, be it infinite. -/
theorem Program.verify_of_le {tolerance : Exact} (htolerance : le zero tolerance = true)
    (hp : p.IsRational) (h : p.Feasible values) : p.verify tolerance values = .ok () := by
  cases tolerance with
  | finite t => exact Program.verify_of_feasible (by simpa using htolerance) h
  | negInf => exact absurd htolerance Bool.false_ne_true
  | nan => exact absurd htolerance Bool.false_ne_true
  | posInf =>
    refine (p.verify_eq_ok_iff _ _).mpr ⟨h.length_eq, fun x hx => ?_, fun c hc => ?_⟩
    · obtain ⟨q, rfl⟩ := h.isFinite x hx
      rfl
    · -- both sides are rational, and any two rationals are within the tolerance
      obtain ⟨qs, rfl⟩ := Exact.exists_eq_map_finite h.isFinite
      obtain ⟨q, hq⟩ :=
        LinearForm.exists_eval_eq (fun term hterm => (hp.terms c hc term hterm).2) qs
      obtain ⟨b, hb⟩ := hp.bound c hc
      rw [hq, Constraint.holds, hb]
      cases c.sense <;> rfl

/-- No answer passes with any other tolerance. -/
theorem Program.verify_of_not_le {tolerance : Exact} (htolerance : le zero tolerance = false)
    (hp : p.IsRational) (hnames : p.names ≠ []) (hconstraints : p.constraints ≠ [])
    (h : p.Feasible values) : ∃ v, p.verify tolerance values = .error v := by
  refine (p.verify_eq_ok_or_error tolerance values).resolve_left fun hok => ?_
  obtain ⟨-, hbinary, hholds⟩ := (p.verify_eq_ok_iff _ _).mp hok
  have hvalues : values ≠ [] := by
    intro hnil
    have hlength := h.length_eq
    rw [hnil] at hlength
    exact hnames (List.length_eq_zero_iff.mp hlength.symm)
  obtain ⟨x, hx⟩ := List.exists_mem_of_ne_nil _ hvalues
  obtain ⟨q, rfl⟩ := h.isFinite x hx
  cases tolerance with
  | posInf => exact absurd htolerance (by decide)
  | negInf => exact absurd (hbinary _ hx) Bool.false_ne_true
  | finite t =>
    have ht : t < 0 := by simpa using htolerance
    have hnear : |q| ≤ t ∨ |q - 1| ≤ t := by simpa using isBinary_eq_true_iff.mp (hbinary _ hx)
    rcases hnear with hq | hq
    · exact absurd (abs_nonneg q) (not_le.mpr (hq.trans_lt ht))
    · exact absurd (abs_nonneg (q - 1)) (not_le.mpr (hq.trans_lt ht))
  | nan =>
    -- what is not a number passes for binary, but satisfies no constraint
    obtain ⟨c, hc⟩ := List.exists_mem_of_ne_nil _ hconstraints
    obtain ⟨b, hb⟩ := hp.bound c hc
    have hholds := hholds c hc
    rw [Constraint.holds, hb] at hholds
    revert hholds
    cases c.sense with
    | atLeast => exact fun hle => absurd (hle.symm.trans (Exact.nan_le _)) (by simp)
    | atMost => exact fun hle => absurd (hle.symm.trans (Exact.le_nan _)) (by simp)
    | equal => exact fun hle => absurd (hle.symm.trans (Exact.le_nan _)) (by simp)

end Verify

/-! ### Programs with like terms collected -/

section Collect

variable {p : Program Exact} {values : List Exact}

namespace Program

theorem evaluate_collect (hvalues : ∀ x ∈ values, x.IsFinite) :
    p.collect.evaluate values = p.evaluate values :=
  LinearForm.eval_collect hvalues

/-- Collecting like terms leaves the feasible assignments as they are. -/
theorem feasible_collect_iff : p.collect.Feasible values ↔ p.Feasible values := by
  have hholds : (∀ x ∈ values, x = finite 0 ∨ x = finite 1) → ∀ c ∈ p.constraints,
      c.holds (c.terms.collect.eval values) zero = c.holds (c.terms.eval values) zero := by
    intro hbinary c _
    rw [LinearForm.eval_collect fun x hx => (hbinary x hx).elim (⟨0, ·⟩) (⟨1, ·⟩)]
  constructor
  · rintro ⟨hlength, hbinary, hall⟩
    refine ⟨hlength, hbinary, fun c hc => ?_⟩
    rw [← hholds hbinary c hc]
    exact hall _ (List.mem_map_of_mem hc)
  · rintro ⟨hlength, hbinary, hall⟩
    refine ⟨hlength, hbinary, List.forall_mem_map.mpr fun c hc => ?_⟩
    exact (hholds hbinary c hc).trans (hall c hc)

theorem isRational_collect (hp : p.IsRational) : p.collect.IsRational where
  objective := LinearForm.isFinite_of_mem_collect hp.objective
  terms := List.forall_mem_map.mpr fun c hc =>
    LinearForm.isFinite_of_mem_collect (hp.terms c hc)
  bound := List.forall_mem_map.mpr hp.bound

variable (p) in
/-- No form of the program names a variable twice. -/
structure IsCollected : Prop where
  objective : p.objective.IsCollected
  terms : ∀ c ∈ p.constraints, c.terms.IsCollected

theorem isCollected_collect : p.collect.IsCollected where
  objective := LinearForm.isCollected_collect _
  terms := List.forall_mem_map.mpr fun c _ => LinearForm.isCollected_collect c.terms

/-- A feasible assignment that is least among the feasible ones of the collected program is so
among those of the program. -/
theorem isOptimal_of_collect (h : p.collect.IsOptimal ⟨values, p.collect.evaluate values⟩) :
    p.IsOptimal ⟨values, p.evaluate values⟩ := by
  have hfeasible := feasible_collect_iff.mp h.feasible
  refine ⟨hfeasible, rfl, fun other hother => ?_⟩
  have hle := h.least other (feasible_collect_iff.mpr hother)
  rwa [evaluate_collect hfeasible.isFinite, evaluate_collect hother.isFinite] at hle

end Program

end Collect

/-- A backend that answers every rational program with variables by an optimal assignment, and
reports the program as infeasible if there is none.  No form names a variable twice. -/
def Backend.IsExact (backend : Backend Exact) : Prop :=
  ∀ p : Program Exact, p.IsRational → p.IsCollected → p.names ≠ [] →
    (∃ values, backend p = .ok values ∧ p.IsOptimal ⟨values, p.evaluate values⟩) ∨
      (backend p = .error .infeasible ∧ ∀ values, ¬ p.Feasible values)

/-- **A solver that asks an exact backend is exact.** -/
theorem Backend.isExact_solveThrough {backend : Backend Exact} (h : backend.IsExact) :
    (ExactSolver.solveThrough backend).IsExact := by
  intro p hp hne state
  have hnames : p.names.isEmpty = false := List.isEmpty_eq_false_iff.mpr hne
  rcases h p.collect (Program.isRational_collect hp) Program.isCollected_collect hne with
    ⟨values, hvalues, hoptimal⟩ | ⟨herror, hnone⟩
  · refine .inl ⟨_, ?_, Program.isOptimal_of_collect hoptimal⟩
    rw [ExactSolver.solveThrough, hnames, if_neg Bool.false_ne_true, hvalues]
  · refine .inr ⟨?_, fun values hvalues => hnone values (Program.feasible_collect_iff.mpr hvalues)⟩
    rw [ExactSolver.solveThrough, hnames, if_neg Bool.false_ne_true, herror]

/-! ### A solver that tries all assignments -/

/-- The lists of zeros and ones of a given length. -/
def bitLists : ℕ → List (List Exact)
  | 0 => [[]]
  | n + 1 => (bitLists n).flatMap fun bits => [finite 0 :: bits, finite 1 :: bits]

theorem mem_bitLists_iff {n : ℕ} {values : List Exact} :
    values ∈ bitLists n ↔
      values.length = n ∧ ∀ x ∈ values, x = finite 0 ∨ x = finite 1 := by
  induction n generalizing values with
  | zero =>
    rw [bitLists, List.mem_singleton, List.length_eq_zero_iff]
    constructor
    · rintro rfl
      exact ⟨rfl, by simp⟩
    · exact fun h => h.1
  | succ n ih =>
    rw [bitLists, List.mem_flatMap]
    constructor
    · rintro ⟨bits, hbits, hmem⟩
      obtain ⟨hlen, hbin⟩ := ih.mp hbits
      rcases List.mem_pair.mp hmem with rfl | rfl
      · exact ⟨by rw [List.length_cons, hlen], by simpa using hbin⟩
      · exact ⟨by rw [List.length_cons, hlen], by simpa using hbin⟩
    · rintro ⟨hlen, hbin⟩
      cases values with
      | nil => simp at hlen
      | cons x bits =>
        obtain ⟨hx, hbits⟩ := List.forall_mem_cons.mp hbin
        exact ⟨bits, ih.mpr ⟨Nat.succ.inj hlen, hbits⟩, List.mem_pair.mpr (by simpa using hx)⟩

namespace Program

variable (p : Program Exact)

/-- The feasible assignments. -/
def feasibleLists : List (List Exact) :=
  (bitLists p.names.length).filter fun values => (p.unsatisfied? zero values).isNone

theorem mem_feasibleLists_iff {values : List Exact} :
    values ∈ p.feasibleLists ↔ p.Feasible values := by
  rw [feasibleLists, List.mem_filter, mem_bitLists_iff, Option.isNone_iff_eq_none,
    p.unsatisfied?_eq_none_iff]
  exact ⟨fun h => ⟨h.1.1, h.1.2, h.2⟩, fun h => ⟨⟨h.length_eq, h.binary⟩, h.holds⟩⟩

/-- A feasible assignment whose objective is least, if there is a feasible one. -/
def leastFeasible? : Option (List Exact) :=
  p.feasibleLists.argmin fun values => (p.evaluate values).value

end Program

/-- Answers programs by trying all assignments. -/
def ExactSolver.enumerate : Solver ExactSolver Exact := solveBy Program.leastFeasible?

theorem Backend.isExact_ofLeast : (Backend.ofLeast Program.leastFeasible?).IsExact := by
  intro p hp _ _
  rw [Backend.ofLeast]
  cases hleast : p.leastFeasible? with
  | none =>
    refine .inr ⟨rfl, fun values hvalues => ?_⟩
    have hnil := List.argmin_eq_none.mp hleast
    rw [← p.mem_feasibleLists_iff, hnil] at hvalues
    simp at hvalues
  | some values =>
    have hmem := p.mem_feasibleLists_iff.mp (List.argmin_mem hleast)
    refine .inl ⟨values, rfl, hmem, rfl, fun other hother => ?_⟩
    have hle := List.le_of_mem_argmin (p.mem_feasibleLists_iff.mpr hother) hleast
    have hrational := fun term hterm => (hp.objective term hterm).2
    obtain ⟨qs, hqs⟩ := Exact.exists_eq_map_finite hmem.isFinite
    obtain ⟨qs', hqs'⟩ := Exact.exists_eq_map_finite hother.isFinite
    obtain ⟨q, hq⟩ := LinearForm.exists_eval_eq hrational qs
    obtain ⟨q', hq'⟩ := LinearForm.exists_eval_eq hrational qs'
    show le (p.evaluate values) (p.evaluate other) = true
    rw [Program.evaluate, Program.evaluate, hqs, hqs', hq, hq'] at hle ⊢
    rw [Exact.le_finite]
    exact decide_eq_true hle

/-- **Exact solvers exist.** -/
theorem isExact_enumerate : ExactSolver.enumerate.IsExact :=
  Backend.isExact_solveThrough Backend.isExact_ofLeast

end Keyspace
