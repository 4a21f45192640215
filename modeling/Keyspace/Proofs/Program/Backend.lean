import Keyspace.Proofs.Program.Feasible

/-!
# A backend for programs with variables

An exact backend answers every program with variables.  The solver that asks it answers programs
without variables as well, and by itself: with the empty assignment, whatever their constraints say.
`Backend.isAnsweredBy_solveThrough_iff` says that this is the only fault.  A program is answered as
it should be exactly if it has variables, or no constraint that fails for the empty assignment.
-/

namespace Keyspace

open Scalar
open Exact (finite)

namespace Program

variable {p : Program Exact}

variable (p) in
/-- An answer is optimal where there are feasible assignments, and reports that there are none
exactly where there are none. -/
structure IsAnsweredBy (answer : Except SolveError (Solution Exact)) : Prop where
  optimal : ∀ values, p.Feasible values → ∃ s, answer = .ok s ∧ p.IsOptimal s
  infeasible : answer = .error .infeasible ↔ ∀ values, ¬ p.Feasible values

theorem isAnsweredBy_ok {s : Solution Exact} (h : p.IsOptimal s) : p.IsAnsweredBy (.ok s) where
  optimal _ _ := ⟨s, rfl, h⟩
  infeasible := ⟨fun herror => absurd herror (by simp), fun hnone => absurd h.feasible (hnone _)⟩

theorem isAnsweredBy_infeasible (h : ∀ values, ¬ p.Feasible values) :
    p.IsAnsweredBy (.error .infeasible) where
  optimal values hvalues := absurd hvalues (h values)
  infeasible := ⟨fun _ => h, fun _ => rfl⟩

/-! ### Programs without variables -/

section Empty

variable (hp : p.IsRational) (hnames : p.names = [])
include hp hnames

/-- Without variables there are no terms. -/
theorem terms_eq_nil {c : Constraint Exact} (hc : c ∈ p.constraints) : c.terms = [] := by
  refine List.eq_nil_iff_forall_not_mem.mpr fun term hterm => ?_
  have hlt := (hp.terms c hc term hterm).1
  rw [hnames] at hlt
  exact absurd hlt (Nat.not_lt_zero _)

theorem feasible_iff_of_names_eq_nil {values : List Exact} :
    p.Feasible values ↔ values = [] ∧ ∀ c ∈ p.constraints, c.holds zero zero = true := by
  have hholds : ∀ c ∈ p.constraints, c.holds (c.terms.eval values) zero = c.holds zero zero := by
    intro c hc
    rw [terms_eq_nil hp hnames hc]
    rfl
  constructor
  · rintro ⟨hlength, -, hall⟩
    rw [hnames] at hlength
    exact ⟨List.length_eq_zero_iff.mp hlength, fun c hc => (hholds c hc).symm.trans (hall c hc)⟩
  · rintro ⟨rfl, hall⟩
    refine ⟨?_, by simp, fun c hc => (hholds c hc).trans (hall c hc)⟩
    rw [hnames, List.length_nil, List.length_nil]

/-- The empty answer is right exactly if all constraints hold without variables. -/
theorem isAnsweredBy_empty_iff :
    p.IsAnsweredBy (.ok ⟨[], zero⟩) ↔ ∀ c ∈ p.constraints, c.holds zero zero = true := by
  have hobjective : p.objective = [] := by
    refine List.eq_nil_iff_forall_not_mem.mpr fun term hterm => ?_
    have hlt := (hp.objective term hterm).1
    rw [hnames] at hlt
    exact absurd hlt (Nat.not_lt_zero _)
  constructor
  · intro h
    by_contra hfails
    have hnone : ∀ values, ¬ p.Feasible values := fun values hvalues =>
      hfails ((feasible_iff_of_names_eq_nil hp hnames).mp hvalues).2
    exact absurd (h.infeasible.mpr hnone) (by simp)
  · intro hall
    refine isAnsweredBy_ok
      ⟨(feasible_iff_of_names_eq_nil hp hnames).mpr ⟨rfl, hall⟩, ?_, fun values _ => ?_⟩
    · rw [evaluate, hobjective]
      rfl
    · rw [evaluate, evaluate, hobjective]
      rfl

end Empty

end Program

/-! ### All programs -/

variable {backend : Backend Exact} {p : Program Exact}

/-- **Through an exact backend every rational program is answered as it should be**, except for
programs without variables that have a constraint which fails. -/
theorem Backend.isAnsweredBy_solveThrough_iff (hbackend : backend.IsExact) (hp : p.IsRational)
    (state : ExactSolver) :
    p.IsAnsweredBy (ExactSolver.solveThrough backend p state).1 ↔
      (p.names = [] → ∀ c ∈ p.constraints, c.holds zero zero = true) := by
  by_cases hnames : p.names = []
  · have hanswer : (ExactSolver.solveThrough backend p state).1 = .ok ⟨[], zero⟩ := by
      rw [ExactSolver.solveThrough, hnames, List.isEmpty_nil, if_pos rfl]
    rw [hanswer, Program.isAnsweredBy_empty_iff hp hnames]
    exact ⟨fun h _ => h, fun h => h hnames⟩
  · refine iff_of_true ?_ fun h => absurd h hnames
    rcases Backend.isExact_solveThrough hbackend p hp hnames state with
      ⟨s, hs, hoptimal⟩ | ⟨herror, hnone⟩
    · rw [hs]
      exact Program.isAnsweredBy_ok hoptimal
    · rw [herror]
      exact Program.isAnsweredBy_infeasible hnone

/-- A program that names its variable twice is answered through the backend that tries all
assignments. -/
theorem Backend.isAnsweredBy_solveThrough_twice :
    let p : Program Exact :=
      ⟨["a"], [⟨"need", [(0, finite 1), (0, finite 1)], .atLeast, finite 2⟩], [(0, finite 3)]⟩
    p.IsRational ∧
      p.IsAnsweredBy (ExactSolver.solveThrough (.ofLeast Program.leastFeasible?) p {}).1 := by
  intro p
  have hp : p.IsRational := by
    refine ⟨?_, ?_, ?_⟩
    · exact List.forall_mem_singleton.mpr ⟨Nat.one_pos, 3, rfl⟩
    · refine List.forall_mem_singleton.mpr (List.forall_mem_cons.mpr ⟨⟨Nat.one_pos, 1, rfl⟩, ?_⟩)
      exact List.forall_mem_singleton.mpr ⟨Nat.one_pos, 1, rfl⟩
    · exact List.forall_mem_singleton.mpr ⟨2, rfl⟩
  refine ⟨hp, (Backend.isAnsweredBy_solveThrough_iff Backend.isExact_ofLeast hp {}).mpr ?_⟩
  exact fun hnames => absurd hnames (by simp [p])

/-- A constraint that asks for 1 and has no terms is not reported: the solver answers a program that
has no feasible assignment. -/
theorem Backend.exists_not_isAnsweredBy :
    ∃ p : Program Exact, p.IsRational ∧ (∀ values, ¬ p.Feasible values) ∧
      ∀ (backend : Backend Exact) (state : ExactSolver),
        (ExactSolver.solveThrough backend p state).1 = .ok ⟨[], zero⟩ := by
  have hp : Program.IsRational ⟨[], [⟨"need", [], .atLeast, finite 1⟩], []⟩ :=
    ⟨by simp, by simp, List.forall_mem_singleton.mpr ⟨1, rfl⟩⟩
  refine ⟨_, hp, fun values h => ?_, fun _ _ => rfl⟩
  have hneed := ((Program.feasible_iff_of_names_eq_nil hp rfl).mp h).2 _ List.mem_cons_self
  norm_num [Constraint.holds] at hneed

end Keyspace
