import Keyspace.Selection.Phases
import Keyspace.Proofs.Program.Verify
import Keyspace.Proofs.Sorted.Set
import Mathlib.Data.List.Forall2

/-!
# The two phases of a selection

`Model.select_fst` writes a selection as its two phases, and `Model.exists_answers_of_select_eq_ok`
says what lies behind a selection that succeeds: two answers of the solver, both verified.
`Formulation.exists_choice` is what the last step does with the second answer: if every set of
alternatives has a used member, the selected candidates are one used member of each set.

Examples of selections are made with the simplest of solvers, `Solver.constant`.
-/

namespace Keyspace

open Scalar Formulation

variable {α σ : Type} [Scalar α]

/-- A solver that answers every program with one value for all variables, and with an objective of
its own. -/
def Solver.constant (value objective : α) : Solver Unit α := fun p s =>
  (.ok ⟨List.replicate p.names.length value, objective⟩, s)

/-! ### Phases -/

section Phases

variable (solver : Solver σ α) (tolerance : α) (phase : Phase) (p : Program α) (state : σ)

theorem runPhase_snd : (runPhase solver tolerance phase p state).2 = (solver p state).2 := by
  rw [runPhase]
  split <;> next h => rw [h]

variable {solver state p}

theorem runPhase_of_error {e : SolveError} (h : (solver p state).1 = .error e) :
    (runPhase solver tolerance phase p state).1 = .error (.ofSolve phase p e) := by
  rw [runPhase]
  split <;> simp_all

theorem runPhase_of_ok {s : Solution α} (h : (solver p state).1 = .ok s) :
    (runPhase solver tolerance phase p state).1 = checkAnswer tolerance phase p s := by
  rw [runPhase]
  split <;> simp_all

variable {tolerance phase}

theorem checkAnswer_of_ok {s : Solution α} (h : p.verify tolerance s.values = .ok ()) :
    checkAnswer tolerance phase p s
      = .ok (s, ⟨phase, p.names.length, p.constraints.length, s.objective⟩) := by
  rw [checkAnswer, h]

theorem checkAnswer_of_error {s : Solution α} {v : Violation α}
    (h : p.verify tolerance s.values = .error v) :
    checkAnswer tolerance phase p s = .error (.integrity phase v) := by
  rw [checkAnswer, h]

/-- Behind a phase that succeeds is a verified answer. -/
theorem exists_of_runPhase_eq_ok {answer : Solution α × PhaseStats α}
    (h : (runPhase solver tolerance phase p state).1 = .ok answer) :
    (solver p state).1 = .ok answer.1 ∧ p.verify tolerance answer.1.values = .ok () := by
  cases hsolve : (solver p state).1 with
  | error e => simp [runPhase_of_error tolerance phase hsolve] at h
  | ok s =>
    rw [runPhase_of_ok tolerance phase hsolve] at h
    rcases p.verify_eq_ok_or_error tolerance s.values with hv | ⟨v, hv⟩
    · rw [checkAnswer_of_ok hv] at h
      obtain rfl := Except.ok.inj h
      exact ⟨rfl, hv⟩
    · rw [checkAnswer_of_error hv] at h
      exact absurd h (by simp)

end Phases

/-! ### Selections -/

section Selections

variable {m : Model α} {w : Workload} {costs : List α} {costMargin tolerance : α}
  {solver : Solver σ α} {state : σ} (hne : w.isEmpty = false)
include hne

/-- A selection is its two phases. -/
theorem Model.select_fst :
    (m.select w costs costMargin tolerance solver state).1
      = (runPhase solver tolerance .cost (m.formulate w costs).program state).1.bind fun phase1 =>
          (runPhase solver tolerance .tableCount
            ((m.formulate w costs).countTables (phase1.1.objective * costMargin))
            (solver (m.formulate w costs).program state).2).1.map fun phase2 =>
              (m.formulate w costs).outcome w costs phase1 phase2 := by
  -- the second phase starts from the state that the first one left
  have hsnd := runPhase_snd solver tolerance .cost (m.formulate w costs).program state
  rw [Model.select, if_neg (by simp [hne])]
  dsimp only
  split
  next h =>
    rw [h]
    rfl
  next h =>
    rw [h] at hsnd
    subst hsnd
    rw [h]
    split <;> next h' => rw [Except.bind, h']; rfl

/-- After a verified first answer a selection is its second phase. -/
theorem Model.select_of_phase1 {s₁ : Solution α}
    (hs₁ : (solver (m.formulate w costs).program state).1 = .ok s₁)
    (hv₁ : (m.formulate w costs).program.verify tolerance s₁.values = .ok ()) :
    (m.select w costs costMargin tolerance solver state).1
      = (runPhase solver tolerance .tableCount
          ((m.formulate w costs).countTables (s₁.objective * costMargin))
          (solver (m.formulate w costs).program state).2).1.map fun phase2 =>
            (m.formulate w costs).outcome w costs
              (s₁, ⟨.cost, (m.formulate w costs).program.names.length,
                (m.formulate w costs).program.constraints.length, s₁.objective⟩) phase2 := by
  rw [Model.select_fst hne, runPhase_of_ok _ _ hs₁, checkAnswer_of_ok hv₁]
  rfl

/-- Behind a selection that succeeds are two answers of the solver, both verified. -/
theorem Model.exists_answers_of_select_eq_ok {o : Outcome α}
    (h : (m.select w costs costMargin tolerance solver state).1 = .ok o) :
    ∃ phase1 phase2 : Solution α × PhaseStats α,
      (solver (m.formulate w costs).program state).1 = .ok phase1.1 ∧
      (solver ((m.formulate w costs).countTables (phase1.1.objective * costMargin))
        (solver (m.formulate w costs).program state).2).1 = .ok phase2.1 ∧
      (m.formulate w costs).program.verify tolerance phase1.1.values = .ok () ∧
      ((m.formulate w costs).countTables (phase1.1.objective * costMargin)).verify tolerance
        phase2.1.values = .ok () ∧
      o = (m.formulate w costs).outcome w costs phase1 phase2 := by
  rw [Model.select_fst hne] at h
  cases h₁ : (runPhase solver tolerance .cost (m.formulate w costs).program state).1 with
  | error e => simp [h₁, Except.bind] at h
  | ok phase1 =>
    rw [h₁, Except.bind] at h
    cases h₂ : (runPhase solver tolerance .tableCount
        ((m.formulate w costs).countTables (phase1.1.objective * costMargin))
        (solver (m.formulate w costs).program state).2).1 with
    | error e => simp [h₂, Except.map] at h
    | ok phase2 =>
      rw [h₂] at h
      obtain ⟨hs₁, hv₁⟩ := exists_of_runPhase_eq_ok h₁
      obtain ⟨hs₂, hv₂⟩ := exists_of_runPhase_eq_ok h₂
      exact ⟨phase1, phase2, hs₁, hs₂, hv₁, hv₂, (Except.ok.inj h).symm⟩

theorem Model.exists_of_select_eq_ok {o : Outcome α}
    (h : (m.select w costs costMargin tolerance solver state).1 = .ok o) :
    ∃ phase1 phase2 : Solution α × PhaseStats α,
      (m.formulate w costs).program.verify tolerance phase1.1.values = .ok () ∧
      ((m.formulate w costs).countTables (phase1.1.objective * costMargin)).verify tolerance
        phase2.1.values = .ok () ∧
      o = (m.formulate w costs).outcome w costs phase1 phase2 := by
  obtain ⟨phase1, phase2, -, -, hanswers⟩ := Model.exists_answers_of_select_eq_ok hne h
  exact ⟨phase1, phase2, hanswers⟩

omit hne in
/-- What is selected are tables of the workload. -/
theorem Model.tables_of_select_eq_ok {o : Outcome α}
    (h : (m.select w costs costMargin tolerance solver state).1 = .ok o) :
    o.tables = Tables.collapse w.candidates := by
  cases hne : w.isEmpty with
  | true =>
    rw [select, if_pos hne] at h
    rw [← Except.ok.inj h, List.isEmpty_iff.mp hne]
    rfl
  | false =>
    obtain ⟨phase1, phase2, -, -, rfl⟩ := Model.exists_of_select_eq_ok hne h
    rfl

end Selections

/-! ### The last step -/

section Used

variable (f : Formulation α) (costs : List α) (s : Solution α)

theorem foldl_cheaper_mem (rest : List ℕ) : ∀ c, rest.foldl (cheaper costs) c ∈ c :: rest := by
  induction rest with
  | nil => exact fun c => List.mem_singleton_self c
  | cons d rest ih =>
    intro c
    have hcheaper : cheaper costs c d = c ∨ cheaper costs c d = d := by
      unfold cheaper
      split
      · exact .inr rfl
      · exact .inl rfl
    rw [List.foldl_cons]
    rcases List.mem_cons.mp (ih (cheaper costs c d)) with h | h
    · rw [h]
      rcases hcheaper with h | h <;> simp [h]
    · exact List.mem_cons_of_mem c (List.mem_cons_of_mem d h)

/-- What is taken from a set of alternatives is a used member of it. -/
theorem cheapestUsed?_eq_some {siblings : List ℕ} {c : ℕ}
    (h : f.cheapestUsed? costs s siblings = some c) :
    c ∈ siblings ∧ s.isSet (candidateVar f.tables c) = true := by
  rw [cheapestUsed?] at h
  split at h
  · exact absurd h (by simp)
  next d rest hused =>
    obtain rfl := Option.some.inj h
    have hmem := foldl_cheaper_mem costs rest d
    rw [← hused] at hmem
    exact List.mem_filter.mp hmem

/-- From a set of alternatives with a used member one is taken. -/
theorem exists_cheapestUsed? {siblings : List ℕ}
    (h : ∃ c ∈ siblings, s.isSet (candidateVar f.tables c) = true) :
    ∃ c, f.cheapestUsed? costs s siblings = some c := by
  obtain ⟨c, hc, hset⟩ := h
  rw [cheapestUsed?]
  split
  next hnone =>
    rw [List.filter_eq_nil_iff] at hnone
    exact absurd hset (hnone c hc)
  · exact ⟨_, rfl⟩

/-- If every set of alternatives has a used member, one of each set is selected. -/
theorem exists_choice {w : Workload}
    (h : ∀ ids ∈ w.siblingSets, ∃ c ∈ ids, s.isSet (candidateVar f.tables c) = true) :
    ∃ choice : List ℕ,
      List.Forall₂ (fun c ids => f.cheapestUsed? costs s ids = some c) choice w.siblingSets ∧
      f.usedCandidates w costs s = .ofList choice := by
  suffices general : ∀ sets : List (List ℕ),
      (∀ ids ∈ sets, ∃ c ∈ ids, s.isSet (candidateVar f.tables c) = true) →
      List.Forall₂ (fun c ids => f.cheapestUsed? costs s ids = some c)
        (sets.filterMap (f.cheapestUsed? costs s)) sets from ⟨_, general _ h, rfl⟩
  intro sets
  induction sets with
  | nil => exact fun _ => .nil
  | cons ids sets ih =>
    intro h
    obtain ⟨c, hc⟩ := exists_cheapestUsed? f costs s (h ids List.mem_cons_self)
    rw [List.filterMap_cons_some hc]
    exact .cons hc (ih fun ids' h' => h ids' (List.mem_cons_of_mem ids h'))

end Used

end Keyspace
