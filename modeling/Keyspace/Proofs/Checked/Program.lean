import Keyspace.Program.LpText
import Keyspace.Proofs.Checked.Schema
import Keyspace.Proofs.Program.Verify

/-!
# Checked lookups in programs and answers

The terms of a program refer to its variables by number.  If they refer to variables there are
(`Program.IsClosed`), the text of the program finds all names (`lpText_eq`).

An answer comes from outside and may hold any number of values.  The test for their number stands
before the first lookup of `verify`, so that no answer takes it out of range (`verify_eq`); and a
verified answer has a value for each variable (`isSet_eq_of_verify`).
-/

namespace Keyspace

open Scalar

/-- A program whose terms are over its own variables. -/
structure Program.IsClosed {α : Type} (p : Program α) : Prop where
  objective_lt : ∀ t ∈ p.objective, t.1 < p.names.length
  terms_lt : ∀ c ∈ p.constraints, ∀ t ∈ c.terms, t.1 < p.names.length

namespace Checked

variable {α : Type} [Scalar α]

/-! ### Answers -/

/-- The value of a form. -/
def eval (f : LinearForm α) (values : List α) : Option α :=
  (f.mapM fun t => values[t.1]?.map (t.2 * ·)).map sum

/-- Is a variable set? -/
def isSet (s : Solution α) (v : ℕ) : Option Bool := s.values[v]?.map (lt (decimal 5 1))

/-- The first constraint that does not hold. -/
def unsatisfied (tolerance : α) (values : List α) :
    List (Constraint α) → Option (Option (Violation α))
  | [] => some none
  | c :: rest => do
    let lhs ← eval c.terms values
    if c.holds lhs tolerance then unsatisfied tolerance values rest
    else return some (.unsatisfied c.name lhs c.sense c.bound)

/-- Checks that an answer is binary and satisfies all constraints, up to a tolerance. -/
def verify (p : Program α) (tolerance : α) (values : List α) : Option (Except (Violation α) Unit) :=
  if values.length ≠ p.names.length then
    some (.error (.arity p.names.length values.length))
  else
    match p.nonBinary? tolerance values with
    | some violation => some (.error violation)
    | none => do
      match ← unsatisfied tolerance values p.constraints with
      | some violation => return .error violation
      | none => return .ok ()

theorem eval_eq {f : LinearForm α} {values : List α} (h : ∀ t ∈ f, t.1 < values.length) :
    eval f values = some (f.eval values) := by
  have hterms : ∀ t ∈ f, values[t.1]?.map (t.2 * ·) = some (t.2 * values.getD t.1 zero) := by
    intro t ht
    rw [getElem?_eq_some_getD (h t ht) zero]
    rfl
  rw [eval, mapM_eq_some hterms]
  rfl

theorem unsatisfied_eq (tolerance : α) {values : List α} {cs : List (Constraint α)}
    (h : ∀ c ∈ cs, ∀ t ∈ c.terms, t.1 < values.length) :
    unsatisfied tolerance values cs
      = some ((cs.find? fun c => !c.holds (c.terms.eval values) tolerance).map fun c =>
          .unsatisfied c.name (c.terms.eval values) c.sense c.bound) := by
  induction cs with
  | nil => rfl
  | cons c rest ih =>
    obtain ⟨hc, hrest⟩ := List.forall_mem_cons.mp h
    rw [unsatisfied, eval_eq hc, ih hrest, List.find?_cons]
    simp only [Option.bind_eq_bind, Option.bind_some]
    cases c.holds (c.terms.eval values) tolerance <;> rfl

variable {p : Program α}

theorem verify_eq (hp : p.IsClosed) (tolerance : α) (values : List α) :
    verify p tolerance values = some (p.verify tolerance values) := by
  rw [verify, Program.verify, Program.violation?]
  split_ifs with hlength
  · rfl
  · have hterms : ∀ c ∈ p.constraints, ∀ t ∈ c.terms, t.1 < values.length := by
      rw [not_not.mp hlength]
      exact hp.terms_lt
    have hunsatisfied : unsatisfied tolerance values p.constraints
        = some (p.unsatisfied? tolerance values) := unsatisfied_eq tolerance hterms
    rw [hunsatisfied]
    cases p.nonBinary? tolerance values with
    | some violation => rfl
    | none => cases p.unsatisfied? tolerance values <;> rfl

/-- A verified answer has a value for each variable. -/
theorem isSet_eq_of_verify {tolerance : α} {s : Solution α}
    (hs : p.verify tolerance s.values = .ok ()) {v : ℕ} (hv : v < p.names.length) :
    isSet s v = some (s.isSet v) := by
  rw [← ((p.verify_eq_ok_iff tolerance s.values).mp hs).1] at hv
  rw [isSet, getElem?_eq_some_getD hv zero]
  rfl

/-! ### Programs as text -/

variable [ScalarText α]

/-- A term after its sign. -/
def magnitudeText (p : Program α) (t : ℕ × α) : Option String := do
  let name ← p.names[t.1]?
  let magnitude := abs t.2
  return if same magnitude one then name else ScalarText.plain magnitude ++ " " ++ name

/-- A term that follows others. -/
def laterTermText (p : Program α) (t : ℕ × α) : Option String :=
  (magnitudeText p t).map fun text => " " ++ Program.signText t.2 ++ " " ++ text

/-- The text of a form. -/
def formText (p : Program α) : LinearForm α → Option String
  | [] => some " 0"
  | t :: rest => do
    let first ← if lt t.2 zero then laterTermText p t else (magnitudeText p t).map (" " ++ ·)
    let later ← rest.mapM (laterTermText p)
    return first ++ String.join later

/-- One constraint on a line. -/
def constraintText (p : Program α) (c : Constraint α) : Option String :=
  (formText p c.terms).map fun text =>
    " " ++ c.name ++ ":" ++ text ++ " " ++ c.sense.text ++ " " ++ ScalarText.plain c.bound ++ "\n"

/-- The text of a program in the LP format. -/
def lpText (p : Program α) : Option String := do
  let objective ← formText p p.objective
  let constraints ← p.constraints.mapM (constraintText p)
  return "Minimize\n obj:" ++ objective ++ "\nSubject To\n" ++ String.join constraints ++
    "Binary\n" ++ String.join (p.names.map fun name => " " ++ name ++ "\n") ++ "End\n"

theorem magnitudeText_eq {t : ℕ × α} (h : t.1 < p.names.length) :
    magnitudeText p t = some (p.magnitudeText t) := by
  rw [magnitudeText, Program.magnitudeText, getElem?_eq_some_getD h ""]
  rfl

theorem formText_eq {f : LinearForm α} (h : ∀ t ∈ f, t.1 < p.names.length) :
    formText p f = some (p.formText f) := by
  have hlater : ∀ t ∈ f, laterTermText p t = some (p.laterTermText t) := by
    intro t ht
    rw [laterTermText, magnitudeText_eq (h t ht)]
    rfl
  cases f with
  | nil => rfl
  | cons t rest =>
    rw [formText, Program.formText, magnitudeText_eq (h t List.mem_cons_self),
      mapM_eq_some fun t ht => hlater t (List.mem_cons_of_mem _ ht),
      hlater t List.mem_cons_self]
    split_ifs <;> rfl

theorem lpText_eq (hp : p.IsClosed) : lpText p = some p.lpText := by
  have hconstraint : ∀ c ∈ p.constraints, constraintText p c = some (p.constraintText c) := by
    intro c hc
    rw [constraintText, formText_eq (hp.terms_lt c hc)]
    rfl
  rw [lpText, formText_eq hp.objective_lt, mapM_eq_some hconstraint]
  rfl

end Checked

end Keyspace
