import Keyspace.Scalar.Text
import Keyspace.Workload.Basic

/-!
# Explaining a workload

The text of all plan trees with the costs of their candidates, one candidate on a line and each
level indented below the one before it, followed by the direct lookups.
-/

namespace Keyspace

/-- Blanks in front of a line at a depth of a tree. -/
def indentation (depth : Nat) : String := String.ofList (List.replicate (2 * depth) ' ')

/-- A cost as readers see it. -/
def costText {α : Type} [ScalarText α] (cost : α) : String := ScalarText.fixed 3 cost

variable {α : Type} [ScalarText α]

mutual

/-- The lines of a node and of the nodes below it. -/
def Plan.explain (line : Nat → String) (depth : Nat) : Plan → String
  | ⟨candidate, children⟩ =>
    indentation depth ++ line candidate ++ "\n" ++ Plan.explainAll line (depth + 1) children

/-- The lines of several nodes. -/
def Plan.explainAll (line : Nat → String) (depth : Nat) : List Plan → String
  | [] => ""
  | plan :: rest => plan.explain line depth ++ Plan.explainAll line depth rest

end

/-- The text of a workload whose candidates have the given costs. -/
def Workload.explain [Scalar α] (w : Workload) (catalog : Catalog) (costs : List α) : String :=
  let line := fun id =>
    (w.candidate id).key.describe catalog ++ " cost=" ++ costText (costs.getD id Scalar.zero)
  String.join (w.plans.map fun p => p.label ++ "\n" ++ Plan.explainAll line 1 p.plans) ++
    String.join (w.lookups.map fun l => l.label ++ " by id\n")

end Keyspace
