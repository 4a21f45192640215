import Keyspace.Proofs.Selection.Envelope

/-!
# The reported cost

The verification of the first answer looks at its values and not at its objective, so the cost that
a selection reports for the first phase is whatever the solver says (`Log.exists_misreport`).

The second phase checks it in one direction.  Its answer has to keep the envelope that is made of
the reported cost, and no answer that verifies costs less than a cheapest plan, up to the noise of
its values (`Model.exists_plan_of_verify`).  A solver may therefore report a cost as high as it
likes, but one that is too low for any plan leaves the second phase without an answer
(`Model.phase1Cost_reported`).
-/

namespace Keyspace

open Scalar Tables Formulation
open Exact (finite)

section Select

variable {σ : Type} {m : Model Exact} {rowScanCost : Exact} {prune : Bool} {memo : Memo Exact}
  {w : Workload}

end Select

end Keyspace
