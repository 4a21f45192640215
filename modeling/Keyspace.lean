import Keyspace.Planner
import Keyspace.Program.BranchBound
import Keyspace.Report.Text
import Keyspace.Scalar.Exact
import Keyspace.Schema.Build
import Keyspace.Settings.Files
import Keyspace.Json.Reader
import Keyspace.Proofs.Program.Verify
import Keyspace.Proofs.Workload.Search
import Keyspace.Proofs.Workload.Siblings
import Keyspace.Proofs.Selection.Tables
import Keyspace.Proofs.Selection.Choice
import Keyspace.Proofs.Selection.Formulation
import Keyspace.Proofs.Sorted.Set
import Keyspace.Proofs.Selection.Phases
import Keyspace.Proofs.Selection.Verified
import Keyspace.Proofs.Program.Verdict
import Keyspace.Proofs.Program.Feasible
import Keyspace.Proofs.Program.Backend
import Keyspace.Proofs.Program.LpText
import Keyspace.Proofs.Selection.Assignment
import Keyspace.Proofs.Selection.Plan
import Keyspace.Proofs.Selection.Optimal
import Keyspace.Proofs.Schema.Build
import Keyspace.Proofs.Cost.Order
import Keyspace.Proofs.Cost.FreeSort
import Keyspace.Proofs.Schema.Levels
import Keyspace.Proofs.Workload.Partition
import Keyspace.Proofs.Workload.Combinations
import Keyspace.Proofs.Scalar.Binary64
import Keyspace.Proofs.Scalar.Laws
import Keyspace.Proofs.Scalar.Numeral
import Keyspace.Proofs.Scalar.Ordered
import Keyspace.Proofs.Selection.Cheapest
import Keyspace.Proofs.Selection.Smallest
import Keyspace.Proofs.Report.Accounts
import Keyspace.Proofs.Report.Selected
import Keyspace.Proofs.Schema.Resolve
import Keyspace.Proofs.Candidate.Clustering
import Keyspace.Proofs.Candidate.Requested
import Keyspace.Proofs.Candidate.Partition
import Keyspace.Proofs.Candidate.Enumerate
import Keyspace.Proofs.Candidate.Promotion
import Keyspace.Proofs.Selection.Envelope
import Keyspace.Proofs.Selection.Readers
import Keyspace.Proofs.Selection.Separable
import Keyspace.Proofs.Selection.Reported
import Keyspace.Proofs.Sorted.Alike
import Keyspace.Proofs.Sorted.Faithful
import Keyspace.Proofs.Cost.Memo
import Keyspace.Proofs.Cost.Shared
import Keyspace.Proofs.Cost.Finite
import Keyspace.Proofs.Cost.Bounds
import Keyspace.Proofs.Workload.Answer
import Keyspace.Proofs.Workload.Pruning
import Keyspace.Proofs.Workload.Statistics
import Keyspace.Proofs.Workload.Priced
import Keyspace.Proofs.Workload.Ideal
import Keyspace.Proofs.Workload.Promoted
import Keyspace.Proofs.Workload.Paths
import Keyspace.Proofs.Workload.Reorder
import Keyspace.Proofs.Workload.Remembered
import Keyspace.Proofs.Workload.Extend
import Keyspace.Proofs.Selection.Collapse
import Keyspace.Proofs.Selection.Canonical
import Keyspace.Proofs.Selection.Determined
import Keyspace.Proofs.Selection.Reorder
import Keyspace.Proofs.Text.Segments
import Keyspace.Proofs.Json.Reader
import Keyspace.Proofs.Schema.Names
import Keyspace.Proofs.Schema.Resolution
import Keyspace.Proofs.Candidate.Naming
import Keyspace.Proofs.Report.Identity
import Keyspace.Proofs.Report.Fingerprint
import Keyspace.Proofs.Report.Integrity
import Keyspace.Proofs.Schema.WellFormed
import Keyspace.Proofs.Schema.Plannable
import Keyspace.Proofs.Schema.Represents
import Keyspace.Proofs.Schema.Faults
import Keyspace.Proofs.Checked.Schema
import Keyspace.Proofs.Checked.Search
import Keyspace.Proofs.Checked.Formulation
import Keyspace.Proofs.Checked.Phases
import Keyspace.Proofs.Checked.Report
import Keyspace.Proofs.Checked.Plan
