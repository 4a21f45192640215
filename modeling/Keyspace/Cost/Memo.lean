import Keyspace.Cost.Estimate

/-!
# Remembered costs

A cost depends on less than the whole candidate: two levels of different queries may ask the same
of the same table.  `CostKey` is what it depends on besides the model, and a `Memo` remembers the
costs computed so far and counts how often it was of use.
-/

namespace Keyspace

/-- What the cost of a candidate depends on. -/
structure CostKey where
  key : TableKey
  predicates : PathSet
  remaining : PathSet
  order : List OrderTerm
  pageSize : Nat

namespace CostKey

/-- The cost key of a candidate. -/
def ofCandidate (c : Candidate) : CostKey where
  key := c.key
  predicates := c.clause.predicatePaths
  remaining := c.remaining
  order := c.clause.order
  pageSize := c.pageSize

/-- Do two cost keys stand for the same cost? -/
def same (a b : CostKey) : Bool :=
  compare a.key b.key == .eq && compare a.predicates b.predicates == .eq &&
    compare a.remaining b.remaining == .eq && compare a.order b.order == .eq &&
    a.pageSize == b.pageSize

end CostKey

/-- The costs computed so far, latest first, and two counters. -/
structure Memo (α : Type) where
  entries : List (CostKey × α) := []
  /-- Costs that were found here. -/
  hits : Nat := 0
  /-- Costs that had to be computed, whether that succeeded or not. -/
  misses : Nat := 0
deriving Inhabited

namespace Memo

/-- The remembered cost. -/
def find? {α : Type} (memo : Memo α) (key : CostKey) : Option α :=
  (memo.entries.find? fun e => e.1.same key).map (·.2)

/-- Runs a step on each element of a list, handing the memo on, up to the first step that
fails. -/
def collect {α β γ ε : Type} (memo : Memo α) (step : β → Memo α → Except ε γ × Memo α) :
    List β → Except ε (List γ) × Memo α
  | [] => (.ok [], memo)
  | b :: rest =>
    match step b memo with
    | (.error e, memo) => (.error e, memo)
    | (.ok c, memo) =>
      match memo.collect step rest with
      | (.error e, memo) => (.error e, memo)
      | (.ok cs, memo) => (.ok (c :: cs), memo)

end Memo

namespace Model

variable {α : Type} [Scalar α] (m : Model α)

/-- The cost of a candidate, remembered or computed.  A cost that cannot be computed leaves no
entry. -/
def cost (rowScanCost : α) (c : Candidate) (memo : Memo α) : Except SchemaError α × Memo α :=
  match memo.find? (.ofCandidate c) with
  | some cost => (.ok cost, { memo with hits := memo.hits + 1 })
  | none =>
    let memo := { memo with misses := memo.misses + 1 }
    match m.estimate rowScanCost c with
    | .error e => (.error e, memo)
    | .ok estimate =>
      (.ok estimate.total,
        { memo with entries := (.ofCandidate c, estimate.total) :: memo.entries })

/-- The costs of several candidates in turn. -/
def costs (rowScanCost : α) (cs : List Candidate) (memo : Memo α) :
    Except SchemaError (List α) × Memo α :=
  memo.collect (m.cost rowScanCost) cs

end Model

end Keyspace
