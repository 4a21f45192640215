import Keyspace.Proofs.Checked.Report
import Keyspace.Proofs.Planner

/-!
# No lookup of the planner is out of range

`Declarations.inRange_of_build` puts the stages together.  A model that was built from declarations
refers to its own parts by positions and paths in range (`Model.WellFormed`), and therefore no stage
of planning looks anything up out of range, with any settings and any solver (`Model.InRange`).
-/

namespace Keyspace

namespace Checked

variable {α : Type} [Scalar α]

/-- The candidates of a model with their costs, found and priced over one memo. -/
def pricedWorkload (m : Model α) (rowScanCost : α) (prune : Bool) :
    Option (Except SearchError (Workload × List α)) := do
  match ← search m rowScanCost prune {} with
  | (.error e, _) => return .error e
  | (.ok w, memo) =>
    match ← price m rowScanCost w memo with
    | (.error e, _) => return .error (.schema e)
    | (.ok costs, _) => return .ok (w, costs)

/-- Plans the tables of a model.  The priced workload is logged. -/
def plan [ScalarText α] {σ : Type} (m : Model α) (s : Settings α) (solver : Solver σ α)
    (state : σ) : Option (Except (PlanError α) (Report α) × σ) :=
  match s.validate with
  | .error e => some (.error (.settings e), state)
  | .ok () => do
    match ← pricedWorkload m s.rowScanCost s.pruneOverLatency with
    | .error e => return (.error (.search e), state)
    | .ok (w, costs) =>
      let _ ← explain m.catalog w costs
      match ← select m w costs s.costMargin s.verifyTolerance solver state with
      | (.error e, state) => return (.error (.selection e), state)
      | (.ok outcome, state) => return (.ok (← build m w costs outcome), state)

end Checked

/-! ### Stages in range -/

section Stages

variable {α : Type} [Scalar α] [ScalarText α]

/-- No stage after the search looks anything up out of range: with lookups that may fail it returns
what it returns with lookups that find a default. -/
structure Workload.InRange (w : Workload) (m : Model α) : Prop where
  price : ∀ rowScanCost memo,
    Checked.price m rowScanCost w memo = some (m.price rowScanCost w memo)
  length_price : ∀ rowScanCost memo costs, (m.price rowScanCost w memo).1 = .ok costs →
    costs.length = w.candidates.length
  collapse : Checked.collapse w.candidates = some (Tables.collapse w.candidates)
  formulate : ∀ costs, costs.length = w.candidates.length →
    (Checked.formulate m w costs).map Prod.fst = some (m.formulate w costs)
  select : ∀ costs, costs.length = w.candidates.length →
    ∀ {σ : Type} (costMargin tolerance : α) (solver : Solver σ α) (state : σ),
      Checked.select m w costs costMargin tolerance solver state
        = some (m.select w costs costMargin tolerance solver state)
  build : ∀ costs, costs.length = w.candidates.length →
    ∀ {σ : Type} (costMargin tolerance : α) (solver : Solver σ α) (state : σ) (o : Outcome α),
      (m.select w costs costMargin tolerance solver state).1 = .ok o →
        Checked.build m w costs o = some (Report.build m w costs o)
  explain : ∀ costs : List α, costs.length = w.candidates.length →
    Checked.explain m.catalog w costs = some (w.explain m.catalog costs)

/-- No stage of planning looks anything up out of range, nor does planning as a whole. -/
structure Model.InRange (m : Model α) : Prop where
  search : ∀ rowScanCost prune memo,
    Checked.search m rowScanCost prune memo = some (m.search rowScanCost prune memo)
  stages : ∀ rowScanCost prune memo w,
    (m.search rowScanCost prune memo).1 = .ok w → w.InRange m
  plan : ∀ {σ : Type} (s : Settings α) (solver : Solver σ α) (state : σ),
    Checked.plan m s solver state = some (m.plan s solver state)

variable {m : Model α} (hm : m.WellFormed)
include hm

theorem Workload.RefersTo.inRange {w : Workload} (hw : w.RefersTo m) : w.InRange m where
  price := Checked.price_eq hm hw
  length_price := fun _ _ _ => Model.length_of_price
  collapse := Checked.collapse_eq w.candidates
  formulate := fun costs hcosts => by
    rw [Checked.formulate_eq hw hcosts]
    rfl
  select := fun _ hcosts _ => Checked.select_eq hw hcosts
  build := fun _ hcosts _ _ _ _ _ _ ho =>
    Checked.build_eq hm hw hcosts (Model.tables_of_select_eq_ok ho)
  explain := fun _ hcosts => Checked.explain_eq hw hcosts

omit [ScalarText α] in
theorem Checked.pricedWorkload_eq (rowScanCost : α) (prune : Bool) :
    pricedWorkload m rowScanCost prune = some (m.pricedWorkload rowScanCost prune) := by
  rw [pricedWorkload, Model.pricedWorkload, search_eq hm]
  cases hsearch : m.search rowScanCost prune {} with
  | mk found memo =>
    cases found with
    | error e => rfl
    | ok w =>
      have hw := Workload.refersTo_of_search hm (congrArg Prod.fst hsearch)
      simp only [Option.bind_eq_bind, Option.bind_some, price_eq hm hw]
      rcases m.price rowScanCost w memo with ⟨e | costs, memo'⟩ <;> rfl

/-- Planning is in range because each of its stages is. -/
theorem Checked.plan_eq {σ : Type} (s : Settings α) (solver : Solver σ α) (state : σ) :
    plan m s solver state = some (m.plan s solver state) := by
  rw [plan, Model.plan, pricedWorkload_eq hm]
  cases s.validate with
  | error e => rfl
  | ok _ =>
    cases hpriced : m.pricedWorkload s.rowScanCost s.pruneOverLatency with
    | error e => rfl
    | ok found =>
      obtain ⟨w, costs⟩ := found
      obtain ⟨hsearch, memo, hprice⟩ := Model.exists_price_of_pricedWorkload hpriced
      have hw := Workload.refersTo_of_search hm hsearch
      have hcosts := Model.length_of_price hprice
      simp only [Option.bind_eq_bind, Option.bind_some, explain_eq hw hcosts,
        select_eq hw hcosts]
      cases hselect : m.select w costs s.costMargin s.verifyTolerance solver state with
      | mk selected state' =>
        cases selected with
        | error e => rfl
        | ok o =>
          have ho := Model.tables_of_select_eq_ok (congrArg Prod.fst hselect)
          simp only [build_eq hm hw hcosts ho, Option.bind_some]
          rfl

/-- On a well-formed model nothing is looked up out of range. -/
theorem Model.WellFormed.inRange : m.InRange where
  search := Checked.search_eq hm
  stages := fun _ _ _ _ hw => (Workload.refersTo_of_search hm hw).inRange hm
  plan := Checked.plan_eq hm

end Stages

/-- **No lookup of the planner is out of range.**  Whatever a model was built from, its parts refer
to each other in range and by paths that resolve, and no stage of planning looks anything up out of
range, with any settings and any solver. -/
theorem Declarations.inRange_of_build {α : Type} [Scalar α] [ScalarText α] {decls : Declarations α}
    {m : Model α} (h : decls.build = .ok m) : m.WellFormed ∧ m.InRange :=
  ⟨wellFormed_of_build h, (wellFormed_of_build h).inRange⟩

/-! ### Example -/

namespace Shop

/-- A shop whose customers are found by town, each with the latest of his orders; an order is placed
once, and cancelled for all customers of a town. -/
def declarations : Declarations Float where
  entities := [
    { name := "Customer"
      fields := [{ name := "id", typeName := idType }, { name := "town", typeName := "String" },
        { name := "orders", typeName := "Order", isList := true }]
      statistics := [⟨["town"], .uniform 40⟩] },
    { name := "Order"
      fields := [{ name := "id", typeName := idType }, { name := "at", typeName := "DateTime" },
        { name := "customer", typeName := "Customer" }]
      statistics := [⟨["customer.town"], .uniform 40⟩] }]
  definitions := [
    { name := "local", entity := "Customer", clause := { predicates := [("town", "$town")] } }]
  queries := [
    { name := "latest"
      selections := [⟨"local", 20, [⟨"orders", { order := [("at", .desc)] }, 5, []⟩]⟩] }]
  mutations := [
    { name := "place", entity := "Order", kind := .insert, maxTables := 2 },
    { name := "cancel", entity := "Order", kind := .delete, maxTables := 2
      filter := some { predicates := [("customer.town", "$town")] } }]

/-- The model of a shop. -/
def model : Model Float := declarations.build.toOption.getD default

end Shop

/-- Nothing is looked up out of range when the tables of a shop are planned. -/
theorem Declarations.inRange_of_build_shop :
    Shop.declarations.build = .ok Shop.model ∧ Shop.model.WellFormed ∧ Shop.model.InRange := by
  have hbuild : Shop.declarations.build = .ok Shop.model := rfl
  exact ⟨hbuild, Declarations.inRange_of_build hbuild⟩

end Keyspace
