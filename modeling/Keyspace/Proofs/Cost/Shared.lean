import Keyspace.Proofs.Cost.Memo
import Keyspace.Proofs.Workload.Search

/-!
# A memo shared by several scan costs

The cost of a candidate also depends on the cost of scanning a row, which a cost key does not hold.
Calls that all scan at one cost do not notice (`Model.costCalls_empty`).  `Model.costSteps` makes
calls over one memo, each at a scan cost of its own, and there every cost is the one at the scan
cost of the first call with the same cost key (`Model.costSteps_empty`).  That is the candidate's
own cost if calls with the same cost key agree on the scan cost, and in general it is not
(`Log.exists_costSteps_ne`).
-/

namespace Keyspace

/-- A call for the cost of a candidate, at a scan cost of its own. -/
structure CostStep (α : Type) where
  rowScanCost : α
  candidate : Candidate

namespace CostStep

variable {α : Type}

/-- Do two calls ask with the same cost key? -/
def sharesKey (s t : CostStep α) : Bool :=
  (CostKey.ofCandidate s.candidate).same (.ofCandidate t.candidate)

/-- The scan cost of the first call with the cost key of `s`. -/
def firstScanCost (steps : List (CostStep α)) (s : CostStep α) : α :=
  ((steps.find? fun t => t.sharesKey s).getD s).rowScanCost

variable {s t u : CostStep α}

theorem sharesKey_self : s.sharesKey s = true := CostKey.equivalence_same.refl _

theorem sharesKey_congr (h : t.sharesKey u = true) : s.sharesKey t = s.sharesKey u :=
  Bool.eq_iff_iff.mpr ⟨fun hs => CostKey.equivalence_same.trans hs h,
    fun hs => CostKey.equivalence_same.trans hs (CostKey.equivalence_same.symm h)⟩

/-- Calls that come later do not change which one with a cost key is the first. -/
theorem firstScanCost_append (done rest : List (CostStep α)) (s : CostStep α) :
    firstScanCost (done ++ s :: rest) s = firstScanCost done s := by
  have hfirst : (s :: rest).find? (fun t => t.sharesKey s) = some s :=
    List.find?_cons_of_pos sharesKey_self
  rw [firstScanCost, firstScanCost, List.find?_append, hfirst]
  cases done.find? fun t => t.sharesKey s <;> rfl

end CostStep

theorem Memo.find?_cons {α : Type} (memo : Memo α) (key k : CostKey) (x : α) (hits misses : ℕ) :
    Memo.find? ⟨(key, x) :: memo.entries, hits, misses⟩ k
      = if key.same k then some x else memo.find? k := by
  rw [find?, List.find?_cons, find?]
  cases key.same k <;> rfl

namespace Model

variable {α : Type} [Scalar α] {m : Model α}

variable (m) in
/-- What a call returns without a memo. -/
def ownCost (s : CostStep α) : Except SchemaError α :=
  (m.estimate s.rowScanCost s.candidate).map Estimate.total

variable (m) in
/-- Calls at different scan costs one after the other over one memo, whether they fail or not. -/
def costSteps : List (CostStep α) → Memo α → List (Except SchemaError α) × Memo α
  | [], memo => ([], memo)
  | s :: rest, memo =>
    let call := m.cost s.rowScanCost s.candidate memo
    let later := costSteps rest call.2
    (call.1 :: later.1, later.2)

/-! ### What does not depend on the scan cost -/

variable (m) in
/-- Whether an estimate fails, and how, does not depend on the scan cost. -/
theorem failure?_estimate_eq (r r' : α) (c : Candidate) :
    failure? (m.estimate r c) = failure? (m.estimate r' c) := by
  rw [estimate, estimate]
  cases m.filterRows c with
  | error e => rfl
  | ok filter => cases m.sortRows c <;> rfl

theorem ownCost_congr {s t : CostStep α} (hkey : s.sharesKey t = true)
    (hscan : s.rowScanCost = t.rowScanCost) {x : α} (h : m.ownCost s = .ok x) :
    m.ownCost t = .ok x := by
  obtain ⟨estimate, hestimate, rfl⟩ := map_eq_ok_iff.mp h
  rw [ownCost, ← hscan, estimate_congr hkey hestimate]
  rfl

/-- Calls with the same cost key succeed or fail together, whatever their scan costs. -/
theorem isOk_ownCost_congr {s t : CostStep α} (hkey : s.sharesKey t = true)
    (h : ∃ x, m.ownCost s = .ok x) : ∃ x, m.ownCost t = .ok x := by
  rw [← failure?_eq_none_iff, ownCost, failure?_map] at h ⊢
  rw [m.failure?_estimate_eq s.rowScanCost t.rowScanCost] at h
  obtain ⟨estimate, hestimate⟩ := failure?_eq_none_iff.mp h
  rw [estimate_congr hkey hestimate]
  rfl

/-! ### What the memo knows -/

variable (m) in
/-- The cost that the calls made so far leave behind for the cost key of `s`. -/
def leftCost (done : List (CostStep α)) (s : CostStep α) : Option α :=
  done.findSome? fun t => if t.sharesKey s then (m.ownCost t).toOption else none

variable (m) in
/-- The memo holds what the calls made so far leave behind. -/
def RecordsCosts (done : List (CostStep α)) (memo : Memo α) : Prop :=
  ∀ s : CostStep α, memo.find? (.ofCandidate s.candidate) = m.leftCost done s

variable {done : List (CostStep α)} {s t : CostStep α}

theorem leftCost_congr (h : s.sharesKey t = true) : m.leftCost done s = m.leftCost done t := by
  simp only [leftCost, CostStep.sharesKey_congr h]

theorem leftCost_concat :
    m.leftCost (done ++ [s]) t
      = (m.leftCost done t).or (if s.sharesKey t then (m.ownCost s).toOption else none) := by
  rw [leftCost, List.findSome?_append, List.findSome?_singleton]
  rfl

/-- Nothing is left behind for a call that fails. -/
theorem leftCost_eq_none {e : SchemaError} (h : m.ownCost s = .error e) :
    m.leftCost done s = none := by
  refine List.findSome?_eq_none_iff.mpr fun t _ => ?_
  split
  · rename_i hkey
    cases hcost : m.ownCost t with
    | error e => rfl
    | ok x =>
      obtain ⟨y, hy⟩ := isOk_ownCost_congr hkey ⟨x, hcost⟩
      exact absurd (h.symm.trans hy) (by simp)
  · rfl

/-- For a call that succeeds, the first call with its cost key leaves a cost behind. -/
theorem leftCost_eq_find? {x : α} (h : m.ownCost s = .ok x) :
    m.leftCost done s
      = (done.find? fun t => t.sharesKey s).bind fun t => (m.ownCost t).toOption := by
  rw [leftCost]
  induction done with
  | nil => rfl
  | cons t rest ih =>
    rw [List.findSome?_cons, List.find?_cons]
    cases hkey : t.sharesKey s with
    | false => exact ih
    | true =>
      obtain ⟨y, hy⟩ := isOk_ownCost_congr (CostKey.equivalence_same.symm hkey) ⟨x, h⟩
      rw [if_pos rfl, hy]
      exact (congrArg Except.toOption hy).symm

/-! ### One call -/

section Calls

variable {memo : Memo α} (h : m.RecordsCosts done memo)

theorem recordsCosts_empty : m.RecordsCosts [] {} := fun _ => rfl

theorem cost_fst_of_find?_eq_none (hnew : memo.find? (.ofCandidate s.candidate) = none) :
    (m.cost s.rowScanCost s.candidate memo).1 = m.ownCost s := by
  rw [cost, hnew, ownCost]
  cases m.estimate s.rowScanCost s.candidate <;> rfl

include h

/-- **A call returns the candidate's cost at the scan cost of the first call with its key.** -/
theorem cost_fst_of_recordsCosts (s : CostStep α) :
    (m.cost s.rowScanCost s.candidate memo).1
      = m.ownCost ⟨s.firstScanCost done, s.candidate⟩ := by
  have hfind := h s
  cases hown : m.ownCost s with
  | error e =>
    rw [leftCost_eq_none hown] at hfind
    rw [cost_fst_of_find?_eq_none hfind, hown]
    rw [← failure?_eq_some_iff, ownCost, failure?_map] at hown
    rw [m.failure?_estimate_eq _ (s.firstScanCost done), ← failure?_map _ Estimate.total] at hown
    exact (failure?_eq_some_iff.mp hown).symm
  | ok x =>
    rw [leftCost_eq_find? hown] at hfind
    rw [CostStep.firstScanCost]
    cases hfirst : done.find? fun t => t.sharesKey s with
    | none =>
      rw [hfirst] at hfind
      exact cost_fst_of_find?_eq_none hfind
    | some t =>
      have hkey : t.sharesKey s = true :=
        List.find?_some (p := fun t : CostStep α => t.sharesKey s) hfirst
      obtain ⟨y, hy⟩ := isOk_ownCost_congr (CostKey.equivalence_same.symm hkey) ⟨x, hown⟩
      rw [hfirst, Option.bind_some, hy] at hfind
      have hfirstCost : m.ownCost ⟨t.rowScanCost, s.candidate⟩ = .ok y :=
        ownCost_congr (t := ⟨t.rowScanCost, s.candidate⟩) hkey rfl hy
      rw [Option.getD_some, hfirstCost, cost, hfind]
      rfl

/-- The records of the calls go on with each call. -/
theorem recordsCosts_concat (s : CostStep α) :
    m.RecordsCosts (done ++ [s]) (m.cost s.rowScanCost s.candidate memo).2 := by
  intro t
  rw [leftCost_concat, ← h t, ownCost]
  cases hkey : s.sharesKey t with
  | false =>
    rw [if_neg Bool.false_ne_true, Option.or_none, cost]
    cases memo.find? (.ofCandidate s.candidate) with
    | some x => rfl
    | none =>
      cases m.estimate s.rowScanCost s.candidate with
      | error e => rfl
      | ok estimate => exact (memo.find?_cons ..).trans (if_neg (Bool.eq_false_iff.mp hkey))
  | true =>
    have hsame : memo.find? (.ofCandidate t.candidate) = memo.find? (.ofCandidate s.candidate) := by
      rw [h t, h s, leftCost_congr hkey]
    rw [if_pos rfl, cost, hsame]
    cases hfind : memo.find? (.ofCandidate s.candidate) with
    | some x => exact hsame.trans hfind
    | none =>
      cases m.estimate s.rowScanCost s.candidate with
      | error e => exact hsame.trans hfind
      | ok estimate => exact (memo.find?_cons ..).trans (if_pos hkey)

end Calls

/-! ### Several calls -/

theorem costSteps_fst {memo : Memo α} (h : m.RecordsCosts done memo) (rest : List (CostStep α)) :
    (m.costSteps rest memo).1
      = rest.map fun s => m.ownCost ⟨s.firstScanCost (done ++ rest), s.candidate⟩ := by
  induction rest generalizing done memo with
  | nil => rfl
  | cons s rest ih =>
    rw [costSteps, List.map_cons, ih (recordsCosts_concat h s), cost_fst_of_recordsCosts h,
      CostStep.firstScanCost_append, List.append_assoc, List.singleton_append]

variable (m) in
/-- **Calls over one memo, empty at first, return costs at the scan cost of the first call with the
same cost key.**  If calls with the same cost key scan at the same cost, each returns its own. -/
theorem costSteps_empty (steps : List (CostStep α)) :
    (m.costSteps steps {}).1
      = steps.map (fun s => m.ownCost ⟨s.firstScanCost steps, s.candidate⟩) ∧
    ((∀ s ∈ steps, ∀ t ∈ steps, s.sharesKey t = true → s.rowScanCost = t.rowScanCost) →
      (m.costSteps steps {}).1 = steps.map m.ownCost) := by
  have hfirst : (m.costSteps steps {}).1
      = steps.map fun s => m.ownCost ⟨s.firstScanCost steps, s.candidate⟩ :=
    costSteps_fst recordsCosts_empty steps
  refine ⟨hfirst, fun hscan => ?_⟩
  rw [hfirst]
  refine List.map_congr_left fun s hs => ?_
  rw [CostStep.firstScanCost]
  cases hfind : steps.find? fun t => t.sharesKey s with
  | none => rfl
  | some t =>
    have hkey : t.sharesKey s = true :=
      List.find?_some (p := fun t : CostStep α => t.sharesKey s) hfind
    rw [Option.getD_some, hscan t (List.mem_of_find?_eq_some hfind) s hs hkey]

end Model

/-! ### Two scan costs -/

namespace Log

/-- A log that is read in both directions has a candidate that sorts all its rows.  Priced at one
per row and then at two, it costs what it cost at first. -/
theorem exists_costSteps_ne :
    ∃ c ∈ (workload [.asc, .desc]).candidates,
      ((model [.asc, .desc]).costSteps [⟨.finite 1, c⟩, ⟨.finite 2, c⟩] {}).1
        = [.ok (.finite 999999999), .ok (.finite 999999999)] ∧
      (model [.asc, .desc]).ownCost ⟨.finite 2, c⟩ = .ok (.finite 1999999998) := by
  have hmem : (workload [.asc, .desc]).candidates.getD 1 default
      ∈ (workload [.asc, .desc]).candidates := by
    rw [List.getD_eq_getElem _ _ (by decide)]
    exact List.getElem_mem _
  have hone : (999999999 : Rat) * 1 = 999999999 := Rat.mul_one _
  have htwo : (999999999 : Rat) * 2 = 1999999998 := by decide +kernel
  rw [← hone, ← htwo]
  exact ⟨_, hmem, rfl, rfl⟩

end Log

end Keyspace
