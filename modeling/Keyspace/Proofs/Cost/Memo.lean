import Keyspace.Cost.Memo
import Keyspace.Proofs.Candidate.Key
import Keyspace.Proofs.Cost.Order
import Keyspace.Proofs.Schema.Build

/-!
# Remembered costs are costs

A cost key looks at paths by their walks, so that it may stand for candidates that are not equal.
`Model.estimate_congr` says that it stands for one estimate all the same.  A memo that remembers
estimates only (`Model.RemembersCosts`) therefore answers as the estimate does (`Model.cost_fst`),
and stays such a memo (`Model.remembersCosts_cost`).

`Model.costCalls` makes several calls over one memo.  `Model.costCalls_empty` says what they return
and what they leave behind.
-/

namespace Keyspace

open Std (TransCmp)

/-! ### Cost keys -/

namespace CostKey

variable {a b : CostKey}

theorem same_iff :
    a.same b = true ↔ compare a.key b.key = .eq ∧ compare a.predicates b.predicates = .eq ∧
      compare a.remaining b.remaining = .eq ∧ compare a.order b.order = .eq ∧
      a.pageSize = b.pageSize := by
  simp [same, and_assoc]

theorem same_ofCandidate_iff {c c' : Candidate} :
    (ofCandidate c).same (ofCandidate c') = true ↔ compare c.key c'.key = .eq ∧
      compare c.clause.predicatePaths c'.clause.predicatePaths = .eq ∧
      compare c.remaining c'.remaining = .eq ∧ compare c.clause.order c'.clause.order = .eq ∧
      c.pageSize = c'.pageSize :=
  same_iff

/-- Standing for the same cost is an equivalence, so that one may speak of distinct cost keys. -/
theorem equivalence_same : Equivalence fun a b : CostKey => a.same b = true where
  refl a := same_iff.mpr ⟨Std.ReflCmp.compare_self, Std.ReflCmp.compare_self,
    Std.ReflCmp.compare_self, Std.ReflCmp.compare_self, rfl⟩
  symm h := by
    obtain ⟨hkey, hpredicates, hremaining, horder, hpage⟩ := same_iff.mp h
    exact same_iff.mpr ⟨Std.OrientedCmp.eq_symm hkey, Std.OrientedCmp.eq_symm hpredicates,
      Std.OrientedCmp.eq_symm hremaining, Std.OrientedCmp.eq_symm horder, hpage.symm⟩
  trans h h' := by
    obtain ⟨hkey, hpredicates, hremaining, horder, hpage⟩ := same_iff.mp h
    obtain ⟨hkey', hpredicates', hremaining', horder', hpage'⟩ := same_iff.mp h'
    exact same_iff.mpr ⟨TransCmp.eq_trans hkey hkey', TransCmp.eq_trans hpredicates hpredicates',
      TransCmp.eq_trans hremaining hremaining', TransCmp.eq_trans horder horder',
      hpage.trans hpage'⟩

theorem same_comm : a.same b = b.same a :=
  Bool.eq_iff_iff.mpr ⟨equivalence_same.symm, equivalence_same.symm⟩

end CostKey

/-! ### Candidates with the same cost key -/

theorem OrderTerm.satisfies_congr {k k' r r' : OrderTerm} (hk : compare k k' = .eq)
    (hr : compare r r' = .eq) : k.satisfies r = k'.satisfies r' := by
  obtain ⟨hkpath, hkdirection⟩ := compare_eq_eq_iff.mp hk
  obtain ⟨hrpath, hrdirection⟩ := compare_eq_eq_iff.mp hr
  rw [Bool.eq_iff_iff, satisfies_eq_true_iff, satisfies_eq_true_iff, hkpath, hkdirection, hrpath,
    hrdirection]

namespace Model

variable {α : Type} {m : Model α}

theorem forall₂_matchedTerms {ps ps' rs rs' : List OrderTerm}
    (hps : List.Forall₂ (fun a b => compare a b = .eq) ps ps')
    (hrs : List.Forall₂ (fun a b => compare a b = .eq) rs rs') :
    List.Forall₂ (fun a b => compare a b = .eq) (matchedTerms ps rs) (matchedTerms ps' rs') := by
  induction hps generalizing rs rs' with
  | nil => exact .nil
  | cons hp _ ih =>
    cases hrs with
    | nil => exact .nil
    | cons hr hrs =>
      rw [matchedTerms, matchedTerms, OrderTerm.satisfies_congr hp hr]
      split_ifs
      · exact .cons hp (ih hrs)
      · exact .nil

theorem statistic_congr {id : EntityId} {paths paths' : PathSet} {s : Statistic α}
    (h : compare paths paths' = .eq) (hs : m.statistic id paths = .ok s) :
    m.statistic id paths' = .ok s := by
  rw [statistic] at hs ⊢
  rw [← SortedMap.find?_congr h]
  split at hs
  · exact hs
  · exact absurd hs (by simp)

section Estimates

variable [Scalar α] {c c' : Candidate} (h : (CostKey.ofCandidate c).same (.ofCandidate c') = true)

theorem rowsPerPartition_congr {id : EntityId} {paths paths' : PathSet} {rows : α}
    (hpaths : compare paths paths' = .eq) (hrows : m.rowsPerPartition id paths = .ok rows) :
    m.rowsPerPartition id paths' = .ok rows := by
  rw [rowsPerPartition] at hrows ⊢
  rw [← SortedSet.isEmpty_congr hpaths]
  split_ifs at hrows ⊢
  · exact hrows
  · obtain ⟨s, hs, hrows⟩ := bind_eq_ok_iff.mp hrows
    exact bind_eq_ok_iff.mpr ⟨s, statistic_congr hpaths hs, hrows⟩

include h

theorem compare_effectiveKey_of_same : compare c.effectiveKey c'.effectiveKey = .eq := by
  obtain ⟨-, hpredicates, hremaining, -, -⟩ := CostKey.same_ofCandidate_iff.mp h
  exact SortedSet.difference_congr hpredicates hremaining

theorem filterRows_congr {rows : α} (hrows : m.filterRows c = .ok rows) :
    m.filterRows c' = .ok rows := by
  have hkey := compare_effectiveKey_of_same h
  obtain ⟨htable, -, hremaining, -, hpage⟩ := CostKey.same_ofCandidate_iff.mp h
  have hroot : c.key.root = c'.key.root := TableKey.root_eq_of_compare_eq htable
  rw [filterRows] at hrows ⊢
  rw [← hroot, ← hpage, ← SortedSet.isEmpty_congr hremaining, ← SortedSet.isEmpty_congr hkey]
  split_ifs at hrows ⊢
  · exact hrows
  · exact hrows
  · obtain ⟨s, hs, hrows⟩ := bind_eq_ok_iff.mp hrows
    exact bind_eq_ok_iff.mpr ⟨s, statistic_congr hremaining hs, hrows⟩

theorem sortRows_congr {rows : α} (hrows : m.sortRows c = .ok rows) :
    m.sortRows c' = .ok rows := by
  have hkey := compare_effectiveKey_of_same h
  obtain ⟨htable, -, -, horder, -⟩ := CostKey.same_ofCandidate_iff.mp h
  have hroot : c.key.root = c'.key.root := TableKey.root_eq_of_compare_eq htable
  have horder := forall₂_of_compare_list_eq horder
  have hmatched := forall₂_matchedTerms
    (forall₂_of_compare_list_eq (TableKey.compare_clusteringKey htable)) horder
  unfold sortRows at hrows ⊢
  dsimp only at hrows ⊢
  rw [← hroot, ← horder.length_eq, ← hmatched.length_eq]
  split_ifs at hrows ⊢
  · exact hrows
  · -- the matched terms walk the same paths
    refine rowsPerPartition_congr (SortedSet.foldl_insert_congr hkey ?_) hrows
    refine List.forall₂_map_left_iff.mpr (List.forall₂_map_right_iff.mpr (hmatched.imp ?_))
    intro a b hab
    exact Path.compare_eq_iff.mpr (OrderTerm.compare_eq_eq_iff.mp hab).1

/-- **A cost key stands for one estimate.** -/
theorem estimate_congr {rowScanCost : α} {e : Estimate α} (he : m.estimate rowScanCost c = .ok e) :
    m.estimate rowScanCost c' = .ok e := by
  obtain ⟨-, -, hremaining, -, -⟩ := CostKey.same_ofCandidate_iff.mp h
  rw [estimate] at he ⊢
  obtain ⟨filter, hfilter, he⟩ := bind_eq_ok_iff.mp he
  obtain ⟨sort, hsort, he⟩ := bind_eq_ok_iff.mp he
  refine bind_eq_ok_iff.mpr ⟨filter, filterRows_congr h hfilter, ?_⟩
  refine bind_eq_ok_iff.mpr ⟨sort, sortRows_congr h hsort, ?_⟩
  rwa [← SortedSet.isEmpty_congr hremaining]

end Estimates

/-! ### One call -/

section Calls

variable [Scalar α] {rowScanCost : α} {memo : Memo α}

variable (m rowScanCost memo) in
/-- Every remembered cost is the cost of all candidates with its cost key. -/
def RemembersCosts : Prop :=
  ∀ e ∈ memo.entries, ∀ c, e.1.same (.ofCandidate c) = true →
    (m.estimate rowScanCost c).map Estimate.total = .ok e.2

theorem remembersCosts_empty : m.RemembersCosts rowScanCost {} :=
  fun _ he => absurd he List.not_mem_nil

variable (m rowScanCost memo) in
/-- What a call can do: find the cost, fail to compute it, or compute and remember it. -/
theorem cost_cases (c : Candidate) :
    (∃ e ∈ memo.entries, e.1.same (.ofCandidate c) = true ∧
      m.cost rowScanCost c memo = (.ok e.2, { memo with hits := memo.hits + 1 })) ∨
    (∀ e ∈ memo.entries, e.1.same (.ofCandidate c) = false) ∧
      ((∃ error, m.estimate rowScanCost c = .error error ∧
        m.cost rowScanCost c memo = (.error error, { memo with misses := memo.misses + 1 })) ∨
      ∃ estimate, m.estimate rowScanCost c = .ok estimate ∧
        m.cost rowScanCost c memo = (.ok estimate.total,
          ⟨(.ofCandidate c, estimate.total) :: memo.entries, memo.hits, memo.misses + 1⟩)) := by
  rw [cost, Memo.find?]
  cases hfind : memo.entries.find? fun e => e.1.same (.ofCandidate c) with
  | some e =>
    have hsame := List.find?_some (p := fun e : CostKey × α => e.1.same (.ofCandidate c)) hfind
    exact .inl ⟨e, List.mem_of_find?_eq_some hfind, hsame, rfl⟩
  | none =>
    refine .inr ⟨fun e he => Bool.eq_false_iff.mpr (List.find?_eq_none.mp hfind e he), ?_⟩
    cases hestimate : m.estimate rowScanCost c with
    | error error => exact .inl ⟨error, rfl, rfl⟩
    | ok estimate => exact .inr ⟨estimate, rfl, rfl⟩

/-- A call that fails remembers nothing. -/
theorem entries_of_cost_eq_error {c : Candidate} {error : SchemaError}
    (h : (m.cost rowScanCost c memo).1 = .error error) :
    (m.cost rowScanCost c memo).2.entries = memo.entries := by
  rcases m.cost_cases rowScanCost memo c with ⟨e, -, -, hcost⟩ | ⟨-, ⟨_, -, hcost⟩ | ⟨_, -, hcost⟩⟩
  · rw [hcost]
  · rw [hcost]
  · rw [hcost] at h
    exact absurd h (by simp)

variable (h : m.RemembersCosts rowScanCost memo)
include h

/-- A memo of costs answers as the estimate does. -/
theorem cost_fst (c : Candidate) :
    (m.cost rowScanCost c memo).1 = (m.estimate rowScanCost c).map Estimate.total := by
  rcases m.cost_cases rowScanCost memo c with ⟨e, he, hsame, hcost⟩ |
    ⟨-, ⟨error, herror, hcost⟩ | ⟨estimate, hestimate, hcost⟩⟩
  · rw [hcost, h e he c hsame]
  · rw [hcost, herror]
    rfl
  · rw [hcost, hestimate]
    rfl

theorem remembersCosts_cost (c : Candidate) :
    m.RemembersCosts rowScanCost (m.cost rowScanCost c memo).2 := by
  rcases m.cost_cases rowScanCost memo c with
    ⟨e, -, -, hcost⟩ | ⟨-, ⟨_, -, hcost⟩ | ⟨estimate, hestimate, hcost⟩⟩
  · rw [hcost]
    exact h
  · rw [hcost]
    exact h
  · rw [hcost]
    intro e he c' hsame
    rcases List.mem_cons.mp he with rfl | he
    · rw [estimate_congr hsame hestimate]
      rfl
    · exact h e he c' hsame

end Calls

/-! ### Several calls -/

section Run

variable [Scalar α]

variable (m) in
/-- Calls for several candidates one after the other, whether they fail or not. -/
def costCalls (rowScanCost : α) : List Candidate → Memo α → List (Except SchemaError α) × Memo α
  | [], memo => ([], memo)
  | c :: rest, memo =>
    let call := m.cost rowScanCost c memo
    let later := costCalls rowScanCost rest call.2
    (call.1 :: later.1, later.2)

variable (m) in
/-- Does the estimate of a candidate succeed? -/
def hasCost (rowScanCost : α) (c : Candidate) : Bool := (m.estimate rowScanCost c).isOk

variable {rowScanCost : α} {memo : Memo α}

theorem costCalls_fst (h : m.RemembersCosts rowScanCost memo) (cs : List Candidate) :
    (m.costCalls rowScanCost cs memo).1
      = cs.map fun c => (m.estimate rowScanCost c).map Estimate.total := by
  induction cs generalizing memo with
  | nil => rfl
  | cons c rest ih =>
    rw [costCalls, List.map_cons, ← ih (remembersCosts_cost h c), cost_fst h c]

variable (m rowScanCost memo) in
/-- Every call counts once. -/
theorem hits_add_misses_costCalls (cs : List Candidate) :
    (m.costCalls rowScanCost cs memo).2.hits + (m.costCalls rowScanCost cs memo).2.misses
      = memo.hits + memo.misses + cs.length := by
  induction cs generalizing memo with
  | nil => rfl
  | cons c rest ih =>
    rw [costCalls, ih, List.length_cons]
    rcases m.cost_cases rowScanCost memo c with
      ⟨e, -, -, hcost⟩ | ⟨-, ⟨_, -, hcost⟩ | ⟨_, -, hcost⟩⟩
    · rw [hcost]
      dsimp only
      omega
    · rw [hcost]
      dsimp only
      omega
    · rw [hcost]
      dsimp only
      omega

/-- Every miss leaves an entry or an error. -/
theorem misses_costCalls (h : m.RemembersCosts rowScanCost memo) (cs : List Candidate) :
    (m.costCalls rowScanCost cs memo).2.misses + memo.entries.length
      = memo.misses + (m.costCalls rowScanCost cs memo).2.entries.length
        + cs.countP fun c => !m.hasCost rowScanCost c := by
  induction cs generalizing memo with
  | nil => rfl
  | cons c rest ih =>
    have ih := ih (remembersCosts_cost h c)
    rw [costCalls]
    rcases m.cost_cases rowScanCost memo c with ⟨e, he, hsame, hcost⟩ |
      ⟨-, ⟨error, herror, hcost⟩ | ⟨estimate, hestimate, hcost⟩⟩
    · have hok : m.hasCost rowScanCost c = true := by
        have htotal := h e he c hsame
        obtain ⟨estimate, hestimate, -⟩ := map_eq_ok_iff.mp htotal
        rw [hasCost, hestimate]
        rfl
      rw [hcost] at ih ⊢
      rw [List.countP_cons_of_neg (by simp [hok])]
      exact ih
    · have herr : m.hasCost rowScanCost c = false := by
        rw [hasCost, herror]
        rfl
      rw [hcost] at ih ⊢
      rw [List.countP_cons_of_pos (by simp [herr])]
      dsimp only at ih ⊢
      omega
    · have hok : m.hasCost rowScanCost c = true := by
        rw [hasCost, hestimate]
        rfl
      rw [hcost] at ih ⊢
      rw [List.countP_cons_of_neg (by simp [hok])]
      dsimp only [List.length_cons] at ih ⊢
      omega

variable (m rowScanCost memo) in
/-- The cost keys of the calls that can succeed, without those that are remembered already. -/
def newKeys (cs : List Candidate) : List CostKey :=
  ((cs.filter (m.hasCost rowScanCost)).map CostKey.ofCandidate).filter fun k =>
    memo.entries.all fun e => !e.1.same k

theorem newKeys_cons (c : Candidate) (rest : List Candidate) :
    m.newKeys rowScanCost memo (c :: rest)
      = if m.hasCost rowScanCost c && memo.entries.all fun e => !e.1.same (.ofCandidate c) then
          .ofCandidate c :: m.newKeys rowScanCost memo rest
        else m.newKeys rowScanCost memo rest := by
  rw [newKeys, newKeys, List.filter_cons]
  cases m.hasCost rowScanCost c with
  | false => rfl
  | true => rw [if_pos rfl, List.map_cons, List.filter_cons, Bool.true_and]

/-- There is a new entry for every distinct cost key that a call can succeed on. -/
theorem length_entries_costCalls (cs : List Candidate) :
    (m.costCalls rowScanCost cs memo).2.entries.length
      = memo.entries.length
        + ((m.newKeys rowScanCost memo cs).eraseDupsBy CostKey.same).length := by
  induction cs generalizing memo with
  | nil => rfl
  | cons c rest ih =>
    rw [costCalls, ih, newKeys_cons]
    rcases m.cost_cases rowScanCost memo c with
      ⟨e, he, hsame, hcost⟩ | ⟨hnew, ⟨error, herror, hcost⟩ | ⟨estimate, hestimate, hcost⟩⟩
    · -- a hit: the key is remembered already
      have hold : memo.entries.all (fun e => !e.1.same (.ofCandidate c)) = false := by
        rw [List.all_eq_false]
        exact ⟨e, he, by simp [hsame]⟩
      rw [hcost, hold, Bool.and_false, if_neg Bool.false_ne_true]
      rfl
    · have herr : m.hasCost rowScanCost c = false := by
        rw [hasCost, herror]
        rfl
      rw [hcost, herr, Bool.false_and, if_neg Bool.false_ne_true]
      rfl
    · have hok : m.hasCost rowScanCost c = true := by
        rw [hasCost, hestimate]
        rfl
      have hfresh : memo.entries.all (fun e => !e.1.same (.ofCandidate c)) = true :=
        List.all_eq_true.mpr fun e he => by rw [hnew e he, Bool.not_false]
      -- later calls with this key find it
      have hlater : m.newKeys rowScanCost (m.cost rowScanCost c memo).2 rest
          = (m.newKeys rowScanCost memo rest).filter fun k =>
              decide (k.same (.ofCandidate c) = false) := by
        rw [hcost, newKeys, newKeys, List.filter_filter]
        refine List.filter_congr fun k _ => ?_
        rw [List.all_cons, CostKey.same_comm]
        cases k.same (.ofCandidate c) <;> rfl
      rw [hok, hfresh, Bool.and_true, if_pos rfl, List.eraseDupsBy_cons, List.length_cons, hlater,
        hcost]
      dsimp only [List.length_cons]
      omega

variable (m rowScanCost) in
/-- **Calls over one memo, empty at first, return what the estimates say**, whatever was asked
before.  A call that fails remembers nothing.  All calls are counted, those that miss leave an
entry or an error, and there is one entry for each distinct cost key of the calls that succeed. -/
theorem costCalls_empty (cs : List Candidate) :
    (m.costCalls rowScanCost cs {}).1
      = cs.map (fun c => (m.estimate rowScanCost c).map Estimate.total) ∧
    (∀ c memo error, (m.cost rowScanCost c memo).1 = .error error →
      (m.cost rowScanCost c memo).2.entries = memo.entries) ∧
    (m.costCalls rowScanCost cs {}).2.hits + (m.costCalls rowScanCost cs {}).2.misses
      = cs.length ∧
    (m.costCalls rowScanCost cs {}).2.misses
      = (m.costCalls rowScanCost cs {}).2.entries.length
        + (m.costCalls rowScanCost cs {}).1.countP (fun result => !result.isOk) ∧
    (m.costCalls rowScanCost cs {}).2.entries.length
      = (((cs.filter (m.hasCost rowScanCost)).map CostKey.ofCandidate).eraseDupsBy
          CostKey.same).length := by
  have hempty : m.RemembersCosts rowScanCost {} := remembersCosts_empty
  refine ⟨costCalls_fst hempty cs, fun c memo error => entries_of_cost_eq_error, ?_, ?_, ?_⟩
  · rw [m.hits_add_misses_costCalls rowScanCost {} cs]
    exact Nat.zero_add _
  · have herrors : (m.costCalls rowScanCost cs {}).1.countP (fun result => !result.isOk)
        = cs.countP fun c => !m.hasCost rowScanCost c := by
      rw [costCalls_fst hempty, List.countP_map]
      congr 1
      funext c
      rw [Function.comp_apply, hasCost]
      cases m.estimate rowScanCost c <;> rfl
    have hmisses := misses_costCalls hempty cs
    rw [Nat.zero_add] at hmisses
    rw [herrors]
    exact hmisses
  · have hall : m.newKeys rowScanCost {} cs
        = (cs.filter (m.hasCost rowScanCost)).map CostKey.ofCandidate :=
      List.filter_eq_self.mpr fun _ _ => rfl
    rw [length_entries_costCalls, hall]
    exact Nat.zero_add _

end Run

end Model

end Keyspace
