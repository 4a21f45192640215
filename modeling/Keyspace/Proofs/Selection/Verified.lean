import Keyspace.Proofs.Selection.Formulation
import Keyspace.Proofs.Selection.Phases

/-!
# Verified selections

Nothing is assumed about a solver: `Model.select_verified` derives from the verification of its
answers alone that a selection is one that serves the reads and insertions of the workload, and
that answers with missing or surplus values, or with values that are infinite or not numbers, are
rejected.

Not a number is the delicate case, since it passes the test for binary values.  It is caught by the
constraints: every variable occurs in one, and a sum with such a term satisfies none.
-/

namespace Keyspace

open Scalar Tables Formulation
open Exact (finite)

/-- An answer without a value for each variable, or with values that are no numbers to compare. -/
def Program.IsMalformed (p : Program Exact) (values : List Exact) : Prop :=
  values.length ≠ p.names.length ∨ ∃ x ∈ values, ¬ x.IsFinite

/-! ### Answers that verify -/

/-- What the second program checks: the constraints of the first one, and the limit. -/
theorem Formulation.verify_countTables_iff {α : Type} [Scalar α] {f : Formulation α}
    {limit tolerance : α} {values : List α} :
    (f.countTables limit).verify tolerance values = .ok () ↔
      f.program.verify tolerance values = .ok () ∧
        le (f.costTerms.eval values) (limit + tolerance) = true := by
  rw [Program.verify_eq_ok_iff, Program.verify_eq_ok_iff, and_assoc, and_assoc]
  refine and_congr_right fun _ => and_congr_right fun _ => ?_
  show (∀ c ∈ f.program.constraints ++ [⟨"cost_envelope", f.costTerms, .atMost, limit⟩],
    c.holds (c.terms.eval values) tolerance = true) ↔ _
  rw [List.forall_mem_append, List.forall_mem_singleton]
  rfl

section Verify

variable {m : Model Exact} {w : Workload} {costs : List Exact} {t : ℚ} {values : List Exact}

theorem Formulation.verify_of_countTables {f : Formulation Exact} {limit tolerance : Exact}
    (h : (f.countTables limit).verify tolerance values = .ok ()) :
    f.program.verify tolerance values = .ok () :=
  (verify_countTables_iff.mp h).1

/-- A malformed answer fails the verification. -/
theorem Model.exists_violation_of_isMalformed
    (h : (m.formulate w costs).program.IsMalformed values) :
    ∃ v, (m.formulate w costs).program.verify (finite t) values = .error v := by
  rcases (m.formulate w costs).program.verify_eq_ok_or_error (finite t) values with hv | hv
  · rcases h with hlen | ⟨x, hx, hfinite⟩
    · exact absurd ((Program.verify_eq_ok_iff _ _ _).mp hv).1 hlen
    · exact absurd (Program.isFinite_of_verify hv (fun v => exists_term_eq m w costs) x hx) hfinite
  · exact hv

/-- With two or more variables the tolerance keeps values near zero and near one apart. -/
theorem Model.tolerance_lt_half (hne : w.isEmpty = false)
    (hN : ((m.formulate w costs).program.names.length + 1 : ℚ) * t < 1) : t < 1 / 2 := by
  have hpos : 1 ≤ (m.formulate w costs).program.names.length := by
    rw [Workload.isEmpty, List.isEmpty_eq_false_iff] at hne
    have hcandidates := List.length_pos_iff.mpr hne
    rw [length_names]
    omega
  have hpos : (1 : ℚ) ≤ (m.formulate w costs).program.names.length := by exact_mod_cast hpos
  nlinarith

/-- An answer that verifies is rational and reads as a selection. -/
theorem Model.exists_isSelection_of_verify (hw : w.IsLeveled w.siblingSets)
    (hne : w.isEmpty = false) (ht : 0 ≤ t)
    (hN : ((m.formulate w costs).program.names.length + 1 : ℚ) * t < 1)
    (h : (m.formulate w costs).program.verify (finite t) values = .ok ()) :
    ∃ qs : List ℚ, values = qs.map finite ∧
      m.IsSelection w w.siblingSets (setTables w qs) (setCandidates w qs) := by
  have hfinite := Program.isFinite_of_verify h fun v => exists_term_eq m w costs
  obtain ⟨qs, rfl⟩ := Exact.exists_eq_map_finite hfinite
  refine ⟨qs, rfl, ?_⟩
  obtain ⟨-, hbin, hholds⟩ := (Program.verify_eq_ok_iff _ _ _).mp h
  have hhalf := tolerance_lt_half hne hN
  rw [length_names] at hN
  refine isSelection_of_satisfies hw ht (by exact_mod_cast hN) (fun q hq => ?_)
    ((forall_holds_iff m w costs t qs).mp hholds)
  exact abs_sub_bitOf_le hhalf (hbin _ (List.mem_map_of_mem hq))

end Verify

/-! ### What is read from an answer -/

section Read

variable (m : Model Exact) {w : Workload} (costs : List Exact) {s : Solution Exact} {qs : List ℚ}
  (h : s.values = qs.map finite)
include h

theorem mem_builtTables {t : ℕ} :
    t ∈ (m.formulate w costs).builtTables s ↔ t ∈ setTables w qs := by
  simp [builtTables, setTables, Solution.isSet_eq_decide h, Model.formulate]

theorem mem_setCandidates_iff {c : ℕ} (hc : c < w.candidates.length) :
    c ∈ setCandidates w qs ↔
      s.isSet (candidateVar (m.formulate w costs).tables c) = true := by
  simp [setCandidates, Solution.isSet_eq_decide h, Model.formulate, hc]

/-- The number of built tables of an entity. -/
theorem countP_builtTables (id : EntityId) :
    (((m.formulate w costs).builtTables s).countP fun t =>
      ((collapse w.candidates).table t).key.root == id)
      = (w.chosenAt (setTables w qs) id).card := by
  have hnodup : ((m.formulate w costs).builtTables s).Nodup := List.nodup_range.filter _
  rw [List.countP_eq_length_filter, ← List.toFinset_card_of_nodup (hnodup.filter _)]
  congr 1
  ext t
  simp only [List.mem_toFinset, List.mem_filter, mem_builtTables m costs h, beq_iff_eq,
    Workload.chosenAt, Finset.mem_filter]

/-- The selected candidates are taken from the sets of alternatives, one from each. -/
theorem exists_taken_of_serves (hw : w.IsLeveled w.siblingSets)
    (hsel : w.Serves w.siblingSets (setTables w qs) (setCandidates w qs)) :
    ∃ choice : List ℕ,
      List.Forall₂ (fun c ids => (m.formulate w costs).cheapestUsed? costs s ids = some c) choice
        w.siblingSets ∧
      (m.formulate w costs).usedCandidates w costs s = .ofList choice := by
  refine exists_choice (m.formulate w costs) costs s (w := w) fun ids hids => ?_
  obtain ⟨c, hc, hused⟩ := hsel.covered ids hids
  exact ⟨c, hc, (mem_setCandidates_iff m costs h (hw.lt_of_mem hids hc)).mp hused⟩

/-- The selected candidates are one used member of each set of alternatives. -/
theorem exists_choice_of_serves (hw : w.IsLeveled w.siblingSets)
    (hsel : w.Serves w.siblingSets (setTables w qs) (setCandidates w qs)) :
    ∃ choice : List ℕ, List.Forall₂ (· ∈ ·) choice w.siblingSets ∧
      (∀ c ∈ choice, c ∈ setCandidates w qs) ∧
      (m.formulate w costs).usedCandidates w costs s = .ofList choice := by
  obtain ⟨choice, htaken, heq⟩ := exists_taken_of_serves m costs h hw hsel
  refine ⟨choice, ?_, fun c hc => ?_, heq⟩
  · exact htaken.imp fun c ids hc => (cheapestUsed?_eq_some _ costs s hc).1
  · obtain ⟨ids, hids, hcheapest⟩ := exists_left_of_forall₂ htaken.flip hc
    obtain ⟨hmem, hset⟩ := cheapestUsed?_eq_some _ costs s hcheapest
    exact (mem_setCandidates_iff m costs h (hw.lt_of_mem hids hmem)).mpr hset

end Read

/-! ### Selections -/

section Select

variable {σ : Type} {m : Model Exact} {rowScanCost : Exact} {prune : Bool} {memo : Memo Exact}
  {w : Workload}

/-- **Every accepted answer is a selection that serves the workload, whatever the solver does.**
The tolerance has to be small against the number of variables. -/
theorem Model.select_verified (hw : (m.search rowScanCost prune memo).1 = .ok w)
    (hne : w.isEmpty = false) (costs : List Exact) (costMargin : Exact) {t : ℚ} (ht : 0 < t)
    (hN : ((m.formulate w costs).program.names.length + 1 : ℚ) * t < 1)
    (solver : Solver σ Exact) (state : σ) :
    (∀ o, (m.select w costs costMargin (finite t) solver state).1 = .ok o →
      o.tables = collapse w.candidates ∧
      (∀ c ∈ o.selectedCandidates.toList, o.tables.home c ∈ o.selectedTables) ∧
      (∀ ids ∈ w.siblingSets, ∃ c ∈ ids, c ∈ o.selectedCandidates.toList) ∧
      ∀ mu ∈ m.mutations, mu.kind = .insert →
        (∃ t < o.tables.size, (o.tables.table t).key.root = mu.entity) →
        1 ≤ (o.selectedTables.countP fun t => (o.tables.table t).key.root == mu.entity) ∧
        (o.selectedTables.countP fun t => (o.tables.table t).key.root == mu.entity)
          ≤ mu.maxTables) ∧
    ∀ s₁, (solver (m.formulate w costs).program state).1 = .ok s₁ →
      ((m.formulate w costs).program.IsMalformed s₁.values →
        ∃ v, (m.select w costs costMargin (finite t) solver state).1
          = .error (.integrity .cost v)) ∧
      ∀ s₂, (m.formulate w costs).program.verify (finite t) s₁.values = .ok () →
        (solver ((m.formulate w costs).countTables (s₁.objective * costMargin))
          (solver (m.formulate w costs).program state).2).1 = .ok s₂ →
        (m.formulate w costs).program.IsMalformed s₂.values →
        ∃ v, (m.select w costs costMargin (finite t) solver state).1
          = .error (.integrity .tableCount v) := by
  have hlevels : w.IsLeveled w.siblingSets := by
    rw [siblingSets_eq_levelSets hw]
    exact isLeveled_levelSets hw
  constructor
  · intro o ho
    obtain ⟨phase1, phase2, -, hv₂, rfl⟩ := exists_of_select_eq_ok hne ho
    obtain ⟨qs, hqs, hsel⟩ :=
      exists_isSelection_of_verify hlevels hne ht.le hN (verify_of_countTables hv₂)
    obtain ⟨choice, hchoice, hused, heq⟩ :=
      exists_choice_of_serves m costs hqs hlevels hsel.toServes
    have hmem : ∀ c, c ∈ ((m.formulate w costs).usedCandidates w costs phase2.1).toList
        ↔ c ∈ choice := fun c => by rw [heq, SortedSet.mem_toList_ofList]
    refine ⟨rfl, fun c hc => ?_, fun ids hids => ?_, fun mu hmu hins htable => ?_⟩
    · exact (mem_builtTables m costs hqs).mpr (hsel.linked c (hused c ((hmem c).mp hc)))
    · obtain ⟨i, hi, rfl⟩ := List.getElem_of_mem hids
      have hi' : i < choice.length := hchoice.length_eq ▸ hi
      exact ⟨_, hchoice.get hi' hi, (hmem _).mpr (List.getElem_mem hi')⟩
    · obtain ⟨t', ht', hroot⟩ := htable
      have hex := rootedAt_ne_nil_iff.mp (List.ne_nil_of_mem (mem_rootedAt.mpr ⟨ht', hroot⟩))
      have hcount := countP_builtTables m costs (w := w) hqs mu.entity
      exact ⟨(hsel.toServes.one_le_card hlevels hex).trans_eq hcount.symm,
        hcount.trans_le (hsel.fanout mu hmu hins hex)⟩
  · intro s₁ hs₁
    constructor
    · intro hbad
      obtain ⟨v, hv⟩ := exists_violation_of_isMalformed (t := t) hbad
      refine ⟨v, ?_⟩
      rw [select_fst hne, runPhase_of_ok _ _ hs₁, checkAnswer_of_error hv]
      rfl
    · -- a second answer that verified would verify for the first program as well
      intro s₂ hv₁ hs₂ hbad
      obtain ⟨v, hv⟩ := exists_violation_of_isMalformed (t := t) hbad
      obtain ⟨v', hv'⟩ : ∃ v', ((m.formulate w costs).countTables
          (s₁.objective * costMargin)).verify (finite t) s₂.values = .error v' := by
        rcases ((m.formulate w costs).countTables (s₁.objective * costMargin)).verify_eq_ok_or_error
          (finite t) s₂.values with h | h
        · rw [verify_of_countTables h] at hv
          exact absurd hv (by simp)
        · exact h
      refine ⟨v', ?_⟩
      rw [select_of_phase1 hne hs₁ hv₁, runPhase_of_ok _ _ hs₂, checkAnswer_of_error hv']
      rfl

end Select

/-- Values near one pass the verification for a log, and the selection serves the log. -/
theorem Model.select_verified_log :
    ∃ o, ((Log.model [.any]).select (Log.workload [.any]) [finite 1] (finite 1) (finite (1 / 4))
        (.constant (finite (4 / 5)) (finite 10)) ()).1 = .ok o ∧
      (∀ c ∈ o.selectedCandidates.toList, o.tables.home c ∈ o.selectedTables) ∧
      ∀ ids ∈ (Log.workload [.any]).siblingSets, ∃ c ∈ ids, c ∈ o.selectedCandidates.toList := by
  have hw : ((Log.model [.any]).search (finite 1) false {}).1 = .ok (Log.workload [.any]) := rfl
  have hN : (((Log.model [.any]).formulate (Log.workload [.any]) [finite 1]).program.names.length
      + 1 : ℚ) * (1 / 4) < 1 := by
    have hlen : ((Log.model [.any]).formulate (Log.workload [.any]) [finite 1]).program.names.length
        = 2 := rfl
    rw [hlen]
    norm_num
  have hok : ((Log.model [.any]).select (Log.workload [.any]) [finite 1] (finite 1)
      (finite (1 / 4)) (.constant (finite (4 / 5)) (finite 10)) ()).1.isOk = true := by
    decide +kernel
  obtain ⟨o, hselect⟩ := exists_eq_ok_of_isOk hok
  obtain ⟨-, htables, hcovered, -⟩ := (Model.select_verified hw rfl [finite 1] (finite 1)
    (by norm_num) hN _ ()).1 o hselect
  exact ⟨o, hselect, htables, hcovered⟩

end Keyspace
