import Keyspace.Proofs.Workload.Priced
import Keyspace.Proofs.Workload.Pruning

/-!
# What a search remembers

A search that succeeds has computed every cost it needed, so that each of its misses has left an
entry (`Memo.Grows`), and it remembers the cost of every candidate it found (`Memo.Knows`), next to
those it dropped.  Each step of a search does so (`Model.grows_cost`, `Model.grows_planLevel`), and
`Memo.grows_collect` carries that over to a run of steps.

Pricing what was found therefore computes nothing: `Model.price_of_search` says that it succeeds,
what the prices are, and that it leaves nothing behind but one hit for each candidate.
-/

namespace Keyspace

open Scalar (ofNat)

/-! ### Memos that grow -/

namespace Memo

variable {α : Type} {memo memo' memo'' : Memo α} {c : Candidate}

/-- Successful calls lead from one memo to the other: nothing is forgotten, and every miss has left
an entry. -/
structure Grows (memo memo' : Memo α) : Prop where
  suffix : memo.entries <:+ memo'.entries
  misses_eq : memo'.misses + memo.entries.length = memo.misses + memo'.entries.length

theorem Grows.refl (memo : Memo α) : memo.Grows memo := ⟨List.suffix_rfl, rfl⟩

theorem Grows.trans (h : memo.Grows memo') (h' : memo'.Grows memo'') : memo.Grows memo'' where
  suffix := h.suffix.trans h'.suffix
  misses_eq := by
    have h₁ := h.misses_eq
    have h₂ := h'.misses_eq
    omega

/-- The memo has an entry for the cost of the candidate. -/
def Knows (memo : Memo α) (c : Candidate) : Prop :=
  ∃ e ∈ memo.entries, e.1.same (.ofCandidate c) = true

theorem Knows.grow (h : memo.Knows c) (hgrows : memo.Grows memo') : memo'.Knows c := by
  obtain ⟨e, he, hsame⟩ := h
  exact ⟨e, hgrows.suffix.subset he, hsame⟩

/-- A run of steps that let the memo grow lets it grow, and what holds after each step holds in the
end, if growing keeps it. -/
theorem grows_collect {β γ ε : Type} {step : β → Memo α → Except ε γ × Memo α}
    {Q : β → γ → Memo α → Prop}
    (hkeep : ∀ {b c memo memo'}, Q b c memo → memo.Grows memo' → Q b c memo')
    (hstep : ∀ {b c memo}, (step b memo).1 = .ok c →
      memo.Grows (step b memo).2 ∧ Q b c (step b memo).2) :
    ∀ {bs : List β} {cs : List γ} {memo : Memo α}, (memo.collect step bs).1 = .ok cs →
      memo.Grows (memo.collect step bs).2 ∧
        List.Forall₂ (fun b c => Q b c (memo.collect step bs).2) bs cs := by
  intro bs
  induction bs with
  | nil =>
    intro cs memo h
    obtain rfl := Except.ok.inj h
    exact ⟨.refl memo, .nil⟩
  | cons b rest ih =>
    intro cs memo h
    rw [collect] at h ⊢
    rcases hfirst : step b memo with ⟨_ | c, memo'⟩
    · rw [hfirst] at h
      exact absurd h (by simp)
    obtain ⟨hgrows, hc⟩ := hstep (congrArg Prod.fst hfirst)
    rw [hfirst] at h hgrows hc
    dsimp only at h hgrows hc ⊢
    rcases hrest : memo'.collect step rest with ⟨_ | tail, memo''⟩
    · rw [hrest] at h
      exact absurd h (by simp)
    obtain ⟨hgrows', htail⟩ := ih (congrArg Prod.fst hrest)
    rw [hrest] at h hgrows' htail
    obtain rfl := Except.ok.inj h
    exact ⟨hgrows.trans hgrows', .cons (hkeep hc hgrows') htail⟩

end Memo

namespace Model

variable {α : Type} [Scalar α] {m : Model α} {rowScanCost : α} {prune : Bool} {memo : Memo α}

/-! ### The steps of a search -/

/-- A call that succeeds leaves the cost known. -/
theorem grows_cost {c : Candidate} {cost : α} (h : (m.cost rowScanCost c memo).1 = .ok cost) :
    memo.Grows (m.cost rowScanCost c memo).2 ∧ (m.cost rowScanCost c memo).2.Knows c := by
  rcases m.cost_cases rowScanCost memo c with ⟨e, he, hsame, hcost⟩ |
    ⟨-, ⟨error, -, hcost⟩ | ⟨estimate, -, hcost⟩⟩
  · rw [hcost]
    exact ⟨⟨List.suffix_rfl, rfl⟩, e, he, hsame⟩
  · rw [hcost] at h
    exact absurd h (by simp)
  · rw [hcost]
    refine ⟨⟨List.suffix_cons _ _, ?_⟩, _, List.mem_cons_self, CostKey.equivalence_same.refl _⟩
    dsimp only [List.length_cons]
    omega

theorem grows_costs {cs : List Candidate} {costs : List α}
    (h : (m.costs rowScanCost cs memo).1 = .ok costs) :
    memo.Grows (m.costs rowScanCost cs memo).2 ∧
      ∀ c ∈ cs, (m.costs rowScanCost cs memo).2.Knows c := by
  obtain ⟨hgrows, hknown⟩ := Memo.grows_collect (Q := fun c _ memo => memo.Knows c)
    (fun h hgrows => h.grow hgrows) grows_cost h
  refine ⟨hgrows, fun c hc => ?_⟩
  obtain ⟨cost, -, hknows⟩ := exists_left_of_forall₂ hknown.flip hc
  exact hknows

/-- A level that has an answer leaves the costs of all candidates of the answer known. -/
theorem grows_planLevel {l : Level} {p : LevelPlan}
    (h : (m.planLevel rowScanCost prune l memo).1 = .ok p) :
    memo.Grows (m.planLevel rowScanCost prune l memo).2 ∧
      ∀ c ∈ p.candidates, (m.planLevel rowScanCost prune l memo).2.Knows c := by
  have hmem : ∀ c ∈ p.candidates, c ∈ m.candidates l :=
    fun c hc => (answers_of_planLevel h).mem_candidates hc
  rw [planLevel] at h ⊢
  split_ifs at h ⊢
  · obtain rfl := Except.ok.inj h
    exact ⟨.refl memo, fun c hc => absurd hc List.not_mem_nil⟩
  · dsimp only at h ⊢
    rcases hcosts : m.costs rowScanCost (m.candidates l) memo with ⟨_ | costs, memo'⟩
    · rw [hcosts] at h
      exact absurd h (by simp)
    obtain ⟨hgrows, hknows⟩ := grows_costs (congrArg Prod.fst hcosts)
    rw [hcosts] at h hgrows hknows
    dsimp only at h hgrows hknows ⊢
    split_ifs at h ⊢
    exact ⟨hgrows, fun c hc => hknows c (hmem c hc)⟩

/-- **A search leaves the cost of every candidate known**, and an entry for each of its misses. -/
theorem grows_search {w : Workload} (h : (m.search rowScanCost prune memo).1 = .ok w) :
    memo.Grows (m.search rowScanCost prune memo).2 ∧
      ∀ c ∈ w.candidates, (m.search rowScanCost prune memo).2.Knows c := by
  obtain ⟨ps, hps, rfl⟩ := exists_levelPlans h
  have hsnd : (m.search rowScanCost prune memo).2
      = (memo.collect (m.planSelection rowScanCost prune) m.selectionLevels).2 := by
    rw [search]
    split <;> next heq => rw [heq]
  have hknown : ∀ {memo memo' : Memo α} {p : LevelPlan}, (∀ c ∈ p.candidates, memo.Knows c) →
      memo.Grows memo' → ∀ c ∈ p.candidates, memo'.Knows c :=
    fun h hgrows c hc => (h c hc).grow hgrows
  obtain ⟨hgrows, hselections⟩ := Memo.grows_collect
    (Q := fun _ ps memo => ∀ p ∈ ps, ∀ c ∈ p.candidates, memo.Knows c)
    (fun h hgrows p hp => hknown (h p hp) hgrows)
    (fun {levels ps memo} h => by
      obtain ⟨hgrows, hlevels⟩ := Memo.grows_collect
        (Q := fun _ p memo => ∀ c ∈ p.candidates, memo.Knows c)
        (fun h hgrows => hknown h hgrows) grows_planLevel h
      refine ⟨hgrows, fun p hp => ?_⟩
      obtain ⟨l, -, hp⟩ := exists_left_of_forall₂ hlevels hp
      exact hp)
    hps
  rw [hsnd]
  refine ⟨hgrows, fun c hc => ?_⟩
  obtain ⟨p, hp, hc⟩ := List.mem_flatMap.mp hc
  obtain ⟨answers, hanswers, hp⟩ := List.mem_flatten.mp hp
  obtain ⟨levels, -, hanswers⟩ := exists_left_of_forall₂ hselections hanswers
  exact hanswers p hp c hc

/-! ### Prices -/

/-- Pricing candidates whose costs are known is all hits. -/
theorem exists_costs_of_knows {cs : List Candidate} (h : ∀ c ∈ cs, memo.Knows c) :
    ∃ costs, m.costs rowScanCost cs memo
      = (.ok costs, { memo with hits := memo.hits + cs.length }) := by
  induction cs generalizing memo with
  | nil => exact ⟨[], rfl⟩
  | cons c rest ih =>
    obtain ⟨⟨e, he, hsame⟩, hrest⟩ := List.forall_mem_cons.mp h
    rcases m.cost_cases rowScanCost memo c with ⟨e, -, -, hcost⟩ | ⟨hnew, -⟩
    · obtain ⟨costs, hcosts⟩ := @ih { memo with hits := memo.hits + 1 } hrest
      refine ⟨e.2 :: costs, ?_⟩
      rw [Model.costs] at hcosts ⊢
      rw [Memo.collect, hcost]
      dsimp only
      rw [hcosts, List.length_cons, Nat.add_assoc, Nat.add_comm 1]
    · exact absurd hsame (by simp [hnew e he])

/-- What pruning keeps stays below the latency. -/
theorem isKept_of_search {w : Workload} (hmemo : m.RemembersCosts rowScanCost memo)
    (hw : (m.search rowScanCost true memo).1 = .ok w) {c : Candidate} (hc : c ∈ w.candidates) :
    m.isKept rowScanCost c = true := by
  obtain ⟨l, hl, p, hp, hc⟩ := exists_answer_of_search hmemo hw hc
  have hbinds := bindsIdentifier_of_mem_plannedLevels hl
  rw [answer, hbinds, if_neg Bool.false_ne_true] at hp
  cases hcosts : m.levelCosts rowScanCost l with
  | error e =>
    rw [hcosts] at hp
    exact absurd hp (by simp)
  | ok costs =>
    rw [hcosts] at hp
    dsimp only at hp
    split_ifs at hp
    obtain rfl := Except.ok.inj hp
    rw [LevelPlan.candidates, keep_eq_filter hcosts] at hc
    exact (List.mem_filter.mp hc).2

/-- Pricing what a search over an empty memo found, whatever the scalars are. -/
theorem exists_price_of_search {w : Workload}
    (hw : m.search rowScanCost prune {} = (.ok w, memo)) :
    ∃ costs, m.price rowScanCost w memo
        = (.ok costs, { memo with hits := memo.hits + w.candidates.length }) ∧
      memo.entries.length = memo.misses ∧
      List.Forall₂ (fun c cost => (m.estimate rowScanCost c).map Estimate.total = .ok cost)
        w.candidates costs := by
  have hfst : (m.search rowScanCost prune {}).1 = .ok w := congrArg Prod.fst hw
  have hsnd : (m.search rowScanCost prune {}).2 = memo := congrArg Prod.snd hw
  have hafter : m.RemembersCosts rowScanCost (m.search rowScanCost prune {}).2 :=
    remembersCosts_search remembersCosts_empty
  obtain ⟨hgrows, hknows⟩ := grows_search hfst
  rw [hsnd] at hafter hgrows hknows
  obtain ⟨costs, hprice⟩ : ∃ costs, m.costs rowScanCost w.candidates memo
      = (.ok costs, { memo with hits := memo.hits + w.candidates.length }) :=
    exists_costs_of_knows hknows
  have hestimates := (costs_eq hafter w.candidates).1.symm.trans (congrArg Prod.fst hprice)
  refine ⟨costs, hprice, ?_, mapM_eq_ok_iff.mp hestimates⟩
  have hmisses := hgrows.misses_eq
  rw [Nat.zero_add] at hmisses
  exact hmisses.symm

/-- **Pricing what a search found only reads the memo.**  It succeeds with the cost of every
candidate, each of which a pruned search has found below the latency of its query, and it changes
nothing but the number of hits, by one for each candidate.  A cost that is not below the latency is
not a number, and neither is then the cost of scanning a row. -/
theorem price_of_search {m : Model Exact} {rowScanCost : Exact} {prune : Bool} {w : Workload}
    {memo : Memo Exact} (hw : m.search rowScanCost prune {} = (.ok w, memo)) :
    ∃ costs, m.price rowScanCost w memo
        = (.ok costs, { memo with hits := memo.hits + w.candidates.length }) ∧
      memo.entries.length = memo.misses ∧
      List.Forall₂
        (fun c cost => (m.estimate rowScanCost c).map Estimate.total = .ok cost ∧
          (prune = true →
            Scalar.lt cost (ofNat (m.query c.query).serviceLevel.latency) = true ∨
              cost = .nan ∧ rowScanCost = .nan))
        w.candidates costs := by
  have hfst : (m.search rowScanCost prune {}).1 = .ok w := congrArg Prod.fst hw
  obtain ⟨costs, hprice, hmisses, hestimates⟩ := exists_price_of_search hw
  refine ⟨costs, hprice, hmisses, ?_⟩
  have hkept : ∀ c ∈ w.candidates, prune = true → m.isKept rowScanCost c = true := by
    rintro c hc rfl
    exact isKept_of_search remembersCosts_empty hfst hc
  refine ((List.forall₂_and_left _ _).mpr ⟨hkept, hestimates⟩).imp ?_
  rintro c cost ⟨hkept, hcost⟩
  refine ⟨hcost, fun hprune => ?_⟩
  obtain ⟨e, he, rfl⟩ := map_eq_ok_iff.mp hcost
  have hfits := hkept hprune
  rw [isKept, he] at hfits
  refine (fitsLatency_iff.mp hfits).imp_right fun hnan => ⟨hnan, ?_⟩
  exact not_imp_not.mp (total_ne_nan he) hnan

end Model

/-- With rows scanned at ten each, a pruned search of a forum prices four candidates and keeps three
of them, which pricing looks up again. -/
theorem Model.price_of_search_forum :
    ∃ w memo costs, Forum.model.search (.finite 10) true {} = (.ok w, memo) ∧
      w.candidates.length = 3 ∧ memo.entries.length = 4 ∧ memo.misses = 4 ∧
      Forum.model.price (.finite 10) w memo = (.ok costs, { memo with hits := memo.hits + 3 }) ∧
      List.Forall₂
        (fun c cost => (Forum.model.estimate (.finite 10) c).map Estimate.total = .ok cost ∧
          Scalar.lt cost (ofNat (Forum.model.query c.query).serviceLevel.latency) = true)
        w.candidates costs := by
  have hlength : (Forum.model.search (.finite 10) true {}).1.toOption.map (·.candidates.length)
      = some 3 := by decide +kernel
  have hentries : (Forum.model.search (.finite 10) true {}).2.entries.length = 4 := by
    decide +kernel
  obtain ⟨w, hw, hlength⟩ := exists_eq_ok_of_map hlength
  have hrun : Forum.model.search (.finite 10) true {}
      = (.ok w, (Forum.model.search (.finite 10) true {}).2) := Prod.ext hw rfl
  obtain ⟨costs, hprice, hmisses, hcosts⟩ := Model.price_of_search hrun
  rw [hlength] at hprice
  refine ⟨w, _, costs, hrun, hlength, hentries, hmisses ▸ hentries, hprice, hcosts.imp ?_⟩
  exact fun c cost h => ⟨h.1, (h.2 rfl).resolve_right (by simp)⟩

/-- With rows scanned at a cost that is not a number, a pruned search of a log in two directions
keeps a candidate whose price is not below the latency of its query. -/
theorem Log.exists_price_not_lt :
    ∃ w memo costs, (Log.model [.asc, .desc]).search .nan true {} = (.ok w, memo) ∧
      ((Log.model [.asc, .desc]).price .nan w memo).1 = .ok costs ∧
      ∃ c cost, w.candidates[1]? = some c ∧ costs[1]? = some cost ∧
        Scalar.lt cost
          (ofNat ((Log.model [.asc, .desc]).query c.query).serviceLevel.latency) = false := by
  refine ⟨_, _, _, rfl, rfl, _, _, rfl, rfl, rfl⟩

end Keyspace
