import Keyspace.Proofs.Checked.Program
import Keyspace.Proofs.Checked.Search
import Keyspace.Proofs.Selection.Collapse
import Keyspace.Proofs.Selection.Formulation

/-!
# Checked lookups in a formulation

The tables of the candidates are collected group by group: the number of a table is written to the
place of each of its members.  Every place is in range and is written once, which is what makes the
result the list of homes (`collapse_eq`).

The variables of the program are handed out to the tables and then to the candidates, and are found
again by the numbers of these (`Registry`).  For a workload that refers to the model in range, with
a cost for each candidate, all of them are found (`formulate_eq`), and the program is over its own
variables (`Model.isClosed_formulate`).
-/

namespace Keyspace

open Scalar Tables Formulation

/-! ### Writing to places -/

section Writing

variable {β : Type}

theorem length_foldl_set (updates : List (ℕ × β)) (bs : List β) :
    (updates.foldl (fun bs u => bs.set u.1 u.2) bs).length = bs.length := by
  induction updates generalizing bs with
  | nil => rfl
  | cons u updates ih => rw [List.foldl_cons, ih, List.length_set]

/-- If all writes to a place write the same, and there is one unless that stood there before, the
place holds it afterwards. -/
theorem getElem?_foldl_set {updates : List (ℕ × β)} {i : ℕ} {b : β}
    (hsame : ∀ u ∈ updates, u.1 = i → u.2 = b) :
    ∀ {bs : List β}, i < bs.length → (bs[i]? = some b ∨ ∃ u ∈ updates, u.1 = i) →
      (updates.foldl (fun bs u => bs.set u.1 u.2) bs)[i]? = some b := by
  induction updates with
  | nil => exact fun _ h => h.resolve_right fun ⟨u, hu, _⟩ => List.not_mem_nil hu
  | cons u rest ih =>
    intro bs hi h
    obtain ⟨hu, hrest⟩ := List.forall_mem_cons.mp hsame
    refine ih hrest (by rwa [List.length_set]) ?_
    by_cases hwritten : u.1 = i
    · obtain rfl := hu hwritten
      rw [← hwritten] at hi
      exact .inl (by rw [← hwritten, List.getElem?_set_self hi])
    · rw [List.getElem?_set_ne hwritten]
      refine h.imp_right fun ⟨u', hu', heq⟩ => ?_
      exact ⟨u', (List.mem_cons.mp hu').resolve_left fun h => hwritten (h ▸ heq), heq⟩

end Writing

namespace Checked

/-! ### Tables -/

/-- The members of each table with the number of the table. -/
def membersOf (tables : List Table) : List (ℕ × ℕ) :=
  tables.zipIdx.flatMap fun t => t.1.members.map fun c => (c, t.2)

/-- Writes the number of a table to the place of one of its members. -/
def writeHome (homes : List ℕ) (entry : ℕ × ℕ) : Option (List ℕ) :=
  if entry.1 < homes.length then some (homes.set entry.1 entry.2) else none

/-- The tables of a list of candidates. -/
def collapse (candidates : List Candidate) : Option Tables := do
  let keys ← (List.range candidates.length).mapM fun id =>
    candidates[id]?.map fun c => (c.key, id)
  let groups : SortedMap TableKey (List ℕ) :=
    keys.foldl (fun groups e => groups.alter e.1 fun members => members.getD [] ++ [e.2]) ∅
  let tables := groups.entries.map fun e => Table.mk e.1 e.2
  let homes ← (membersOf tables).foldlM writeHome (List.replicate candidates.length 0)
  return { tables, homes }

theorem mem_membersOf {candidates : List Candidate} {u : ℕ × ℕ} :
    u ∈ membersOf (Tables.collapse candidates).tables ↔
      u.1 < candidates.length ∧ (Tables.collapse candidates).home u.1 = u.2 := by
  set ts := Tables.collapse candidates with hts
  have hmem : u ∈ membersOf ts.tables ↔ u.2 < ts.size ∧ u.1 ∈ (ts.table u.2).members := by
    rw [membersOf, List.mem_flatMap]
    constructor
    · rintro ⟨⟨t, i⟩, ht, hu⟩
      obtain ⟨c, hc, rfl⟩ := List.mem_map.mp hu
      obtain ⟨hi, hget⟩ := List.getElem?_eq_some_iff.mp (List.mem_zipIdx_iff_getElem?.mp ht)
      have htable : ts.table i = t := (List.getD_eq_getElem _ _ hi).trans hget
      exact ⟨hi, htable.symm ▸ hc⟩
    · rintro ⟨hi, hc⟩
      refine ⟨(ts.table u.2, u.2), ?_, List.mem_map.mpr ⟨u.1, hc, rfl⟩⟩
      exact List.mem_zipIdx_iff_getElem?.mpr (getElem?_eq_some_getD hi default)
  rw [hmem]
  constructor
  · rintro ⟨ht, hc⟩
    exact (mem_members_iff ht).mp hc
  · rintro ⟨hc, hhome⟩
    have ht : u.2 < ts.size := hhome ▸ home_lt_size hc
    exact ⟨ht, (mem_members_iff ht).mpr ⟨hc, hhome⟩⟩

theorem length_homes (candidates : List Candidate) :
    (Tables.collapse candidates).homes.length = candidates.length :=
  List.length_map _

theorem homes_eq {candidates : List Candidate} {c : ℕ} (hc : c < candidates.length) :
    (Tables.collapse candidates).homes[c]? = some ((Tables.collapse candidates).home c) :=
  getElem?_eq_some_getD ((length_homes candidates).symm ▸ hc) 0

/-- Every candidate is given the number of its table. -/
theorem foldl_membersOf (candidates : List Candidate) :
    (membersOf (Tables.collapse candidates).tables).foldl (fun homes u => homes.set u.1 u.2)
        (List.replicate candidates.length 0)
      = (Tables.collapse candidates).homes := by
  refine List.ext_getElem? fun c => ?_
  by_cases hc : c < candidates.length
  · rw [homes_eq hc]
    refine getElem?_foldl_set (fun u hu hplace => ?_) (by rwa [List.length_replicate]) (.inr ?_)
    · rw [← (mem_membersOf.mp hu).2, hplace]
    · exact ⟨(c, (Tables.collapse candidates).home c), mem_membersOf.mpr ⟨hc, rfl⟩, rfl⟩
  · have hc := Nat.le_of_not_lt hc
    rw [List.getElem?_eq_none (by rwa [length_foldl_set, List.length_replicate]),
      List.getElem?_eq_none (by rwa [length_homes])]

theorem collapse_eq (candidates : List Candidate) :
    collapse candidates = some (Tables.collapse candidates) := by
  have hkeys : ∀ id ∈ List.range candidates.length,
      (candidates[id]?.map fun c => (c.key, id))
        = some ((candidates.getD id default).key, id) := by
    intro id hid
    rw [getElem?_eq_some_getD (List.mem_range.mp hid) default]
    rfl
  have hzip : ((List.range candidates.length).map fun id => ((candidates.getD id default).key, id))
      = candidates.zipIdx.map fun c => (c.1.key, c.2) := by
    refine List.ext_getElem (by simp) fun id hid _ => ?_
    have hid : id < candidates.length := by simpa using hid
    simp [hid]
  have hgroups : (((List.range candidates.length).map fun id =>
        ((candidates.getD id default).key, id)).foldl
          (fun groups e => groups.alter e.1 fun members => members.getD [] ++ [e.2]) ∅)
      = group candidates := by
    rw [hzip, List.foldl_map]
    rfl
  -- no write changes how many places there are
  have hwrites : (membersOf (Tables.collapse candidates).tables).foldlM writeHome
        (List.replicate candidates.length 0)
      = some (Tables.collapse candidates).homes := by
    rw [← foldl_membersOf]
    refine foldlM_eq_some (P := fun homes => homes.length = candidates.length)
      (fun homes hlength u hu => ⟨?_, by rw [List.length_set, hlength]⟩) List.length_replicate
    rw [writeHome, if_pos (hlength.symm ▸ (mem_membersOf.mp hu).1)]
  rw [collapse, mapM_eq_some hkeys]
  simp only [Option.bind_eq_bind, Option.bind_some, hgroups, ← tables_collapse, hwrites]
  rfl

/-! ### Constraints -/

/-- The variables of the tables and of the candidates, each by its number. -/
structure Registry where
  tableVars : List ℕ
  candidateVars : List ℕ

/-- Variables are handed out one after the other, to the tables first. -/
def Registry.of (ts : Tables) (count : ℕ) : Registry :=
  ⟨List.range ts.size, List.range' ts.size count⟩

/-- The numbers of the tables that store rows of an entity. -/
def rootedAt (ts : Tables) (id : EntityId) : Option (List ℕ) :=
  (List.range ts.size).filterM fun t => ts.tables[t]?.map fun table => table.key.root == id

variable {α : Type} [Scalar α]

/-- A candidate is used only if its table is built. -/
def linking (ts : Tables) (vars : Registry) (candidate : ℕ) : Option (Constraint α) := do
  let home ← ts.homes[candidate]?
  let tableVar ← vars.tableVars[home]?
  let candidateVar ← vars.candidateVars[candidate]?
  return {
    name := "link_i" ++ Nat.repr candidate
    terms := [(tableVar, one), (candidateVar, negate one)]
    sense := .atLeast
    bound := zero }

/-- One of the alternatives is used. -/
def coverage (vars : Registry) (number : ℕ) (siblings : List ℕ) : Option (Constraint α) := do
  let terms ← siblings.mapM fun c => vars.candidateVars[c]?.map fun v => (v, one)
  return ⟨"cover_" ++ Nat.repr number, terms, .atLeast, one⟩

/-- The bounds that a mutation sets to the tables it touches. -/
def fanout (ts : Tables) (vars : Registry) (number : ℕ) (mu : Mutation) :
    Option (List (Constraint α)) := do
  let touched ← rootedAt ts mu.entity
  if mu.kind == .insert && !touched.isEmpty then
    let terms ← touched.mapM fun t => vars.tableVars[t]?.map fun v => (v, one)
    return [⟨"fanout_min_" ++ Nat.repr number, terms, .atLeast, one⟩,
      ⟨"fanout_max_" ++ Nat.repr number, terms, .atMost, ofNat mu.maxTables⟩]
  else return []

/-- The weighted cost of a candidate, on the candidate's variable. -/
def costTerm (m : Model α) (w : Workload) (costs : List α) (vars : Registry) (c : ℕ) :
    Option (ℕ × α) := do
  let candidate ← w.candidates[c]?
  let q ← query m candidate.query
  let candidateVar ← vars.candidateVars[c]?
  let cost ← costs[c]?
  return (candidateVar, cost * ofNat q.serviceLevel.throughput)

/-- The program that chooses among the candidates of a workload, with its variables. -/
def formulate (m : Model α) (w : Workload) (costs : List α) :
    Option (Formulation α × Registry) := do
  let tables ← collapse w.candidates
  let ids := List.range w.candidates.length
  let vars := Registry.of tables w.candidates.length
  let links ← ids.mapM (linking tables vars)
  let covers ← w.siblingSets.zipIdx.mapM fun e => coverage vars e.2 e.1
  let fanouts ← m.mutations.zipIdx.mapM fun e => fanout tables vars e.2 e.1
  let costTerms ← ids.mapM (costTerm m w costs vars)
  let program : Program α := {
    names :=
      ((List.range tables.size).map fun t => "t" ++ Nat.repr t) ++
        ids.map fun c => "i" ++ Nat.repr c
    constraints := links ++ covers ++ fanouts.flatten
    objective := costTerms }
  return ({ program, tables, costTerms }, vars)

section Constraints

variable {ts : Tables} {count : ℕ}

omit [Scalar α] in
theorem tableVars_eq {t : ℕ} (ht : t < ts.size) :
    (Registry.of ts count).tableVars[t]? = some (tableVar t) :=
  List.getElem?_range ht

omit [Scalar α] in
theorem candidateVars_eq {c : ℕ} (hc : c < count) :
    (Registry.of ts count).candidateVars[c]? = some (candidateVar ts c) := by
  rw [Registry.of, List.getElem?_range' hc, Nat.one_mul]
  rfl

omit [Scalar α] in
theorem rootedAt_eq (id : EntityId) : rootedAt ts id = some (ts.rootedAt id) := by
  refine filterM_eq_some fun t ht => ?_
  rw [getElem?_eq_some_getD (List.mem_range.mp ht) default]
  rfl

theorem coverage_eq {siblings : List ℕ} (h : ∀ c ∈ siblings, c < count) (number : ℕ) :
    coverage (α := α) (Registry.of ts count) number siblings
      = some (Formulation.coverage ts number siblings) := by
  have hvars : ∀ c ∈ siblings, ((Registry.of ts count).candidateVars[c]?.map fun v => (v, one))
      = some (candidateVar ts c, (one : α)) := by
    intro c hc
    rw [candidateVars_eq (h c hc)]
    rfl
  rw [coverage, mapM_eq_some hvars]
  rfl

theorem fanout_eq (number : ℕ) (mu : Mutation) :
    fanout (α := α) ts (Registry.of ts count) number mu
      = some (Formulation.fanout ts number mu) := by
  have hvars : ∀ t ∈ ts.rootedAt mu.entity,
      ((Registry.of ts count).tableVars[t]?.map fun v => (v, one))
        = some (tableVar t, (one : α)) := by
    intro t ht
    rw [tableVars_eq (mem_rootedAt.mp ht).1]
    rfl
  rw [fanout, Formulation.fanout, rootedAt_eq]
  simp only [Option.bind_eq_bind, Option.bind_some, mapM_eq_some hvars]
  split_ifs <;> rfl

theorem linking_eq {candidates : List Candidate} {c : ℕ} (hc : c < candidates.length) :
    linking (α := α) (Tables.collapse candidates)
        (Registry.of (Tables.collapse candidates) candidates.length) c
      = some (Formulation.linking (Tables.collapse candidates) c) := by
  rw [linking, homes_eq hc, candidateVars_eq hc]
  simp only [Option.bind_eq_bind, Option.bind_some, tableVars_eq (home_lt_size hc)]
  rfl

end Constraints

/-! ### Programs -/

section Programs

variable {m : Model α} {w : Workload} (hw : w.RefersTo m) {costs : List α}
  (hcosts : costs.length = w.candidates.length)
include hw hcosts

theorem costTerm_eq {c : ℕ} (hc : c < w.candidates.length) (ts : Tables) :
    costTerm m w costs (Registry.of ts w.candidates.length) c
      = some (candidateVar ts c,
          costs.getD c zero * ofNat (m.query (w.candidate c).query).serviceLevel.throughput) := by
  have hquery : (w.candidate c).query < m.queries.length := by
    rw [Workload.candidate_eq_getElem hc]
    exact hw.query_lt _ (List.getElem_mem hc)
  rw [costTerm, Workload.getElem?_candidates hc, candidateVars_eq hc,
    getElem?_eq_some_getD (hcosts.symm ▸ hc) zero]
  simp only [Option.bind_eq_bind, Option.bind_some, query_eq hquery]
  rfl

theorem formulate_eq :
    formulate m w costs = some (m.formulate w costs,
      Registry.of (Tables.collapse w.candidates) w.candidates.length) := by
  set ts := Tables.collapse w.candidates with hts
  set vars := Registry.of ts w.candidates.length
  have hlinks : (List.range w.candidates.length).mapM (linking ts vars)
      = some ((List.range w.candidates.length).map (Formulation.linking (α := α) ts)) :=
    mapM_eq_some fun c hc => linking_eq (List.mem_range.mp hc)
  have hcovers : (w.siblingSets.zipIdx.mapM fun e => coverage vars e.2 e.1)
      = some (w.siblingSets.mapIdx (Formulation.coverage (α := α) ts)) := by
    rw [List.mapIdx_eq_zipIdx_map]
    exact mapM_eq_some fun e he =>
      coverage_eq (hw.siblings_lt e.1 (List.fst_mem_of_mem_zipIdx he)) e.2
  have hfanouts : (m.mutations.zipIdx.mapM fun e => fanout ts vars e.2 e.1)
      = some (m.mutations.mapIdx (Formulation.fanout (α := α) ts)) := by
    rw [List.mapIdx_eq_zipIdx_map]
    exact mapM_eq_some fun e _ => fanout_eq e.2 e.1
  have hterms : (List.range w.candidates.length).mapM (costTerm m w costs vars)
      = some (m.formulate w costs).costTerms :=
    mapM_eq_some fun c hc => costTerm_eq hw hcosts (List.mem_range.mp hc) ts
  rw [formulate, collapse_eq]
  simp only [Option.bind_eq_bind, Option.bind_some]
  rw [hlinks, hcovers, hfanouts, hterms]
  rfl

end Programs

end Checked

/-! ### The variables of a program -/

section Variables

variable {α : Type} [Scalar α] {m : Model α} {w : Workload} (hw : w.RefersTo m) (costs : List α)
include hw

theorem Model.isClosed_formulate : (m.formulate w costs).program.IsClosed := by
  have hlength := length_names m w costs
  have htable : ∀ t < (collapse w.candidates).size,
      tableVar t < (m.formulate w costs).program.names.length := fun t ht =>
    hlength ▸ Nat.lt_add_right _ ht
  have hcandidate : ∀ c < w.candidates.length,
      candidateVar (collapse w.candidates) c < (m.formulate w costs).program.names.length :=
    fun c hc => hlength ▸ Nat.add_lt_add_left hc _
  constructor
  · intro t ht
    obtain ⟨c, hc, rfl⟩ := List.mem_map.mp ht
    exact hcandidate c (List.mem_range.mp hc)
  · intro c hc t ht
    rcases (mem_constraints_iff m w costs).mp hc with ⟨i, hi, rfl⟩ | ⟨k, s, hs, rfl⟩ |
      ⟨k, mu, -, hmem⟩
    · rcases List.mem_cons.mp ht with rfl | ht
      · exact htable _ (home_lt_size hi)
      · obtain rfl := List.mem_singleton.mp ht
        exact hcandidate i hi
    · obtain ⟨i, hi, rfl⟩ := List.mem_map.mp ht
      exact hcandidate i (hw.siblings_lt s (List.mem_of_getElem? hs) i hi)
    · rw [fanout] at hmem
      dsimp only at hmem
      split_ifs at hmem
      · -- both bounds are on the same tables
        have hterms : t ∈ ((collapse w.candidates).rootedAt mu.entity).map
            fun t => (tableVar t, (one : α)) := by
          rcases List.mem_cons.mp hmem with rfl | hmem
          · exact ht
          · obtain rfl := List.mem_singleton.mp hmem
            exact ht
        obtain ⟨i, hi, rfl⟩ := List.mem_map.mp hterms
        exact htable i (mem_rootedAt.mp hi).1
      · exact absurd hmem List.not_mem_nil

end Variables

end Keyspace
