import Keyspace.Proofs.Report.Identity
import Keyspace.Proofs.Report.Selected

/-!
# Reports refer to their own tables

A report names tables in three places: it lists them, it gives the table of every assignment as a
text, and it counts the tables that a mutation touches.  `Report.IsCoherent` says that these agree.
The text of an assignment is written from a table key and that of a listed table from its names; if
the names are plain (`Catalog.IsPlain`), the two are the same for one listed table only, and this
table is built (`Model.plan_isCoherent`).
-/

namespace Keyspace

open Scalar Tables Formulation
open Exact (finite)

/-! ### Plain names -/

/-- A name without any of the characters that the text of a table puts between names. -/
def Text.IsPlain (name : String) : Prop :=
  name ≠ "" ∧ ∀ c ∈ name.toList, c ∉ ['\x7b', '\x7d', '[', ']', ',', '.'] ∧ isBlank c = false

instance (name : String) : Decidable (Text.IsPlain name) :=
  @instDecidableAnd (name ≠ "") _ inferInstance (List.decidableBAll _ _)

/-- The names of all entities and fields are plain. -/
structure Catalog.IsPlain (c : Catalog) : Prop where
  entity : ∀ e ∈ c.entities, Text.IsPlain e.name
  field : ∀ e ∈ c.entities, ∀ f ∈ e.fields.values, Text.IsPlain f.name

/-- A text that stands out among the items of a list in braces. -/
structure Text.IsItem (s : String) : Prop where
  ne_nil : s.toList ≠ []
  comma : ',' ∉ s.toList
  brace : '\x7d' ∉ s.toList

/-- A path over plain names is written as an item. -/
theorem Path.isItem_text {p : Path} (hne : p.segments ≠ [])
    (h : ∀ name ∈ p.segments, Text.IsPlain name) : Text.IsItem p.text := by
  have hmem : ∀ c ∈ p.text.toList, c = '.' ∨ c ∉ ['\x7b', '\x7d', '[', ']', ',', '.'] := by
    intro c hc
    rw [text, String.toList_intercalate] at hc
    rcases Text.mem_intercalate hc with hc | ⟨_, hpart, hc⟩
    · exact .inl (List.mem_singleton.mp hc)
    · obtain ⟨name, hname, rfl⟩ := List.mem_map.mp hpart
      exact .inr ((h name hname).2 c hc).1
  have hnot : ∀ c, c ≠ '.' → c ∈ ['\x7b', '\x7d', '[', ']', ',', '.'] → c ∉ p.text.toList :=
    fun c hdot hspecial hc => (hmem c hc).elim hdot fun hplain => hplain hspecial
  refine ⟨fun hnil => ?_, hnot _ (by decide) (by decide), hnot _ (by decide) (by decide)⟩
  obtain ⟨name, names, heq⟩ := List.exists_cons_of_ne_nil hne
  rw [text, heq, String.toList_intercalate, List.map_cons] at hnil
  have hname : name.toList ≠ [] := fun hempty =>
    (h name (heq ▸ List.mem_cons_self)).1 (String.toList_eq_nil_iff.mp hempty)
  cases names with
  | nil => exact hname (List.intercalate_singleton.symm.trans hnil)
  | cons next names =>
    rw [List.map_cons, List.intercalate_cons_cons, List.append_assoc] at hnil
    exact hname (List.append_eq_nil_iff.mp hnil).1

theorem OrderTerm.isItem_text {t : OrderTerm} (h : Text.IsItem t.path.text) :
    Text.IsItem t.text := by
  have hdirection : ',' ∉ t.direction.text.toList ∧ '\x7d' ∉ t.direction.text.toList := by
    cases t.direction <;> decide
  have htext : t.text.toList = t.path.text.toList ++ ' ' :: t.direction.text.toList := by
    rw [text, String.toList_append, String.toList_append, List.append_assoc]
    rfl
  refine ⟨?_, ?_, ?_⟩
  · rw [htext]
    simp
  · rw [htext]
    simp [h.comma, hdirection.1]
  · rw [htext]
    simp [h.brace, hdirection.2]

/-! ### Texts of tables -/

/-- The parts of a report on a table can be told apart in its text. -/
structure TableReport.IsPlain (t : TableReport) : Prop where
  entity : '\x7b' ∉ t.entity.toList
  partitionKey : ∀ s ∈ t.partitionKey, Text.IsItem s
  clusteringKey : ∀ s ∈ t.clusteringKey, Text.IsItem s

theorem TableReport.toList_describe (t : TableReport) :
    t.describe.toList = t.entity.toList ++ '\x7b' :: ([',', ' '].intercalate
      (t.partitionKey.map String.toList) ++ '\x7d' :: '[' :: ([',', ' '].intercalate
        (t.clusteringKey.map String.toList) ++ [']'])) := by
  rw [describe]
  simp only [String.toList_append, String.toList_intercalate, List.append_assoc]
  rfl

/-- The items of a list can be read off the text that joins them. -/
theorem Text.eq_of_joined_items_eq {xs ys : List String} (hx : ∀ x ∈ xs, IsItem x)
    (hy : ∀ y ∈ ys, IsItem y)
    (h : [',', ' '].intercalate (xs.map String.toList)
      = [',', ' '].intercalate (ys.map String.toList)) : xs = ys := by
  refine List.map_injective_iff.mpr (fun s t => String.toList_inj.mp)
    (eq_of_intercalate_eq_of_ne_nil ?_ ?_ h)
  · simpa only [List.forall_mem_map] using fun x hmem => ⟨(hx x hmem).ne_nil, (hx x hmem).comma⟩
  · simpa only [List.forall_mem_map] using fun y hmem => ⟨(hy y hmem).ne_nil, (hy y hmem).comma⟩

/-- The text of a table tells its names. -/
theorem TableReport.eq_of_describe_eq {t t' : TableReport} (ht : t.IsPlain) (ht' : t'.IsPlain)
    (h : t.describe = t'.describe) :
    t.entity = t'.entity ∧ t.partitionKey = t'.partitionKey ∧
      t.clusteringKey = t'.clusteringKey := by
  have hbrace : ∀ xs : List String, (∀ x ∈ xs, Text.IsItem x) →
      '\x7d' ∉ [',', ' '].intercalate (xs.map String.toList) := by
    intro xs hxs hmem
    rcases Text.mem_intercalate hmem with hmem | ⟨_, hpart, hmem⟩
    · exact absurd hmem (by decide)
    · obtain ⟨x, hx, rfl⟩ := List.mem_map.mp hpart
      exact (hxs x hx).brace hmem
  rw [← String.toList_inj, toList_describe, toList_describe] at h
  obtain ⟨hentity, h⟩ := Text.eq_of_append_cons_eq ht.entity ht'.entity h
  obtain ⟨hpartition, h⟩ := Text.eq_of_append_cons_eq (hbrace _ ht.partitionKey)
    (hbrace _ ht'.partitionKey) h
  have hclustering := List.append_cancel_right (List.cons.inj h).2
  exact ⟨String.toList_inj.mp hentity,
    Text.eq_of_joined_items_eq ht.partitionKey ht'.partitionKey hpartition,
    Text.eq_of_joined_items_eq ht.clusteringKey ht'.clusteringKey hclustering⟩

/-! ### Tables of a searched workload -/

section Tables

variable {α : Type} {decls : Declarations α} {m : Model α} (hbuild : decls.build = .ok m)
  (hplain : m.catalog.IsPlain)
include hbuild hplain

/-- The names along a path of the catalog are plain. -/
theorem isPlain_of_mem_segments {p : Path} (hroot : p.root < m.catalog.entities.length)
    (hp : m.catalog.IsPath p) {name : String} (hname : name ∈ p.segments) : Text.IsPlain name := by
  have hcatalog := (Declarations.build_eq_ok_iff.mp hbuild).1
  obtain ⟨e, he, f, hf⟩ := Catalog.exists_field_of_walk (isClosed_of_buildCatalog hcatalog)
    (Catalog.entity_mem hroot) hp name hname
  have hplain := hplain.field e he f (SortedMap.mem_values_of_find? hf)
  rwa [name_of_field? hcatalog he hf] at hplain

/-- The report on a table that some level is offered is plain. -/
theorem isPlain_ofTable {key : TableKey} (hkey : m.OffersKey key) (selected : Bool) :
    (Report.ofTable m.catalog key selected).IsPlain := by
  have hlt := hkey.root_lt hbuild
  have hcatalog := (Declarations.build_eq_ok_iff.mp hbuild).1
  have hnamed : ∀ p, m.catalog.IsNamed key.root p → Text.IsItem p.text := fun p hp =>
    Path.isItem_text hp.isDotted.ne_nil fun name hname =>
      isPlain_of_mem_segments hbuild hplain (hp.root_eq ▸ hlt) hp.isPath hname
  refine ⟨fun hmem => ?_, fun s hs => ?_, fun s hs => ?_⟩
  · have hchar := (hplain.entity _ (Catalog.entity_mem hlt)).2 _ hmem
    exact hchar.1 (by decide)
  · obtain ⟨p, hp, rfl⟩ := List.mem_map.mp hs
    exact hnamed p (hkey.isNamed_of_mem_partitionKey hbuild hp)
  · obtain ⟨t, ht, rfl⟩ := List.mem_map.mp hs
    refine OrderTerm.isItem_text ?_
    rcases hkey.eq_identifier_or_isNamed hbuild ht with rfl | hp
    · -- the identifier is a field of the entity
      obtain ⟨f, hf, hname⟩ :=
        exists_identifier_of_buildCatalog hcatalog (Catalog.entity_mem hlt)
      have hmem : f ∈ (m.catalog.entity key.root).fields.values :=
        List.mem_of_mem_filter (hf ▸ List.mem_singleton_self f)
      refine Path.isItem_text (List.cons_ne_nil _ _) fun name hsegment => ?_
      rw [List.mem_singleton.mp hsegment, ← hname]
      exact hplain.field _ (Catalog.entity_mem hlt) f hmem
    · exact hnamed _ hp

variable [Scalar α] {rowScanCost : α} {prune : Bool} {memo : Memo α} {w : Workload}
  (hw : (m.search rowScanCost prune memo).1 = .ok w) {costs : List α} {o : Outcome α}
  (ho : o.tables = collapse w.candidates)
include hw ho

/-- No two tables of a report have the same text. -/
theorem pairwise_describe_ne :
    (Report.build m w costs o).tables.Pairwise fun t t' => t.describe ≠ t'.describe := by
  rw [Report.tables_build, List.pairwise_map]
  refine List.pairwise_lt_range.imp_of_mem fun {s t} hs ht hst heq => ?_
  rw [ho, List.mem_range] at hs ht
  have hs' := Model.offersKey_of_lt hw hs
  have ht' := Model.offersKey_of_lt hw ht
  rw [ho] at heq
  obtain ⟨hentity, hpartition, hclustering⟩ := TableReport.eq_of_describe_eq
    (isPlain_ofTable hbuild hplain hs' _) (isPlain_ofTable hbuild hplain ht' _) heq
  have hreport : Report.ofTable m.catalog ((collapse w.candidates).table s).key true
      = Report.ofTable m.catalog ((collapse w.candidates).table t).key true :=
    (TableReport.mk.injEq ..).mpr ⟨hentity, hpartition, hclustering, rfl⟩
  have hsame := eq_of_compare_key hs ht (Model.compare_eq_of_report hbuild hs' ht' hreport)
  exact absurd hst (hsame ▸ Nat.lt_irrefl s)

end Tables

/-! ### Outcomes -/

/-- An outcome that keeps to the tables of a workload: it builds some of them, among these those of
all candidates it assigns, and no more than an insertion may touch. -/
structure Outcome.KeepsTo {α : Type} (o : Outcome α) (m : Model α) (w : Workload) : Prop where
  tables_eq : o.tables = collapse w.candidates
  exists_filter : ∃ built : ℕ → Bool, o.selectedTables = (List.range o.tables.size).filter built
  linked : ∀ c ∈ o.selectedCandidates.toList,
    c < w.candidates.length ∧ o.tables.home c ∈ o.selectedTables
  fanout : ∀ mu ∈ m.mutations, mu.kind = .insert →
    (∃ t < o.tables.size, (o.tables.table t).key.root = mu.entity) →
    (o.selectedTables.countP fun t => (o.tables.table t).key.root == mu.entity) ≤ mu.maxTables

/-- What is selected with a tolerance that is small against the number of variables keeps to the
tables of the workload. -/
theorem Model.keepsTo_of_select {σ : Type} {m : Model Exact} {rowScanCost : Exact} {prune : Bool}
    {memo : Memo Exact} {w : Workload} (hw : (m.search rowScanCost prune memo).1 = .ok w)
    {costs : List Exact} {costMargin : Exact} {t : ℚ} (ht : 0 ≤ t)
    (hN : ((m.formulate w costs).program.names.length + 1 : ℚ) * t < 1) {solver : Solver σ Exact}
    {state : σ} {o : Outcome Exact}
    (h : (m.select w costs costMargin (finite t) solver state).1 = .ok o) : o.KeepsTo m w := by
  have hlevels := isLeveled_siblingSets hw
  cases hne : w.isEmpty with
  | true =>
    rw [select, if_pos hne] at h
    obtain rfl := Except.ok.inj h
    have hnil : w.candidates = [] := List.isEmpty_iff.mp hne
    refine ⟨by rw [hnil]; rfl, ⟨fun _ => true, rfl⟩, fun c hc => absurd hc List.not_mem_nil, ?_⟩
    exact fun _ _ _ _ => Nat.zero_le _
  | false =>
    obtain ⟨phase1, phase2, -, hv₂, rfl⟩ := exists_of_select_eq_ok hne h
    obtain ⟨qs, hqs, hsel⟩ :=
      exists_isSelection_of_verify hlevels hne ht hN (verify_of_countTables hv₂)
    obtain ⟨choice, -, hused, heq⟩ := exists_choice_of_serves m costs hqs hlevels hsel.toServes
    refine ⟨rfl, ⟨_, rfl⟩, fun c hc => ?_, fun mu hmu hins hread => ?_⟩
    · have hc : c ∈ ((m.formulate w costs).usedCandidates w costs phase2.1).toList := hc
      rw [heq, SortedSet.mem_toList_ofList] at hc
      exact ⟨hsel.candidate_lt c (hused c hc),
        (mem_builtTables m costs hqs).mpr (hsel.linked c (hused c hc))⟩
    · obtain ⟨t', ht', hroot⟩ := hread
      have hex := rootedAt_ne_nil_iff.mp (List.ne_nil_of_mem (mem_rootedAt.mpr ⟨ht', hroot⟩))
      exact (countP_builtTables m costs (w := w) hqs mu.entity).trans_le
        (hsel.fanout mu hmu hins hex)

/-! ### Coherent reports -/

/-- What the entry of a mutation has to say, given the tables of the report. -/
structure MutationReport.Describes {α : Type} (r : MutationReport) (m : Model α) (mu : Mutation)
    (tables : List TableReport) : Prop where
  mutation_eq : r.mutation = mu.name
  entity_eq : r.entity = (m.entity mu.entity).name
  kind_eq : r.kind = mu.kind.text
  maxTables_eq : r.maxTables = mu.maxTables
  tablesTouched_eq : r.tablesTouched = tables.countP fun t => t.selected && t.entity == r.entity
  /-- An insertion into an entity that has tables keeps its bound. -/
  le_maxTables : mu.kind = .insert → (∃ t ∈ tables, t.entity = r.entity) →
    r.tablesTouched ≤ r.maxTables

/-- The parts of a report agree on its tables. -/
structure Report.IsCoherent {α : Type} (r : Report α) (m : Model α) : Prop where
  tableCount_eq : r.tableCount = r.tables.countP TableReport.selected
  /-- The table of an assignment is the only listed one with its text, and is built. -/
  assigned : ∀ q ∈ r.queries, ∀ a ∈ q.indexes, ∃ t : TableReport,
    r.tables.filter (fun t => t.describe == a.table) = [t] ∧ t.selected = true
  mutations : List.Forall₂ (fun mu c => c.Describes m mu r.tables) m.mutations r.mutations

section Coherent

variable {α : Type} [Scalar α] {decls : Declarations α} {m : Model α}
  (hbuild : decls.build = .ok m) {w : Workload} {costs : List α} {o : Outcome α}
  (h : o.KeepsTo m w)

omit [Scalar α] in
include h in
theorem filter_contains_selectedTables :
    (List.range o.tables.size).filter o.selectedTables.contains = o.selectedTables := by
  obtain ⟨built, heq⟩ := h.exists_filter
  rw [heq]
  refine List.filter_congr fun t ht => ?_
  rw [Bool.eq_iff_iff, List.contains_iff_mem, List.mem_filter]
  exact and_iff_right ht

include h in
theorem tableCount_build :
    (Report.build m w costs o).tableCount
      = (Report.build m w costs o).tables.countP TableReport.selected := by
  rw [Report.tables_build, List.countP_map, List.countP_eq_length_filter]
  have hfilter := filter_contains_selectedTables h
  exact (congrArg List.length hfilter).symm

include hbuild h in
/-- The entry of a mutation counts the built tables under the name of its entity. -/
theorem describes_ofMutation {rowScanCost : α} {prune : Bool} {memo : Memo α}
    (hw : (m.search rowScanCost prune memo).1 = .ok w) {mu : Mutation} (hmu : mu ∈ m.mutations) :
    (Report.ofMutation m.catalog o mu).Describes m mu (Report.build m w costs o).tables := by
  have hcatalog := (Declarations.build_eq_ok_iff.mp hbuild).1
  have hlt := Declarations.entity_lt_of_mem_mutations hbuild hmu
  -- an entity is known by its name
  have hname : ∀ t < o.tables.size, (m.catalog.entity (o.tables.table t).key.root).name
      = (m.catalog.entity mu.entity).name ↔ (o.tables.table t).key.root = mu.entity := by
    intro t ht
    rw [h.tables_eq] at ht ⊢
    have hroot := (Model.offersKey_of_lt hw ht).root_lt hbuild
    refine ⟨fun heq => ?_, fun heq => by rw [heq]⟩
    rw [← position_of_buildCatalog hcatalog hroot, heq, position_of_buildCatalog hcatalog hlt]
  have htouched : (Report.ofMutation m.catalog o mu).tablesTouched
      = o.selectedTables.countP fun t => (o.tables.table t).key.root == mu.entity := by
    conv_rhs => rw [← filter_contains_selectedTables h]
    rw [List.countP_filter, List.countP_eq_length_filter, Report.ofMutation, rootedAt,
      List.filter_filter]
    simp only [Bool.and_comm]
  refine ⟨rfl, rfl, rfl, rfl, ?_, fun hins hlisted => ?_⟩
  · rw [htouched, Report.tables_build, List.countP_map]
    conv_lhs => rw [← filter_contains_selectedTables h]
    rw [List.countP_filter]
    refine List.countP_congr fun t ht => ?_
    have hiff := hname t (List.mem_range.mp ht)
    simp only [Function.comp, Report.ofTable, Report.ofMutation, Bool.and_eq_true, beq_iff_eq]
    rw [hiff, and_comm]
  · obtain ⟨t, ht, hentity⟩ := hlisted
    rw [Report.tables_build] at ht
    obtain ⟨i, hi, rfl⟩ := List.mem_map.mp ht
    have hi := List.mem_range.mp hi
    rw [htouched]
    exact h.fanout mu hmu hins ⟨i, hi, (hname i hi).mp hentity⟩

include hbuild h in
/-- The report on an outcome that keeps to the tables of a workload is coherent. -/
theorem isCoherent_build (hplain : m.catalog.IsPlain) {rowScanCost : α} {prune : Bool}
    {memo : Memo α} (hw : (m.search rowScanCost prune memo).1 = .ok w) :
    (Report.build m w costs o).IsCoherent m := by
  refine ⟨tableCount_build h, fun q hq a ha => ?_, ?_⟩
  · obtain ⟨k, hk, rfl⟩ := List.mem_mapIdx.mp hq
    obtain ⟨c, hc, rfl⟩ := List.mem_map.mp ha
    have hselected := (List.mem_filter.mp hc).2
    rw [SortedSet.contains_eq_true_iff] at hselected
    obtain ⟨c', hc', heq⟩ := hselected
    obtain rfl := Nat.compare_eq_eq.mp heq
    obtain ⟨hlt, hbuilt⟩ := h.linked c hc'
    rw [h.tables_eq] at hbuilt
    have hlisted : ∃ t,
        (Report.build m w costs o).tables[(collapse w.candidates).home c]? = some t ∧
        t.selected = true ∧ t.describe = (w.candidate c).key.describe m.catalog :=
      exists_tables_of_built h.tables_eq hlt hbuilt
    obtain ⟨t, ht, hmarked, hdescribe⟩ := hlisted
    refine ⟨t, ?_, hmarked⟩
    rw [← hdescribe]
    exact filter_eq_singleton_of_pairwise (pairwise_describe_ne hbuild hplain hw h.tables_eq)
      (List.mem_of_getElem? ht)
  · show List.Forall₂ _ m.mutations (m.mutations.map (Report.ofMutation m.catalog o))
    rw [List.forall₂_map_right_iff, List.forall₂_same]
    exact fun mu hmu => describes_ofMutation hbuild h hw hmu

end Coherent

/-- **The parts of a report agree on its tables.**  If the names of entities and fields are plain
and the tolerance is small against the number of variables, then whatever the solver does, a report
counts the tables that it marks, the table of each assignment is the only one of its text and is
built, and each mutation touches the built tables of its entity, no more of them than it may. -/
theorem Model.plan_isCoherent {σ : Type} {decls : Declarations Exact} {m : Model Exact}
    (hbuild : decls.build = .ok m) (hplain : m.catalog.IsPlain) {s : Settings Exact} {w : Workload}
    {costs : List Exact}
    (hpriced : m.pricedWorkload s.rowScanCost s.pruneOverLatency = .ok (w, costs))
    (hN : lt (ofNat ((m.formulate w costs).program.names.length + 1) * s.verifyTolerance) one
      = true)
    {solver : Solver σ Exact} {state : σ} {r : Report Exact}
    (h : (m.plan s solver state).1 = .ok r) : r.IsCoherent m := by
  have hw := search_of_pricedWorkload hpriced
  obtain ⟨hvalid, w', costs', o, hpriced', hselect, rfl⟩ := plan_eq_ok_iff.mp h
  obtain ⟨rfl, rfl⟩ := Prod.mk.inj (Except.ok.inj (hpriced.symm.trans hpriced'))
  obtain ⟨t, ht, htolerance⟩ := (Settings.tolerance_of_validate hvalid).resolve_right fun hinf => by
    rw [hinf, Exact.ofNat_mul_posInf (Nat.succ_pos _)] at hN
    exact absurd hN Bool.false_ne_true
  rw [htolerance, Exact.ofNat_eq, Exact.finite_mul_finite, Exact.one_eq, Exact.lt_finite,
    decide_eq_true_eq] at hN
  push_cast at hN
  rw [htolerance] at hselect
  exact isCoherent_build hbuild (keepsTo_of_select hw ht.le hN hselect) hplain hw

/-- The report on a forum, of which every table is built, is coherent. -/
theorem Model.plan_isCoherent_forum :
    ∃ r, (Forum.model.plan Forum.settings Forum.allSet ()).1 = .ok r ∧
      r.IsCoherent Forum.model := by
  have hN : lt (ofNat ((Forum.model.formulate Forum.workload Forum.costs).program.names.length + 1)
      * Forum.settings.verifyTolerance) one = true := by decide +kernel
  have hplain : Forum.model.catalog.IsPlain := ⟨by decide +kernel, by decide +kernel⟩
  obtain ⟨r, hr⟩ := Forum.exists_plan_eq_ok
  have hbuild : Forum.declarations.build = .ok Forum.model := rfl
  exact ⟨r, hr, Model.plan_isCoherent hbuild hplain Forum.pricedWorkload_eq hN hr⟩

end Keyspace
