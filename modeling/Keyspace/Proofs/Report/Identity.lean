import Keyspace.Proofs.Candidate.Naming
import Keyspace.Proofs.Json.Reader
import Keyspace.Proofs.Selection.Collapse
import Keyspace.Report.Basic

/-!
# The text that is hashed

The fingerprint of a report is the hash of one text, the identities of the built tables as JSON.
This text loses nothing: the reports on the tables can be read back from it
(`identityText_injective`), and the report on a table tells its key (`Model.compare_eq_of_report`).
So different selections of the tables of one workload are hashed from different texts
(`Model.identityText_eq_iff`).
-/

namespace Keyspace

open Tables

/-! ### Reports as JSON -/

theorem Json.isReadable_texts (values : List String) : (Json.texts values).IsReadable := by
  refine .array fun item hitem => ?_
  obtain ⟨value, -, rfl⟩ := List.mem_map.mp hitem
  exact .text value

theorem Json.texts_injective : Function.Injective Json.texts := by
  intro a b h
  have htext : Function.Injective Json.text := fun s t h => Json.text.inj h
  exact List.map_injective_iff.mpr htext (Json.array.inj h)

namespace TableReport

theorem isReadable_toJson (t : TableReport) : t.toJson.IsReadable := by
  refine .object fun m hm => ?_
  simp only [List.mem_cons, List.not_mem_nil, or_false] at hm
  rcases hm with rfl | rfl | rfl | rfl
  · exact .text _
  · exact Json.isReadable_texts _
  · exact Json.isReadable_texts _
  · exact .bool _

theorem toJson_injective : Function.Injective toJson := by
  intro s t h
  have hmembers := Json.object.inj h
  simp only [List.cons.injEq, Prod.mk.injEq, true_and, and_true] at hmembers
  obtain ⟨hentity, hpartition, hclustering, hselected⟩ := hmembers
  cases s
  cases t
  rw [TableReport.mk.injEq]
  exact ⟨Json.text.inj hentity, Json.texts_injective hpartition, Json.texts_injective hclustering,
    Json.bool.inj hselected⟩

end TableReport

/-- The reports on tables can be read back from the text that is hashed. -/
theorem identityText_injective : Function.Injective identityText := by
  intro ts ts' h
  have hreadable : ∀ ts : List TableReport,
      (Json.array (ts.map TableReport.toJson)).IsReadable := by
    refine fun ts => .array fun item hitem => ?_
    obtain ⟨t, -, rfl⟩ := List.mem_map.mp hitem
    exact t.isReadable_toJson
  have harray := Json.eq_of_compact_eq (hreadable ts) (hreadable ts') h
  exact List.map_injective_iff.mpr TableReport.toJson_injective (Json.array.inj harray)

/-! ### Tables to build -/

section Built

variable {α : Type}

/-- The keys of the tables to build, in the order of the tables. -/
def Outcome.builtKeys (o : Outcome α) : List TableKey :=
  ((List.range o.tables.size).filter o.selectedTables.contains).map fun t => (o.tables.table t).key

theorem Outcome.mem_builtKeys_iff {o : Outcome α} {key : TableKey} :
    key ∈ o.builtKeys ↔
      ∃ t < o.tables.size, t ∈ o.selectedTables ∧ (o.tables.table t).key = key := by
  simp [builtKeys, and_assoc]

variable [Scalar α] {m : Model α} {w : Workload} {costs : List α} {o : Outcome α}

/-- A report lists all tables, and marks those to build. -/
theorem Report.tables_build :
    (Report.build m w costs o).tables = (List.range o.tables.size).map fun t =>
      ofTable m.catalog (o.tables.table t).key (o.selectedTables.contains t) := by
  refine List.ext_getElem (by simp [Report.build, Report.tablesOf, size]) fun t ht _ => ?_
  have hlt : t < o.tables.tables.length := by
    simpa [Report.build, Report.tablesOf] using ht
  simp [Report.build, Report.tablesOf, table, List.getElem?_eq_getElem hlt]

theorem Report.selectedTables_build :
    (Report.build m w costs o).selectedTables
      = o.builtKeys.map fun key => ofTable m.catalog key true := by
  rw [selectedTables, tables_build, List.filter_map, Outcome.builtKeys, List.map_map]
  refine List.map_congr_left fun t ht => ?_
  have hmarked : o.selectedTables.contains t = true := (List.mem_filter.mp ht).2
  rw [Function.comp, hmarked]

end Built

/-! ### Keys of a workload -/

section Keys

variable {α : Type} {m : Model α}

/-- The table of a searched workload has a key that some level is offered. -/
theorem Model.offersKey_of_lt [Scalar α] {rowScanCost : α} {prune : Bool} {memo : Memo α}
    {w : Workload}
    (hw : (m.search rowScanCost prune memo).1 = .ok w) {t : ℕ}
    (ht : t < (collapse w.candidates).size) :
    m.OffersKey ((collapse w.candidates).table t).key := by
  have hlt : t < (collapse w.candidates).tables.length := ht
  have hmem : ((collapse w.candidates).table t).key
      ∈ (collapse w.candidates).tables.map Table.key := by
    rw [table, List.getD_eq_getElem _ _ hlt]
    exact List.mem_map_of_mem (List.getElem_mem hlt)
  rw [keys_collapse] at hmem
  obtain ⟨c, hc, hkey⟩ := List.mem_map.mp (SortedSet.mem_of_mem_toList_ofList hmem)
  obtain ⟨i, hi, rfl⟩ := List.getElem_of_mem hc
  obtain ⟨l, hl, hmem⟩ := exists_level_of_lt hw hi
  rw [Workload.candidate_eq_getElem hi] at hmem
  exact ⟨l, hl, _, hmem, hkey⟩

/-- The report on a table tells its key. -/
theorem Model.compare_eq_of_report {decls : Declarations α} (hbuild : decls.build = .ok m)
    {a b : TableKey} (ha : m.OffersKey a) (hb : m.OffersKey b) {x y : Bool}
    (h : Report.ofTable m.catalog a x = Report.ofTable m.catalog b y) :
    compare a b = .eq := by
  obtain ⟨hentity, hpartition, hclustering, -⟩ := TableReport.mk.inj h
  have hcatalog := (Declarations.build_eq_ok_iff.mp hbuild).1
  have hroot : a.root = b.root := by
    rw [← position_of_buildCatalog hcatalog (ha.root_lt hbuild), hentity,
      position_of_buildCatalog hcatalog (hb.root_lt hbuild)]
  exact compare_eq_of_texts_eq hbuild ha hb hroot hpartition hclustering

/-- A table that one selection builds is built by every other with the same reports. -/
theorem Model.mem_selectedTables_of_reports_eq [Scalar α] {decls : Declarations α}
    (hbuild : decls.build = .ok m) {rowScanCost : α} {prune : Bool} {memo : Memo α} {w : Workload}
    (hw : (m.search rowScanCost prune memo).1 = .ok w) {o o' : Outcome α}
    (ho : o.tables = collapse w.candidates) (ho' : o'.tables = collapse w.candidates)
    (h : o.builtKeys.map (fun key => Report.ofTable m.catalog key true)
      = o'.builtKeys.map fun key => Report.ofTable m.catalog key true)
    {t : ℕ} (ht : t < (collapse w.candidates).size) (hmem : t ∈ o.selectedTables) :
    t ∈ o'.selectedTables := by
  have hkey : (o.tables.table t).key ∈ o.builtKeys :=
    Outcome.mem_builtKeys_iff.mpr ⟨t, ho ▸ ht, hmem, rfl⟩
  have hreport := List.mem_map_of_mem (f := fun key => Report.ofTable m.catalog key true) hkey
  rw [h] at hreport
  obtain ⟨key, hkey', hreport⟩ := List.mem_map.mp hreport
  obtain ⟨t', ht', hmem', rfl⟩ := Outcome.mem_builtKeys_iff.mp hkey'
  rw [ho] at hreport
  rw [ho'] at hreport ht'
  have heq := compare_eq_of_report hbuild (offersKey_of_lt hw ht') (offersKey_of_lt hw ht) hreport
  exact eq_of_compare_key ht' ht heq ▸ hmem'

end Keys

/-- **Different selections are hashed from different texts.**  The fingerprint of a report is the
hash of a text, and two selections of the tables of one searched workload are hashed from the same
text only if they build the same tables. -/
theorem Model.identityText_eq_iff {α : Type} [Scalar α] {decls : Declarations α} {m : Model α}
    (hbuild : decls.build = .ok m) {rowScanCost : α} {prune : Bool} {memo : Memo α} {w : Workload}
    (hw : (m.search rowScanCost prune memo).1 = .ok w) {o o' : Outcome α}
    (ho : o.tables = collapse w.candidates) (ho' : o'.tables = collapse w.candidates)
    {costs costs' : List α} :
    (Report.build m w costs o).fingerprint
      = Digest.sha256Hex (identityText (Report.build m w costs o).selectedTables) ∧
    (Report.build m w costs' o').fingerprint
      = Digest.sha256Hex (identityText (Report.build m w costs' o').selectedTables) ∧
    (identityText (Report.build m w costs o).selectedTables
        = identityText (Report.build m w costs' o').selectedTables ↔
      ∀ t < (collapse w.candidates).size, t ∈ o.selectedTables ↔ t ∈ o'.selectedTables) := by
  refine ⟨rfl, rfl, ?_⟩
  rw [identityText_injective.eq_iff, Report.selectedTables_build, Report.selectedTables_build]
  constructor
  · exact fun h t ht =>
      ⟨mem_selectedTables_of_reports_eq hbuild hw ho ho' h ht,
        mem_selectedTables_of_reports_eq hbuild hw ho' ho h.symm ht⟩
  · intro h
    have hsame : (List.range o.tables.size).filter o.selectedTables.contains
        = (List.range o'.tables.size).filter o'.selectedTables.contains := by
      rw [ho, ho']
      refine List.filter_congr fun t ht => ?_
      rw [Bool.eq_iff_iff, List.contains_iff_mem, List.contains_iff_mem]
      exact h t (List.mem_range.mp ht)
    rw [Outcome.builtKeys, Outcome.builtKeys, hsame, ho, ho']

namespace Inbox

/-- The selection of some of the tables for an inbox. -/
def selection (tables : List ℕ) : Outcome Exact where
  tables := collapse workload.candidates
  selectedTables := tables
  phase1Cost := .finite 0
  phase2Cost := .finite 0

end Inbox

/-- Two of the four tables for an inbox differ in their partition keys alone, and are hashed from
different texts. -/
theorem Model.identityText_ne_inbox :
    ((collapse Inbox.workload.candidates).tables.map fun t => t.key.describe Inbox.model.catalog)
      = ["Message\x7b\x7d[folder ASC, at DESC, id DESC]", "Message\x7b\x7d[folder ASC, id DESC]",
        "Message\x7bfolder\x7d[folder ASC, at DESC, id DESC]",
        "Message\x7bfolder\x7d[folder ASC, id DESC]"] ∧
    identityText (Report.build Inbox.model Inbox.workload [] (Inbox.selection [1])).selectedTables
      ≠ identityText
        (Report.build Inbox.model Inbox.workload [] (Inbox.selection [3])).selectedTables := by
  have hbuild : Inbox.declarations.build = .ok Inbox.model := rfl
  have hw : (Inbox.model.search (.finite 1) false {}).1 = .ok Inbox.workload := rfl
  have ho : ∀ tables, (Inbox.selection tables).tables = collapse Inbox.workload.candidates :=
    fun _ => rfl
  refine ⟨rfl, fun htext => ?_⟩
  have hsame := (Model.identityText_eq_iff hbuild hw (ho [1]) (ho [3])).2.2.mp htext 1 (by decide)
  exact absurd (hsame.mp (List.mem_singleton_self _)) (by decide)

end Keyspace
