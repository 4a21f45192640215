import Keyspace.Proofs.Cost.Finite
import Keyspace.Proofs.Cost.Order
import Keyspace.Proofs.Selection.Choice

/-!
# Free sorts

A read sorts no rows if the clustering key delivers the requested order (`delivers_of_sortRows`).
Open directions of a key deliver any direction, so that one table may be free to sort for requests
that contradict each other.  `Model.exists_resolution_iff` says for which readers of a table the
open directions can be settled once: those of which no two request opposite directions of an open
term.
-/

namespace Keyspace

open Scalar OrderTerm Tables

/-! ### What a free sort delivers -/

section Delivers

/-- A fully matched request is delivered by the key. -/
theorem delivers_of_length_matchedTerms :
    ∀ {physical requested : List OrderTerm},
      requested.length = (Model.matchedTerms physical requested).length →
        Delivers physical requested := by
  intro physical
  induction physical with
  | nil =>
    intro requested h
    obtain rfl := List.length_eq_zero_iff.mp h
    exact fun i r hr => absurd hr (by simp)
  | cons p ps ih =>
    intro requested h
    cases requested with
    | nil => exact fun i r hr => absurd hr (by simp)
    | cons r rs =>
      rw [Model.matchedTerms] at h
      split_ifs at h with hsat
      · have htail := ih (Nat.succ.inj h)
        intro i r' hr'
        cases i with
        | zero =>
          obtain rfl := Option.some.inj hr'
          exact ⟨p, rfl, hsat⟩
        | succ i => exact htail i r' hr'

/-- Rows that share a value are some rows. -/
theorem rowsPerPartition_ne_zero {m : Model Exact} {id : EntityId}
    (hrows : 0 < (m.entity id).maxRows) (paths : PathSet) :
    m.rowsPerPartition id paths ≠ .ok zero := by
  intro h
  obtain ⟨q, hq, -, hzero⟩ := Model.exists_rowsPerPartition h
  obtain rfl := Exact.finite.inj hzero
  rcases hq with hq | hq
  · exact hrows.ne (Nat.cast_eq_zero.mp hq.symm).symm
  · exact absurd hq (by norm_num)

/-- A free sort needs the whole request delivered. -/
theorem delivers_of_sortRows {m : Model Exact} {c : Candidate}
    (hrows : 0 < (m.entity c.key.root).maxRows) (h : m.sortRows c = .ok zero) :
    Delivers c.key.clusteringKey c.clause.order := by
  unfold Model.sortRows at h
  dsimp only at h
  split_ifs at h with hlength
  · exact delivers_of_length_matchedTerms hlength
  · exact absurd h (rowsPerPartition_ne_zero hrows _)

end Delivers

/-- Keys that compare equal deliver the same requests. -/
theorem delivers_of_compare_eq {key key' order : List OrderTerm} (h : Delivers key order)
    (hcompare : compare key key' = .eq) : Delivers key' order := by
  have hsame := forall₂_of_compare_eq hcompare
  intro i r hr
  obtain ⟨k, hk, hsat⟩ := h i r hr
  obtain ⟨hi, rfl⟩ := List.getElem?_eq_some_iff.mp hk
  have hi' : i < key'.length := hsame.length_eq ▸ hi
  obtain ⟨hwalk, hdirection⟩ := hsame.get hi hi'
  refine ⟨key'[i], List.getElem?_eq_getElem hi', ?_⟩
  rw [satisfies_eq_true_iff] at hsat ⊢
  rw [List.get_eq_getElem, List.get_eq_getElem] at hwalk hdirection
  rwa [← hwalk, ← hdirection]

/-! ### Readers of one table -/

section Readers

variable {decls : Declarations Exact} {m : Model Exact} {rowScanCost : Exact} {prune : Bool}
  {memo : Memo Exact} {w : Workload}

/-- A reader whose sort is free has its request delivered by the key of the table. -/
theorem delivers_of_mem_members (hbuild : decls.build = .ok m)
    (hw : (m.search rowScanCost prune memo).1 = .ok w) {t c : ℕ}
    (hc : c ∈ ((collapse w.candidates).table t).members)
    (hsort : m.sortRows (w.candidate c) = .ok zero) :
    Delivers ((collapse w.candidates).table t).key.clusteringKey (w.candidate c).clause.order := by
  obtain ⟨hlt, hcompare⟩ := compare_key_of_mem_members hc
  obtain ⟨l, hl, hmem⟩ := Model.exists_level_of_lt hw hlt
  obtain ⟨partitionKey, clusteringKey, heq⟩ := m.eq_candidate_of_mem hmem
  have hrows : 0 < (m.entity (w.candidate c).key.root).maxRows := by
    rw [heq]
    exact Declarations.maxRows_pos_of_build hbuild hl
  refine delivers_of_compare_eq (delivers_of_sortRows hrows hsort) ?_
  rw [Workload.candidate_eq_getElem hlt]
  exact TableKey.compare_clusteringKey hcompare

/-- **When a free sort is free for all readers of a table at once**: there is one reading of the
table's clustering key that sorts rows for all of them, if and only if no two of them request
opposite directions of an open term of the key. -/
theorem Model.exists_resolution_iff (hbuild : decls.build = .ok m)
    (hw : (m.search rowScanCost prune memo).1 = .ok w) (t : ℕ) {readers : Set ℕ}
    (hreaders : ∀ c ∈ readers, c ∈ ((collapse w.candidates).table t).members ∧
      m.sortRows (w.candidate c) = .ok zero) :
    (∃ resolved, Reads ((collapse w.candidates).table t).key.clusteringKey resolved ∧
      ∀ c ∈ readers, ∀ (V : Type) [LinearOrder V] (rows : List (TableRow V)),
        rows.Pairwise (TableRow.Precedes resolved) →
          SortedBy (w.candidate c).clause.order rows) ↔
      ¬ ∃ i, OpenAt ((collapse w.candidates).table t).key.clusteringKey i ∧
        (∃ c ∈ readers, Requests (w.candidate c).clause.order i .asc) ∧
        ∃ c ∈ readers, Requests (w.candidate c).clause.order i .desc :=
  exists_reading_iff fun c hc =>
    delivers_of_mem_members hbuild hw (hreaders c hc).1 (hreaders c hc).2

end Readers

/-! ### A table without a resolution -/

/-- The sorts of all readers of the table with the open direction are free, those of the ascending
and the descending one as well, but no resolution serves both. -/
theorem Log.not_exists_resolution :
    (Log.declarations [.any, .asc, .desc]).build = .ok (Log.model [.any, .asc, .desc]) ∧
    ((Log.model [.any, .asc, .desc]).search (.finite 1) false {}).1
      = .ok (Log.workload [.any, .asc, .desc]) ∧
    2 < (collapse (Log.workload [.any, .asc, .desc]).candidates).size ∧
    ¬ ∃ resolved,
      Reads ((collapse (Log.workload [.any, .asc, .desc]).candidates).table 2).key.clusteringKey
        resolved ∧
      ∀ c ∈ ((collapse (Log.workload [.any, .asc, .desc]).candidates).table 2).members,
        (Log.model [.any, .asc, .desc]).sortRows ((Log.workload [.any, .asc, .desc]).candidate c)
          = .ok zero →
        ∀ (V : Type) [LinearOrder V] (rows : List (TableRow V)),
          rows.Pairwise (TableRow.Precedes resolved) →
            SortedBy ((Log.workload [.any, .asc, .desc]).candidate c).clause.order rows := by
  -- the three readers are served at once only if the directions at the first position agree
  refine ⟨rfl, rfl, by decide, ?_⟩
  rintro ⟨resolved, hreads, hsorts⟩
  have hdelivers : ∀ c ∈ ({2, 5, 8} : Set ℕ),
      Delivers ((collapse (Log.workload [.any, .asc, .desc]).candidates).table 2).key.clusteringKey
        ((Log.workload [.any, .asc, .desc]).candidate c).clause.order := by
    intro c hc
    rcases hc with rfl | rfl | rfl <;> exact delivers_of_length_matchedTerms (by decide)
  refine (exists_reading_iff hdelivers).mp ⟨resolved, hreads, fun c hc => ?_⟩
    ⟨0, ⟨_, rfl, rfl, by simp⟩, ⟨5, by simp, _, rfl, rfl⟩, 8, by simp, _, rfl, rfl⟩
  rcases hc with rfl | rfl | rfl
  · exact hsorts 2 (by decide) rfl
  · exact hsorts 5 (by decide) rfl
  · exact hsorts 8 (by decide) rfl

/-- Without the descending reader the open direction of the same table can be settled. -/
theorem Model.exists_resolution_log :
    ∃ resolved,
      Reads ((collapse (Log.workload [.any, .asc, .desc]).candidates).table 2).key.clusteringKey
        resolved ∧
      ∀ c ∈ ({2, 5} : Set ℕ), ∀ (V : Type) [LinearOrder V] (rows : List (TableRow V)),
        rows.Pairwise (TableRow.Precedes resolved) →
          SortedBy ((Log.workload [.any, .asc, .desc]).candidate c).clause.order rows := by
  have hbuild : (Log.declarations [.any, .asc, .desc]).build
      = .ok (Log.model [.any, .asc, .desc]) := rfl
  have hw : ((Log.model [.any, .asc, .desc]).search (.finite 1) false {}).1
      = .ok (Log.workload [.any, .asc, .desc]) := rfl
  refine (Model.exists_resolution_iff hbuild hw 2 ?_).mpr ?_
  · rintro c (rfl | rfl)
    · exact ⟨by decide, rfl⟩
    · exact ⟨by decide, rfl⟩
  · rintro ⟨i, -, -, c, hc, r, hr, hdesc⟩
    have hmem := List.mem_of_getElem? hr
    rcases hc with rfl | rfl
    · obtain rfl : r = ⟨⟨0, ["at"], true⟩, .any⟩ := List.mem_singleton.mp hmem
      exact absurd hdesc (by decide)
    · obtain rfl : r = ⟨⟨0, ["at"], true⟩, .asc⟩ := List.mem_singleton.mp hmem
      exact absurd hdesc (by decide)

end Keyspace
