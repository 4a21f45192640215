import Mathlib.Data.Set.Basic
import Mathlib.Order.BooleanAlgebra.Set
import Keyspace.Proofs.Candidate.Enumerate
import Keyspace.Proofs.Cost.Order

/-!
# What promotion makes of a candidate

The terms that lead a clustering key narrow a read as long as their paths are predicates that are
still left to filter.  `Candidate.Promotes` says which these are: a leading part of the clustering
key with no path twice and none that is part of the partition key or no predicate, which cannot be
continued.  They and the partition key make up the effective key of the candidate, and what is left
to filter are the other predicates.

A read of the effective key is then a read of one slice of a partition.  Rows of a partition agree
on the partition key and are sorted by the clustering key, in one direction or the other for each of
its terms.  Those with given values on the effective key stand next to each other
(`Model.exists_promotes`), as whatever stands between two rows that agree on leading terms agrees
with them (`TableRow.eq_of_precedes`).

Paths count as equal if they walk the same way, so sets of paths are looked at through their walks.
-/

namespace Keyspace

/-! ### Walks -/

/-- The walks of some paths. -/
def walksOf (paths : List Path) : Set (EntityId × List String) := {w | ∃ p ∈ paths, p.walk = w}

section Walks

variable {s t : PathSet} {p : Path}

theorem contains_iff_mem_walksOf : s.contains p = true ↔ p.walk ∈ walksOf s.toList := by
  rw [SortedSet.contains_eq_true_iff]
  exact exists_congr fun q => and_congr_right fun _ => Path.compare_eq_iff.trans eq_comm

theorem walksOf_cons {paths : List Path} :
    walksOf (p :: paths) = insert p.walk (walksOf paths) := by
  ext w
  simp [walksOf, eq_comm]

theorem walksOf_erase : walksOf (s.erase p).toList = walksOf s.toList \ {p.walk} := by
  ext w
  simp only [walksOf, SortedSet.mem_toList_erase, Set.mem_ofPred_eq, Set.mem_sdiff,
    Set.mem_singleton_iff]
  constructor
  · rintro ⟨q, ⟨hq, hne⟩, rfl⟩
    exact ⟨⟨q, hq, rfl⟩, fun heq => hne (Path.compare_eq_iff.mpr heq.symm)⟩
  · rintro ⟨⟨q, hq, rfl⟩, hne⟩
    exact ⟨q, ⟨hq, fun heq => hne (Path.compare_eq_iff.mp heq).symm⟩, rfl⟩

theorem walksOf_difference :
    walksOf (s.difference t).toList = walksOf s.toList \ walksOf t.toList := by
  ext w
  simp only [walksOf, SortedSet.mem_toList_difference, Set.mem_ofPred_eq, Set.mem_sdiff]
  constructor
  · rintro ⟨q, ⟨hq, hne⟩, rfl⟩
    exact ⟨⟨q, hq, rfl⟩, fun ⟨r, hr, heq⟩ => hne r hr (Path.compare_eq_iff.mpr heq.symm)⟩
  · rintro ⟨⟨q, hq, rfl⟩, hne⟩
    exact ⟨q, ⟨hq, fun r hr heq => hne ⟨r, hr, (Path.compare_eq_iff.mp heq).symm⟩⟩, rfl⟩

theorem walksOf_ofList (paths : List Path) :
    walksOf (SortedSet.ofList paths).toList = walksOf paths := by
  ext w
  constructor
  · rintro ⟨q, hq, rfl⟩
    exact ⟨q, SortedSet.mem_of_mem_toList_ofList hq, rfl⟩
  · rintro ⟨q, hq, rfl⟩
    obtain ⟨r, hr, heq⟩ := SortedSet.exists_mem_toList_ofList hq
    exact ⟨r, hr, (Path.compare_eq_iff.mp heq).symm⟩

end Walks

/-! ### Rows in order -/

/-- The elements with a property stand next to each other. -/
def IsContiguous {β : Type} (P : β → Prop) (l : List β) : Prop :=
  ∃ before block after, l = before ++ (block ++ after) ∧ (∀ x ∈ block, P x) ∧
    (∀ x ∈ before, ¬ P x) ∧ ∀ x ∈ after, ¬ P x

/-- If whatever stands between two elements with a property has it as well, the elements with the
property stand next to each other. -/
theorem isContiguous_of_pairwise {β : Type} {R : β → β → Prop} {P : β → Prop} {l : List β}
    (hl : l.Pairwise R)
    (h : ∀ a ∈ l, ∀ b ∈ l, ∀ c ∈ l, R a b → R b c → P a → P c → P b) : IsContiguous P l := by
  induction l with
  | nil => exact ⟨[], [], [], rfl, by simp, by simp, by simp⟩
  | cons a l ih =>
    obtain ⟨hal, hl⟩ := List.pairwise_cons.mp hl
    obtain ⟨before, block, after, rfl, hblock, hbefore, hafter⟩ := ih hl fun b hb c hc d hd =>
      h b (List.mem_cons_of_mem a hb) c (List.mem_cons_of_mem a hc) d (List.mem_cons_of_mem a hd)
    by_cases ha : P a
    · cases before with
      | nil =>
        exact ⟨[], a :: block, after, rfl, List.forall_mem_cons.mpr ⟨ha, hblock⟩, hbefore, hafter⟩
      | cons b before =>
        -- behind `a` comes an element without the property, and so none with it
        have hnone : block = [] := by
          refine List.eq_nil_iff_forall_not_mem.mpr fun c hc => hbefore b List.mem_cons_self ?_
          have hmem : c ∈ b :: before ++ (block ++ after) := by simp [hc]
          refine h a List.mem_cons_self b (by simp) c (List.mem_cons_of_mem a hmem)
            (hal b List.mem_cons_self) ?_ ha (hblock c hc)
          exact (List.pairwise_append.mp hl).2.2 b List.mem_cons_self c
            (List.mem_append_left after hc)
        subst hnone
        refine ⟨[], [a], b :: before ++ after, rfl, by simpa using ha, by simp, fun x hx => ?_⟩
        exact (List.mem_append.mp hx).elim (hbefore x) (hafter x)
    · refine ⟨a :: before, block, after, rfl, hblock, ?_, hafter⟩
      exact List.forall_mem_cons.mpr ⟨ha, hbefore⟩

namespace TableRow

variable {V : Type} [LinearOrder V] {a b c : TableRow V}

/-- No row is strictly between two rows that agree. -/
theorem Before.not_before_of_eq {t : OrderTerm} (h : Before t a b)
    (heq : a t.path.walk = c t.path.walk) : ¬ Before t b c := by
  unfold Before at h ⊢
  rw [← heq]
  split_ifs at h ⊢
  · exact not_lt_of_gt h
  · exact not_lt_of_gt h

/-- A row between two rows that agree on leading terms agrees with them. -/
theorem eq_of_precedes {lead rest order : List OrderTerm}
    (horder : List.Forall₂ (fun t s => s.path.walk = t.path.walk) (lead ++ rest) order)
    (hab : Precedes order a b) (hbc : Precedes order b c)
    (hac : ∀ t ∈ lead, a t.path.walk = c t.path.walk) :
    ∀ t ∈ lead, b t.path.walk = a t.path.walk := by
  induction lead generalizing order with
  | nil => simp
  | cons t lead ih =>
    obtain ⟨htac, hac⟩ := List.forall_mem_cons.mp hac
    cases horder with
    | @cons _ s _ _ hs horder =>
      rw [← hs] at htac
      obtain ⟨hsab, hab⟩ : a s.path.walk = b s.path.walk ∧ _ := by
        refine hab.resolve_left fun hbefore => ?_
        rcases hbc with hbefore' | ⟨hsbc, -⟩
        · exact hbefore.not_before_of_eq htac hbefore'
        · exact hbefore.ne (htac.trans hsbc.symm)
      obtain ⟨-, hbc⟩ : b s.path.walk = c s.path.walk ∧ _ :=
        hbc.resolve_left fun hbefore => hbefore.ne (hsab.symm.trans htac)
      exact List.forall_mem_cons.mpr ⟨hs ▸ hsab.symm, ih horder hab hbc hac⟩

end TableRow

/-! ### Promotion -/

/-- Promotion goes as far as the terms have paths that are left to filter. -/
theorem exists_lead (remaining : PathSet) (key : List OrderTerm) :
    ∃ lead rest, key = lead ++ rest ∧ (lead.map fun t => t.path.walk).Nodup ∧
      walksOf (lead.map OrderTerm.path) ⊆ walksOf remaining.toList ∧
      walksOf (promote remaining key).toList
        = walksOf remaining.toList \ walksOf (lead.map OrderTerm.path) ∧
      ∀ t, rest.head? = some t → t.path.walk ∉ walksOf (promote remaining key).toList := by
  induction key generalizing remaining with
  | nil =>
    exact ⟨[], [], rfl, List.nodup_nil, by simp [walksOf], by simp [promote, walksOf], by simp⟩
  | cons t key ih =>
    rw [promote]
    split_ifs with hcontains
    · obtain ⟨lead, rest, rfl, hnodup, hsubset, hpromote, hstops⟩ := ih (remaining.erase t.path)
      rw [walksOf_erase] at hsubset hpromote
      refine ⟨t :: lead, rest, rfl, List.nodup_cons.mpr ⟨fun hmem => ?_, hnodup⟩, ?_, ?_, hstops⟩
      · -- what has been promoted is no longer left
        obtain ⟨s, hs, heq⟩ := List.mem_map.mp hmem
        exact (hsubset ⟨s.path, List.mem_map_of_mem hs, rfl⟩).2 heq
      · rw [List.map_cons, walksOf_cons]
        exact Set.insert_subset (contains_iff_mem_walksOf.mp hcontains)
          (hsubset.trans Set.sdiff_subset)
      · rw [hpromote, List.map_cons, walksOf_cons, Set.sdiff_sdiff, Set.singleton_union]
    · refine ⟨[], t :: key, rfl, List.nodup_nil, by simp [walksOf], by simp [walksOf], ?_⟩
      rintro _ ⟨⟩
      exact fun hmem => hcontains (contains_iff_mem_walksOf.mpr hmem)

namespace Candidate

variable (c : Candidate)

/-- The terms `lead` of the clustering key are promoted and the terms `rest` are not. -/
structure Promotes (lead rest : List OrderTerm) : Prop where
  key_eq : c.key.clusteringKey = lead ++ rest
  nodup : (lead.map fun t => t.path.walk).Nodup
  subset : walksOf (lead.map OrderTerm.path) ⊆
    walksOf (c.clause.predicates.map Predicate.path) \ walksOf c.key.partitionKey.toList
  remaining_eq : walksOf c.remaining.toList
    = (walksOf (c.clause.predicates.map Predicate.path) \ walksOf c.key.partitionKey.toList) \
      walksOf (lead.map OrderTerm.path)
  effectiveKey_eq : walksOf c.effectiveKey.toList
    = walksOf c.key.partitionKey.toList ∪ walksOf (lead.map OrderTerm.path)
  /-- The next term has no path that is left to filter. -/
  stops : ∀ t, rest.head? = some t → t.path.walk ∉ walksOf c.remaining.toList

/-- A row has the queried values on the effective key. -/
def Matches {V : Type} (query row : TableRow V) : Prop :=
  ∀ p ∈ c.effectiveKey.toList, row p.walk = query p.walk

variable {c} {lead rest : List OrderTerm}

/-- In a sorted partition, the rows that a read is after stand next to each other. -/
theorem Promotes.isContiguous (h : c.Promotes lead rest) {V : Type} [LinearOrder V]
    {order : List OrderTerm}
    (horder : List.Forall₂ (fun t s => s.path.walk = t.path.walk) c.key.clusteringKey order)
    {rows : List (TableRow V)} (hrows : rows.Pairwise (TableRow.Precedes order))
    (hagree : ∀ p ∈ c.key.partitionKey.toList, ∀ a ∈ rows, ∀ b ∈ rows, a p.walk = b p.walk)
    (query : TableRow V) : IsContiguous (c.Matches query) rows := by
  have hmatches : ∀ row : TableRow V, c.Matches query row ↔
      (∀ p ∈ c.key.partitionKey.toList, row p.walk = query p.walk) ∧
        ∀ t ∈ lead, row t.path.walk = query t.path.walk := by
    intro row
    have hwalks : c.Matches query row ↔
        ∀ w ∈ walksOf c.effectiveKey.toList, row w = query w := by
      simp [Matches, walksOf]
    rw [hwalks, h.effectiveKey_eq]
    simp only [Set.mem_union, or_imp, forall_and]
    simp [walksOf]
  rw [h.key_eq] at horder
  refine isContiguous_of_pairwise hrows fun a ha b hb c hc hab hbc hqa hqc => ?_
  obtain ⟨hpartition, hqa⟩ := (hmatches a).mp hqa
  have hqc := ((hmatches c).mp hqc).2
  refine (hmatches b).mpr ⟨fun p hp => (hagree p hp b hb a ha).trans (hpartition p hp), ?_⟩
  have heq := TableRow.eq_of_precedes horder hab hbc fun t ht => (hqa t ht).trans (hqc t ht).symm
  exact fun t ht => (heq t ht).trans (hqa t ht)

end Candidate

/-- Every candidate of a level promotes some leading terms of its clustering key. -/
theorem Model.exists_promotes_of_mem_candidates {α : Type} {m : Model α} {l : Level} {c : Candidate}
    (hc : c ∈ m.candidates l) : ∃ lead rest, c.Promotes lead rest := by
  obtain ⟨partitionKey, hpartition, clusteringKey, -, rfl⟩ := mem_candidates_iff.mp hc
  obtain ⟨lead, rest, hkey, hnodup, hsubset, hpromote, hstops⟩ :=
    exists_lead (l.clause.predicatePaths.difference partitionKey) clusteringKey
  have hpredicates : walksOf l.clause.predicatePaths.toList
      = walksOf (l.clause.predicates.map Predicate.path) := walksOf_ofList _
  have hsargable : walksOf partitionKey.toList ⊆
      walksOf (l.clause.predicates.map Predicate.path) := by
    rintro _ ⟨p, hp, rfl⟩
    have hmem := SortedSet.mem_of_mem_toList_ofList ((mem_partitionKeys_iff _).mp hpartition p hp)
    exact ⟨p, List.mem_of_mem_filter hmem, rfl⟩
  rw [walksOf_difference, hpredicates] at hsubset hpromote
  refine ⟨lead, rest, hkey, hnodup, hsubset, hpromote, ?_, hstops⟩
  have heffective : walksOf (l.candidate partitionKey clusteringKey).effectiveKey.toList
      = walksOf (l.clause.predicates.map Predicate.path) \
        walksOf (l.candidate partitionKey clusteringKey).remaining.toList := by
    rw [Candidate.effectiveKey, walksOf_difference]
    exact congrArg (· \ _) hpredicates
  have hremaining : walksOf (l.candidate partitionKey clusteringKey).remaining.toList
      = (walksOf (l.clause.predicates.map Predicate.path) \ walksOf partitionKey.toList) \
        walksOf (lead.map OrderTerm.path) := hpromote
  rw [heffective, hremaining, Set.sdiff_sdiff, Set.sdiff_sdiff_cancel_left]
  · rfl
  · exact Set.union_subset hsargable (hsubset.trans Set.sdiff_subset)

/-- **Promotion is sound and goes as far as it can**: every candidate that a search finds has the
partition key and some leading terms of its clustering key for an effective key, and all other
predicates left to filter.  In a partition sorted by the clustering key, in any directions, the rows
that a read of the effective key is after stand next to each other. -/
theorem Model.exists_promotes {α : Type} [Scalar α] {m : Model α} {rowScanCost : α} {prune : Bool}
    {memo : Memo α} {w : Workload} (hw : (m.search rowScanCost prune memo).1 = .ok w)
    {c : Candidate} (hc : c ∈ w.candidates) :
    (∃ lead rest, c.Promotes lead rest) ∧
    ∀ (V : Type) [LinearOrder V] (order : List OrderTerm) (rows : List (TableRow V))
      (query : TableRow V),
      List.Forall₂ (fun t s => s.path.walk = t.path.walk) c.key.clusteringKey order →
      rows.Pairwise (TableRow.Precedes order) →
      (∀ p ∈ c.key.partitionKey.toList, ∀ a ∈ rows, ∀ b ∈ rows, a p.walk = b p.walk) →
      IsContiguous (c.Matches query) rows := by
  obtain ⟨i, hi, rfl⟩ := List.getElem_of_mem hc
  obtain ⟨l, -, hmem⟩ := exists_level_of_lt hw hi
  rw [Workload.candidate_eq_getElem hi] at hmem
  obtain ⟨lead, rest, hpromotes⟩ := exists_promotes_of_mem_candidates hmem
  exact ⟨⟨lead, rest, hpromotes⟩, fun V _ order rows query horder hrows hagree =>
    hpromotes.isContiguous horder hrows hagree query⟩

namespace Inbox

/-- A message by its folder and its time. -/
def message (folder time : ℕ) : TableRow ℕ := fun walk =>
  if walk.2 = ["folder"] then folder else if walk.2 = ["at"] then time else 0

/-- Messages with their folders from last to first, those of one folder by time. -/
def messages : List (TableRow ℕ) := [message 3 6, message 2 4, message 2 7, message 1 5]

end Inbox

/-- The table of an inbox without a partition key promotes the folder, and the messages of one
folder stand next to each other even if the table is read against its order. -/
theorem Model.exists_promotes_inbox :
    (∃ rest, (Inbox.workload.candidate 0).Promotes [⟨⟨1, ["folder"], true⟩, .asc⟩] rest) ∧
    IsContiguous ((Inbox.workload.candidate 0).Matches (Inbox.message 2 0)) Inbox.messages := by
  have hw : (Inbox.model.search (.finite 1) false {}).1 = .ok Inbox.workload := rfl
  have hmem : Inbox.workload.candidate 0 ∈ Inbox.workload.candidates := List.mem_cons_self
  obtain ⟨⟨lead, rest, hpromotes⟩, hcontiguous⟩ := Model.exists_promotes hw hmem
  constructor
  · refine ⟨rest, ?_⟩
    have hkey : [⟨⟨1, ["folder"], true⟩, .asc⟩, ⟨⟨1, ["at"], true⟩, .desc⟩,
        ⟨⟨1, ["id"], true⟩, .desc⟩] = lead ++ rest := hpromotes.key_eq
    rcases lead with _ | ⟨t, _ | ⟨s, lead⟩⟩
    · -- the folder is covered, and not by the partition key
      have hfolder : (1, ["folder"]) ∈ walksOf (Inbox.workload.candidate 0).effectiveKey.toList :=
        ⟨⟨1, ["folder"], true⟩, List.mem_cons_self, rfl⟩
      rw [hpromotes.effectiveKey_eq] at hfolder
      simp [walksOf, show (Inbox.workload.candidate 0).key.partitionKey.toList = [] from rfl]
        at hfolder
    · obtain rfl := (List.cons.inj hkey).1
      exact hpromotes
    · -- no predicate asks for a time
      obtain ⟨rfl, hlater⟩ := List.cons.inj hkey
      obtain ⟨rfl, -⟩ := List.cons.inj hlater
      obtain ⟨p, hp, heq⟩ := (hpromotes.subset ⟨⟨1, ["at"], true⟩, by simp, rfl⟩).1
      have hp : p ∈ [⟨1, ["folder"], true⟩, ⟨1, ["sender", "name"], false⟩] := hp
      rcases List.mem_pair.mp hp with rfl | rfl <;> exact absurd heq (by decide)
  · refine hcontiguous ℕ [⟨⟨1, ["folder"], true⟩, .desc⟩, ⟨⟨1, ["at"], true⟩, .asc⟩,
      ⟨⟨1, ["id"], true⟩, .any⟩] Inbox.messages (Inbox.message 2 0) ?_ ?_ ?_
    · exact .cons rfl (.cons rfl (.cons rfl .nil))
    · simp [Inbox.messages, Inbox.message, TableRow.Precedes, TableRow.Before, Path.walk]
    · exact fun p hp => absurd hp List.not_mem_nil

end Keyspace
