import Keyspace.Candidate.Clustering
import Keyspace.Proofs.Candidate.Key
import Keyspace.Proofs.Schema.Resolve
import Mathlib.Data.List.TakeWhile

/-!
# What clustering keys hold and promote

The terms of a clustering key are the identifier or come from requested orders, as far as these may
be part of a key (`Model.eq_identifier_or_exists_of_mem`); in which order they were requested makes
no difference (`Model.clusteringKeys_eq_of_perm`).  An order that may be part of a key as a whole
leads some clustering key (`Model.exists_prefix_mem_clusteringKeys`).  Further requests add keys to
those drawn from requested orders; only the identifier, which stands in for them if there are none,
may go (`Model.clusteringKeys_sublist`).

Promotion takes predicates out of what is left to filter only if some term of the clustering key has
their path (`exists_compare_eq_of_not_mem_promote`), so that in a built model no predicate that
could go stale is ever promoted (`Model.sargable_of_compare_eq`).  It leaves nothing to a second
promotion by the same key (`promote_promote`).
-/

namespace Keyspace

/-! ### Leading parts of an order -/

theorem prefix_of_mem_leadingParts {β : Type} {l part : List β} (h : part ∈ leadingParts l) :
    part <+: l := by
  induction l generalizing part with
  | nil => exact absurd h List.not_mem_nil
  | cons b rest ih =>
    rcases List.mem_cons.mp h with rfl | h
    · exact List.cons_prefix_cons.mpr ⟨rfl, List.nil_prefix⟩
    · obtain ⟨tail, htail, rfl⟩ := List.mem_map.mp h
      exact List.cons_prefix_cons.mpr ⟨rfl, ih htail⟩

theorem ne_nil_of_mem_leadingParts {β : Type} {l part : List β} (h : part ∈ leadingParts l) :
    part ≠ [] := by
  cases l with
  | nil => exact absurd h List.not_mem_nil
  | cons b rest =>
    rcases List.mem_cons.mp h with rfl | h
    · exact List.cons_ne_nil _ _
    · obtain ⟨tail, -, rfl⟩ := List.mem_map.mp h
      exact List.cons_ne_nil _ _

/-- The leading parts of a list are its prefixes, but for the empty one. -/
theorem mem_leadingParts_iff {β : Type} {l part : List β} :
    part ∈ leadingParts l ↔ part ≠ [] ∧ part <+: l := by
  refine ⟨fun h => ⟨ne_nil_of_mem_leadingParts h, prefix_of_mem_leadingParts h⟩, ?_⟩
  rintro ⟨hne, hprefix⟩
  induction l generalizing part with
  | nil => exact absurd (List.prefix_nil.mp hprefix) hne
  | cons b rest ih =>
    obtain ⟨c, tail, rfl⟩ := List.exists_cons_of_ne_nil hne
    obtain ⟨rfl, htail⟩ := List.cons_prefix_cons.mp hprefix
    rw [leadingParts, List.mem_cons]
    by_cases hnil : tail = []
    · exact .inl (by rw [hnil])
    · exact .inr (List.mem_map_of_mem (ih hnil htail))

/-- A list is the longest of its leading parts. -/
theorem self_mem_leadingParts {β : Type} {l : List β} (h : l ≠ []) : l ∈ leadingParts l :=
  mem_leadingParts_iff.mpr ⟨h, List.prefix_rfl⟩

theorem eq_or_mem_of_mem_closeWith {identifier t : OrderTerm} {terms : List OrderTerm}
    (h : t ∈ closeWith identifier terms) : t = identifier ∨ t ∈ terms := by
  rw [closeWith] at h
  split_ifs at h
  · exact .inr h
  · rcases List.mem_append.mp h with h | h
    · exact .inr h
    · exact .inl (List.mem_singleton.mp h)

theorem prefix_closeWith (identifier : OrderTerm) (terms : List OrderTerm) :
    terms <+: closeWith identifier terms := by
  rw [closeWith]
  split_ifs
  · exact List.prefix_rfl
  · exact List.prefix_append _ _

theorem closeWith_ne_nil {identifier : OrderTerm} {terms : List OrderTerm} (h : terms ≠ []) :
    closeWith identifier terms ≠ [] := by
  rw [closeWith]
  split_ifs
  · exact h
  · simp

/-! ### Clustering keys -/

/-- What the order of a clause gives rise to may be part of a key. -/
theorem Clause.sargable_of_mem_clusteringKeys {c : Clause} {identifier t : OrderTerm}
    {key : List OrderTerm} (hidentifier : identifier.path.sargable = true)
    (hkey : key ∈ c.clusteringKeys identifier) (ht : t ∈ key) : t.path.sargable = true := by
  obtain ⟨part, hpart, rfl⟩ := List.mem_map.mp hkey
  rcases eq_or_mem_of_mem_closeWith ht with rfl | ht
  · exact hidentifier
  · exact List.mem_takeWhile_imp (p := fun t : OrderTerm => t.path.sargable)
      ((prefix_of_mem_leadingParts hpart).subset ht)

namespace Model

variable {α : Type} {m : Model α} {id : EntityId}

/-- The clustering keys of an entity are listed once each, in their order. -/
theorem pairwise_clusteringKeys :
    (m.clusteringKeys id).Pairwise fun a b => compare a b = .lt := by
  rw [clusteringKeys]
  split_ifs
  · exact List.pairwise_singleton _ _
  · exact SortedSet.ascending _

theorem clusteringKeys_ne_nil : m.clusteringKeys id ≠ [] := by
  rw [clusteringKeys]
  split_ifs with hempty
  · exact List.cons_ne_nil _ _
  · exact fun hnil => hempty (List.isEmpty_iff.mpr hnil)

/-- Every clustering key sorts by something. -/
theorem ne_nil_of_mem_clusteringKeys {key : List OrderTerm} (hkey : key ∈ m.clusteringKeys id) :
    key ≠ [] := by
  rw [clusteringKeys] at hkey
  split_ifs at hkey
  · obtain rfl := List.mem_singleton.mp hkey
    exact List.cons_ne_nil _ _
  · obtain ⟨clause, -, hkey⟩ := List.mem_flatMap.mp (SortedSet.mem_of_mem_toList_ofList hkey)
    obtain ⟨part, hpart, rfl⟩ := List.mem_map.mp hkey
    exact closeWith_ne_nil (ne_nil_of_mem_leadingParts hpart)

theorem identifierTerm_eq {m' : Model α} (hcatalog : m'.catalog = m.catalog) :
    m'.identifierTerm id = m.identifierTerm id := by
  rw [identifierTerm, identifierTerm, hcatalog]

variable (m id) in
/-- The clustering keys drawn from the clauses of an entity, clause by clause. -/
def requestedKeys : List (List OrderTerm) :=
  (m.clausesRootedAt id).flatMap fun c => c.clusteringKeys (m.identifierTerm id)

theorem eq_of_compare_requestedKeys_eq {as bs : List OrderTerm} (has : as ∈ m.requestedKeys id)
    (hbs : bs ∈ m.requestedKeys id) (h : compare as bs = .eq) : as = bs := by
  have hsargable : ∀ key ∈ m.requestedKeys id, ∀ t ∈ key, t.path.sargable = true := by
    intro key hkey t ht
    obtain ⟨c, -, hkey⟩ := List.mem_flatMap.mp hkey
    exact Clause.sargable_of_mem_clusteringKeys rfl hkey ht
  exact eq_of_compare_eq_of_sargable h (hsargable as has) (hsargable bs hbs)

/-- The order of the clauses does not show in the clustering keys. -/
theorem clusteringKeys_eq_of_perm {m' : Model α} (hcatalog : m'.catalog = m.catalog)
    (hperm : (m.clausesRootedAt id).Perm (m'.clausesRootedAt id)) :
    m'.clusteringKeys id = m.clusteringKeys id := by
  have hkeys : SortedSet.ofList (m.requestedKeys id) = _ := SortedSet.ofList_eq_of_perm
    (hperm.flatMap_right _) fun a ha b hb h => eq_of_compare_requestedKeys_eq ha hb h
  rw [requestedKeys] at hkeys
  rw [clusteringKeys, clusteringKeys, identifierTerm_eq hcatalog, hkeys]

variable (m id) in
/-- Some level of an entity requests an order whose first term may be part of a key. -/
def RequestsOrder : Prop :=
  ∃ c ∈ m.clausesRootedAt id, ∃ t, c.order.head? = some t ∧ t.path.sargable = true

theorem exists_mem_requestedKeys (h : m.RequestsOrder id) : ∃ key, key ∈ m.requestedKeys id := by
  obtain ⟨c, hc, t, ht, hsargable⟩ := h
  obtain ⟨rest, horder⟩ := List.head?_eq_some_iff.mp ht
  have hpart : [t] ∈ leadingParts (c.order.takeWhile fun t => t.path.sargable) := by
    rw [horder, List.takeWhile_cons, if_pos hsargable]
    exact List.mem_cons_self
  exact ⟨_, List.mem_flatMap.mpr ⟨c, hc, List.mem_map_of_mem hpart⟩⟩

/-- If an order is requested, the identifier does not stand in for the requested keys. -/
theorem mem_clusteringKeys_iff (h : m.RequestsOrder id) {key : List OrderTerm} :
    key ∈ m.clusteringKeys id ↔ key ∈ m.requestedKeys id := by
  have hmem : ∀ {key}, key ∈ (SortedSet.ofList (m.requestedKeys id)).toList ↔
      key ∈ m.requestedKeys id :=
    SortedSet.mem_toList_ofList_of_faithful fun a ha b hb => eq_of_compare_requestedKeys_eq ha hb
  obtain ⟨key', hkey'⟩ := exists_mem_requestedKeys h
  have hkeys : ¬ (SortedSet.ofList (m.requestedKeys id)).isEmpty = true := fun hempty =>
    List.ne_nil_of_mem (hmem.mpr hkey') (List.isEmpty_iff.mp hempty)
  exact (show m.clusteringKeys id = _ from if_neg hkeys) ▸ hmem

/-- An order whose terms may all be part of a key leads some clustering key. -/
theorem exists_prefix_mem_clusteringKeys {c : Clause} (hc : c ∈ m.clausesRootedAt id)
    (h : ∀ t ∈ c.order, t.path.sargable = true) :
    ∃ key ∈ m.clusteringKeys id, c.order <+: key := by
  by_cases horder : c.order = []
  · have hne : m.clusteringKeys id ≠ [] := clusteringKeys_ne_nil
    obtain ⟨key, hkey⟩ := List.exists_mem_of_ne_nil _ hne
    exact ⟨key, hkey, horder ▸ List.nil_prefix⟩
  · obtain ⟨t, rest, ht⟩ := List.exists_cons_of_ne_nil horder
    have hrequests : m.RequestsOrder id :=
      ⟨c, hc, t, by rw [ht, List.head?_cons], h t (by rw [ht]; exact List.mem_cons_self)⟩
    have hpart : c.order ∈ leadingParts (c.order.takeWhile fun t => t.path.sargable) := by
      rw [List.takeWhile_eq_self_iff.mpr h]
      exact self_mem_leadingParts horder
    refine ⟨_, (mem_clusteringKeys_iff hrequests).mpr ?_, prefix_closeWith (m.identifierTerm id) _⟩
    exact List.mem_flatMap.mpr ⟨c, hc, List.mem_map_of_mem hpart⟩

/-- Further clauses leave the requested keys in their order. -/
theorem clusteringKeys_sublist {m' : Model α} (hcatalog : m'.catalog = m.catalog)
    (hclauses : m.clausesRootedAt id ⊆ m'.clausesRootedAt id) (h : m.RequestsOrder id) :
    (m.clusteringKeys id).Sublist (m'.clusteringKeys id) := by
  have h' : m'.RequestsOrder id := by
    obtain ⟨c, hc, hrequests⟩ := h
    exact ⟨c, hclauses hc, hrequests⟩
  refine SortedSet.sublist_of_ascending_of_subset pairwise_clusteringKeys pairwise_clusteringKeys
    fun key hkey => (mem_clusteringKeys_iff h').mpr ?_
  obtain ⟨c, hc, hkey⟩ := List.mem_flatMap.mp ((mem_clusteringKeys_iff h).mp hkey)
  exact List.mem_flatMap.mpr ⟨c, hclauses hc, identifierTerm_eq hcatalog ▸ hkey⟩

variable {key : List OrderTerm} (hkey : key ∈ m.clusteringKeys id) {t : OrderTerm} (ht : t ∈ key)
include hkey ht

/-- A term of a clustering key is the identifier, or requested by a level of the entity. -/
theorem eq_identifier_or_exists_of_mem :
    t = m.identifierTerm id ∨
      t.path.sargable = true ∧ ∃ l ∈ m.levels, l.clause.root = id ∧ t ∈ l.clause.order := by
  rw [clusteringKeys] at hkey
  split_ifs at hkey
  · obtain rfl := List.mem_singleton.mp hkey
    exact .inl (List.mem_singleton.mp ht)
  · obtain ⟨clause, hclause, hkey⟩ := List.mem_flatMap.mp (SortedSet.mem_of_mem_toList_ofList hkey)
    obtain ⟨hclause, hroot⟩ := List.mem_filter.mp hclause
    obtain ⟨l, hl, rfl⟩ := List.mem_map.mp hclause
    obtain ⟨part, hpart, rfl⟩ := List.mem_map.mp hkey
    rcases eq_or_mem_of_mem_closeWith ht with rfl | ht
    · exact .inl rfl
    · have hlead := (prefix_of_mem_leadingParts hpart).subset ht
      have hsargable : t.path.sargable = true :=
        List.mem_takeWhile_imp (p := fun t : OrderTerm => t.path.sargable) hlead
      exact .inr ⟨hsargable, l, hl, beq_iff_eq.mp hroot, (List.takeWhile_prefix _).subset hlead⟩

/-- Clustering keys hold only paths that may be part of a key. -/
theorem sargable_of_mem_clusteringKeys : t.path.sargable = true := by
  rcases eq_identifier_or_exists_of_mem hkey ht with rfl | ⟨hsargable, -⟩
  · rfl
  · exact hsargable

variable {decls : Declarations α} (hbuild : decls.build = .ok m)
include hbuild

/-- Clustering keys start from the rows of their entity. -/
theorem root_of_mem_clusteringKeys : t.path.root = id := by
  rcases eq_identifier_or_exists_of_mem hkey ht with rfl | ⟨-, l, hl, rfl, hmem⟩
  · rfl
  · exact ((Declarations.resolved_of_build hbuild l hl).isPath_of_mem_order hmem).1

/-- A path that walks like a term of a clustering key may be part of a key itself. -/
theorem sargable_of_compare_eq {p : Path} (hp : m.catalog.IsPath p)
    (heq : compare t.path p = .eq) : p.sargable = true := by
  have hwalk := Path.compare_eq_iff.mp heq
  rcases eq_identifier_or_exists_of_mem hkey ht with rfl | ⟨hsargable, l, hl, -, hmem⟩
  · exact hp.sargable_of_segments_eq (Prod.mk.inj hwalk).2.symm
  · have hpath := ((Declarations.resolved_of_build hbuild l hl).isPath_of_mem_order hmem).2
    rwa [← hpath.eq_of_walk_eq hp hwalk]

end Model

/-! ### Promotion -/

section Promote

variable {remaining : PathSet} {key : List OrderTerm}

/-- Promotion adds nothing to what is left to filter. -/
theorem promote_sublist :
    (promote remaining key).toList.Sublist remaining.toList := by
  induction key generalizing remaining with
  | nil => exact List.Sublist.refl _
  | cons t rest ih =>
    rw [promote]
    split_ifs
    · exact ih.trans List.filter_sublist
    · exact List.Sublist.refl _

/-- Promotion goes as far as it can: once more, it takes nothing. -/
theorem promote_promote : promote (promote remaining key) key = promote remaining key := by
  cases key with
  | nil => rfl
  | cons t rest =>
    by_cases hcontains : remaining.contains t.path = true
    · have hstep : promote remaining (t :: rest) = promote (remaining.erase t.path) rest := by
        rw [promote, if_pos hcontains]
      -- the path of the first term is gone, so that promotion stops there
      have hgone : ¬ (promote (remaining.erase t.path) rest).contains t.path = true := by
        intro hagain
        obtain ⟨p, hp, heq⟩ := SortedSet.contains_eq_true_iff.mp hagain
        exact (SortedSet.mem_toList_erase.mp (promote_sublist.subset hp)).2 heq
      rw [hstep, promote, if_neg hgone]
    · have hstep : promote remaining (t :: rest) = remaining := by
        rw [promote, if_neg hcontains]
      rw [hstep, hstep]

/-- What promotion takes away has the path of a term of the clustering key. -/
theorem exists_compare_eq_of_not_mem_promote {p : Path} (hp : p ∈ remaining.toList)
    (h : p ∉ (promote remaining key).toList) : ∃ t ∈ key, compare t.path p = .eq := by
  induction key generalizing remaining with
  | nil => exact absurd hp h
  | cons t rest ih =>
    rw [promote] at h
    split_ifs at h
    · by_cases heq : compare t.path p = .eq
      · exact ⟨t, List.mem_cons_self, heq⟩
      · obtain ⟨t', ht', heq'⟩ := ih (SortedSet.mem_toList_erase.mpr ⟨hp, heq⟩) h
        exact ⟨t', List.mem_cons_of_mem t ht', heq'⟩
    · exact absurd hp h

end Promote

end Keyspace
