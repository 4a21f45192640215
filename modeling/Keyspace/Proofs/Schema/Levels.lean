import Keyspace.Schema.Model
import Mathlib.Data.List.Basic

/-!
# The levels of a query

Every level carries the number of its query, at whatever depth of a selection it stands
(`Selection.query_of_mem_levels`).  Hence the levels of one query can be picked out of those of the
whole workload (`Model.filter_levels_query`), in their order.
-/

namespace Keyspace

/-! ### Levels of a selection -/

mutual

theorem Relation.query_of_mem_levels {query : QueryId} (relation : Relation) {parent : String} :
    ∀ l ∈ relation.levels query parent, l.query = query := by
  match relation with
  | ⟨field, clause, pageSize, relations⟩ =>
    intro l hl
    rw [Relation.levels] at hl
    rcases List.mem_cons.mp hl with rfl | hl
    · rfl
    · exact Relation.query_of_mem_levelsOf relations l hl

theorem Relation.query_of_mem_levelsOf {query : QueryId} (relations : List Relation)
    {parent : String} : ∀ l ∈ Relation.levelsOf query parent relations, l.query = query := by
  match relations with
  | [] =>
    intro l hl
    rw [Relation.levelsOf] at hl
    exact absurd hl List.not_mem_nil
  | relation :: rest =>
    intro l hl
    rw [Relation.levelsOf] at hl
    rcases List.mem_append.mp hl with hl | hl
    · exact Relation.query_of_mem_levels relation l hl
    · exact Relation.query_of_mem_levelsOf rest l hl

end

theorem Selection.query_of_mem_levels {query : QueryId} {name : String} {definition : Definition}
    {selection : Selection} :
    ∀ l ∈ selection.levels query name definition, l.query = query := by
  intro l hl
  rcases List.mem_cons.mp hl with rfl | hl
  · rfl
  · exact Relation.query_of_mem_levelsOf _ l hl

/-! ### Levels of a workload -/

/-- If the elements of a list's parts carry the number of their part, counted on from `next`, a part
can be picked out of the whole. -/
theorem filter_flatten_of_carry {β : Type} {number : β → ℕ} {parts : List (List β)} :
    ∀ {next : ℕ}, (∀ k part, parts[k]? = some part → ∀ b ∈ part, number b = next + k) →
      ∀ {k : ℕ} {part : List β}, parts[k]? = some part →
        parts.flatten.filter (fun b => number b == next + k) = part := by
  induction parts with
  | nil => intro next _ k part hk; exact absurd hk (by simp)
  | cons first rest ih =>
    intro next hcarry k part hk
    have hfirst : ∀ b ∈ first, number b = next := hcarry 0 first rfl
    have hrest : ∀ k part, rest[k]? = some part → ∀ b ∈ part, number b = next + 1 + k := by
      intro k part hk b hb
      have hnumber := hcarry (k + 1) part hk b hb
      omega
    rw [List.flatten_cons, List.filter_append]
    cases k with
    | zero =>
      obtain rfl := Option.some.inj hk
      have hkeep : first.filter (fun b => number b == next + 0) = first :=
        List.filter_eq_self.mpr fun b hb => by simp [hfirst b hb]
      have hdrop : rest.flatten.filter (fun b => number b == next + 0) = [] := by
        refine List.filter_eq_nil_iff.mpr fun b hb => ?_
        obtain ⟨part, hpart, hb⟩ := List.mem_flatten.mp hb
        obtain ⟨k, hk⟩ := List.mem_iff_getElem?.mp hpart
        simp [hrest k part hk b hb, Nat.add_assoc]
      rw [hkeep, hdrop, List.append_nil]
    | succ k =>
      have hdrop : first.filter (fun b => number b == next + (k + 1)) = [] :=
        List.filter_eq_nil_iff.mpr fun b hb => by simp [hfirst b hb]
      rw [hdrop, List.nil_append, Nat.add_comm k 1, ← Nat.add_assoc]
      exact ih hrest hk

namespace Model

variable {α : Type} (m : Model α)

/-- The levels of one selection belong to one query. -/
theorem exists_query_of_mem_selectionLevels {ls : List Level} (h : ls ∈ m.selectionLevels) :
    ∃ query, query < m.queries.length ∧ ∀ l ∈ ls, l.query = query := by
  obtain ⟨lss, hlss, hls⟩ := List.mem_flatten.mp h
  obtain ⟨query, hquery, rfl⟩ := List.mem_mapIdx.mp hlss
  obtain ⟨selection, -, rfl⟩ := List.mem_map.mp hls
  exact ⟨query, hquery, Selection.query_of_mem_levels⟩

/-- Every level belongs to a query of the model. -/
theorem query_lt_of_mem_levels {l : Level} (h : l ∈ m.levels) : l.query < m.queries.length := by
  obtain ⟨ls, hls, hl⟩ := List.mem_flatten.mp h
  obtain ⟨query, hquery, heq⟩ := m.exists_query_of_mem_selectionLevels hls
  rwa [heq l hl]

variable {m}

/-- The levels of a query are those that carry its number. -/
theorem filter_levels_query {k : QueryId} {q : Query} (hq : m.queries[k]? = some q) :
    m.levels.filter (fun l => l.query == k) = (m.queryLevels k q).flatten := by
  have hlevels : m.levels = (m.queries.mapIdx fun i q => (m.queryLevels i q).flatten).flatten := by
    have hparts : (m.queries.mapIdx m.queryLevels).map List.flatten
        = m.queries.mapIdx fun i q => (m.queryLevels i q).flatten :=
      List.ext_getElem (by simp) fun i _ _ => by simp
    rw [levels, selectionLevels, List.flatten_flatten, hparts]
  have hcarry : ∀ i part,
      (m.queries.mapIdx fun i q => (m.queryLevels i q).flatten)[i]? = some part →
        ∀ l ∈ part, l.query = 0 + i := by
    intro i part hpart l hl
    rw [List.getElem?_mapIdx] at hpart
    obtain ⟨q', -, rfl⟩ := Option.map_eq_some_iff.mp hpart
    obtain ⟨ls, hls, hl⟩ := List.mem_flatten.mp hl
    obtain ⟨selection, -, rfl⟩ := List.mem_map.mp hls
    rw [Nat.zero_add]
    exact Selection.query_of_mem_levels l hl
  have hk : (m.queries.mapIdx fun i q => (m.queryLevels i q).flatten)[k]?
      = some (m.queryLevels k q).flatten := by
    rw [List.getElem?_mapIdx, hq]
    rfl
  have hfilter := filter_flatten_of_carry hcarry hk
  rwa [← hlevels, Nat.zero_add] at hfilter

end Model

end Keyspace
