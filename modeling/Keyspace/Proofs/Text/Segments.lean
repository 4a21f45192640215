import Keyspace.Text.Segments
import Mathlib.Data.List.DropRight
import Mathlib.Data.List.Basic

/-!
# Joined names

Names can be read back from the text that joins them if no name contains the separator
(`eq_of_intercalate_eq`).  The names that a dotted text lists contain no dot and have no blanks
around them (`isSegment_of_mem_segments`); such names, joined by dots, are listed again
(`segments_intercalate`).  Likewise the tokens of a line and the lines of a text can be read back
(`eq_of_line_eq`, `eq_of_unlines_eq`).
-/

namespace Keyspace.Text

/-! ### Parts -/

theorem splitAt_eq_splitOn (separator : Char) (cs : List Char) :
    splitAt separator cs = cs.splitOn separator := by
  induction cs with
  | nil => rfl
  | cons c rest ih =>
    rw [splitAt, ih, List.splitOn_cons_eq_if_modifyHead]
    by_cases h : c = separator
    · rw [if_pos h, if_pos (by simp [h])]
    · rw [if_neg h, if_neg (by simp [h])]
      obtain ⟨part, parts, heq⟩ := List.exists_cons_of_ne_nil (List.splitOn_ne_nil separator rest)
      rw [heq]
      rfl

theorem not_mem_of_mem_splitAt {separator : Char} {cs part : List Char}
    (h : part ∈ splitAt separator cs) : separator ∉ part := by
  induction cs generalizing part with
  | nil =>
    obtain rfl := List.mem_singleton.mp h
    exact List.not_mem_nil
  | cons c rest ih =>
    rw [splitAt] at h
    split_ifs at h with hc
    · rcases List.mem_cons.mp h with rfl | h
      · exact List.not_mem_nil
      · exact ih h
    · split at h
      · obtain rfl := List.mem_singleton.mp h
        exact fun hmem => hc (List.mem_singleton.mp hmem).symm
      next first parts heq =>
        rw [heq] at ih
        rcases List.mem_cons.mp h with rfl | h
        · rintro hmem
          rcases List.mem_cons.mp hmem with rfl | hmem
          · exact hc rfl
          · exact ih List.mem_cons_self hmem
        · exact ih (List.mem_cons_of_mem _ h)

/-! ### Blanks around a name -/

theorem dropEndWhile_eq_rdropWhile {α : Type} (test : α → Bool) (l : List α) :
    dropEndWhile test l = l.rdropWhile test := rfl

theorem trim_sublist (cs : List Char) : (trim cs).Sublist cs :=
  (List.rdropWhile_prefix _ _).sublist.trans (List.dropWhile_sublist _)

/-- What is trimmed stays as it is. -/
theorem trim_trim (cs : List Char) : trim (trim cs) = trim cs := by
  have hfront : (trim cs).dropWhile isBlank = trim cs := by
    rw [List.dropWhile_eq_self_iff]
    intro hpos
    -- the first character is the one that stopped the removal at the front
    have hpos' : 0 < (cs.dropWhile isBlank).length :=
      hpos.trans_le (List.rdropWhile_prefix _ _).length_le
    have hhead := (List.rdropWhile_prefix isBlank (cs.dropWhile isBlank)).getElem hpos
    have heq : (trim cs)[0] = (cs.dropWhile isBlank)[0] := hhead
    have hfirst := List.dropWhile_get_zero_not isBlank cs hpos'
    simpa [heq] using hfirst
  rw [trim, hfront, trim, dropEndWhile_eq_rdropWhile, dropEndWhile_eq_rdropWhile,
    List.rdropWhile_idempotent]

/-! ### Names -/

/-- A name that a dotted text can list. -/
structure IsSegment (name : String) : Prop where
  ne_empty : name ≠ ""
  not_mem : '.' ∉ name.toList
  trim_eq : trim name.toList = name.toList

theorem isSegment_of_mem_segments {dotted name : String} (h : name ∈ segments dotted) :
    IsSegment name := by
  obtain ⟨part, hpart, rfl⟩ := List.mem_map.mp h
  obtain ⟨hpart, hne⟩ := List.mem_filter.mp hpart
  obtain ⟨raw, hraw, rfl⟩ := List.mem_map.mp hpart
  refine ⟨fun hempty => ?_, ?_, ?_⟩
  · rw [← String.toList_inj, String.toList_ofList] at hempty
    rw [hempty] at hne
    exact absurd hne (by decide)
  · rw [String.toList_ofList]
    exact fun hmem => not_mem_of_mem_splitAt hraw ((trim_sublist raw).subset hmem)
  · rw [String.toList_ofList, trim_trim]

/-- The parts between the dots, without blanks at their ends, as far as something is left. -/
theorem segments_eq (dotted : String) :
    segments dotted
      = (((dotted.toList.splitOn '.').map fun part =>
          (part.dropWhile isBlank).rdropWhile isBlank).filter (· ≠ [])).map String.ofList := by
  rw [segments, splitAt_eq_splitOn]
  congr 1
  refine List.filter_congr fun part _ => ?_
  cases part <;> rfl

/-- Names that a dotted text can list are listed by the text that joins them. -/
theorem segments_intercalate {names : List String} (hne : names ≠ [])
    (h : ∀ name ∈ names, IsSegment name) :
    segments (String.intercalate "." names) = names := by
  have hparts : splitAt '.' (String.intercalate "." names).toList = names.map String.toList := by
    rw [splitAt_eq_splitOn, String.toList_intercalate]
    refine List.splitOn_intercalate '.' ?_ (by simpa using hne)
    simpa only [List.forall_mem_map] using fun name hname => (h name hname).not_mem
  have htrim : (names.map String.toList).map trim = names.map String.toList := by
    rw [List.map_map]
    exact List.map_congr_left fun name hname => (h name hname).trim_eq
  have hkeep : (names.map String.toList).filter (fun part => !part.isEmpty)
      = names.map String.toList := by
    refine List.filter_eq_self.mpr ?_
    simpa only [List.forall_mem_map, Bool.not_eq_true', List.isEmpty_eq_false_iff, ne_eq,
      String.toList_eq_nil_iff] using fun name hname => (h name hname).ne_empty
  rw [segments, hparts, htrim, hkeep, List.map_map, String.ofList_comp_toList, List.map_id]

/-! ### Lists that are joined -/

section Intercalate

variable {α : Type} {c : α} {separator : List α}

/-- A part ends at the first separator. -/
theorem eq_of_append_cons_eq {xs ys rest rest' : List α} (hx : c ∉ xs) (hy : c ∉ ys)
    (h : xs ++ c :: rest = ys ++ c :: rest') : xs = ys ∧ rest = rest' := by
  induction xs generalizing ys with
  | nil =>
    cases ys with
    | nil => exact ⟨rfl, (List.cons.inj h).2⟩
    | cons y ys => exact absurd (List.cons.inj h).1 (List.ne_of_not_mem_cons hy)
  | cons x xs ih =>
    cases ys with
    | nil => exact absurd (List.cons.inj h).1.symm (List.ne_of_not_mem_cons hx)
    | cons y ys =>
      rw [List.cons_append, List.cons_append, List.cons.injEq] at h
      obtain ⟨heq, hrest⟩ :=
        ih (List.not_mem_of_not_mem_cons hx) (List.not_mem_of_not_mem_cons hy) h.2
      rw [h.1, heq]
      exact ⟨rfl, hrest⟩

/-- Parts without the first character of the separator can be read off the joined list. -/
theorem eq_of_intercalate_eq {xs ys : List (List α)} (hxs : xs ≠ []) (hys : ys ≠ [])
    (hx : ∀ x ∈ xs, c ∉ x) (hy : ∀ y ∈ ys, c ∉ y)
    (h : (c :: separator).intercalate xs = (c :: separator).intercalate ys) : xs = ys := by
  induction xs generalizing ys with
  | nil => exact absurd rfl hxs
  | cons x xs ih =>
    obtain ⟨y, ys, rfl⟩ := List.exists_cons_of_ne_nil hys
    obtain ⟨hfirst, hrest⟩ := List.forall_mem_cons.mp hx
    obtain ⟨hfirst', hrest'⟩ := List.forall_mem_cons.mp hy
    cases xs with
    | nil =>
      cases ys with
      | nil =>
        rw [List.intercalate_singleton, List.intercalate_singleton] at h
        rw [h]
      | cons y' ys =>
        -- only the second list has a separator in it
        rw [List.intercalate_singleton, List.intercalate_cons_cons] at h
        exact absurd (by simp) (h ▸ hfirst)
    | cons x' xs =>
      cases ys with
      | nil =>
        rw [List.intercalate_singleton, List.intercalate_cons_cons] at h
        exact absurd (by simp) (h ▸ hfirst')
      | cons y' ys =>
        rw [List.intercalate_cons_cons, List.intercalate_cons_cons, List.append_assoc,
          List.append_assoc, List.cons_append, List.cons_append] at h
        obtain ⟨rfl, htail⟩ := eq_of_append_cons_eq hfirst hfirst' h
        rw [ih (by simp) (by simp) hrest hrest' (List.append_cancel_left htail)]

/-- Lists of any lengths can be read off the joined list, if no part is empty. -/
theorem eq_of_intercalate_eq_of_ne_nil {xs ys : List (List α)} (hx : ∀ x ∈ xs, x ≠ [] ∧ c ∉ x)
    (hy : ∀ y ∈ ys, y ≠ [] ∧ c ∉ y)
    (h : (c :: separator).intercalate xs = (c :: separator).intercalate ys) : xs = ys := by
  have hcons : ∀ (z : List α) (zs : List (List α)), z ≠ [] →
      (c :: separator).intercalate (z :: zs) ≠ [] := by
    intro z zs hz hnil
    cases zs with
    | nil => exact hz (List.intercalate_singleton.symm.trans hnil)
    | cons z' zs =>
      rw [List.intercalate_cons_cons, List.append_assoc] at hnil
      exact hz (List.append_eq_nil_iff.mp hnil).1
  cases xs with
  | nil =>
    cases ys with
    | nil => rfl
    | cons y ys => exact absurd h.symm (hcons y ys (hy y List.mem_cons_self).1)
  | cons x xs =>
    cases ys with
    | nil => exact absurd h (hcons x xs (hx x List.mem_cons_self).1)
    | cons y ys =>
      exact eq_of_intercalate_eq (by simp) (by simp) (fun x hmem => (hx x hmem).2)
        (fun y hmem => (hy y hmem).2) h

/-- A joined list holds what its parts and the separator hold. -/
theorem mem_intercalate {a : α} {sep : List α} {xs : List (List α)}
    (h : a ∈ sep.intercalate xs) : a ∈ sep ∨ ∃ x ∈ xs, a ∈ x := by
  induction xs with
  | nil => exact absurd h List.not_mem_nil
  | cons x xs ih =>
    cases xs with
    | nil =>
      rw [List.intercalate_singleton] at h
      exact .inr ⟨x, List.mem_cons_self, h⟩
    | cons y ys =>
      rw [List.intercalate_cons_cons, List.append_assoc] at h
      rcases List.mem_append.mp h with h | h
      · exact .inr ⟨x, List.mem_cons_self, h⟩
      · rcases List.mem_append.mp h with h | h
        · exact .inl h
        · exact (ih h).imp_right fun ⟨z, hz, hmem⟩ => ⟨z, List.mem_cons_of_mem _ hz, hmem⟩

end Intercalate

/-- Names without the first character of the separator can be read off the joined text. -/
theorem eq_of_string_intercalate_eq {c : Char} (separator : List Char) {xs ys : List String}
    (hxs : xs ≠ []) (hys : ys ≠ []) (hx : ∀ x ∈ xs, c ∉ x.toList) (hy : ∀ y ∈ ys, c ∉ y.toList)
    (h : String.intercalate (String.ofList (c :: separator)) xs
      = String.intercalate (String.ofList (c :: separator)) ys) : xs = ys := by
  rw [← String.toList_inj, String.toList_intercalate, String.toList_intercalate,
    String.toList_ofList] at h
  refine List.map_injective_iff.mpr (fun s t => String.toList_inj.mp)
    (eq_of_intercalate_eq ?_ ?_ ?_ ?_ h)
  · simpa using hxs
  · simpa using hys
  · simpa only [List.forall_mem_map] using hx
  · simpa only [List.forall_mem_map] using hy

/-! ### Lines and tokens -/

section Marks

variable {α : Type} {c : α}

/-- Parts that are each followed by a mark can be read off, if the mark stands nowhere else. -/
theorem eq_of_flatMap_append_eq {xs ys : List (List α)} (hx : ∀ x ∈ xs, c ∉ x)
    (hy : ∀ y ∈ ys, c ∉ y) (h : xs.flatMap (· ++ [c]) = ys.flatMap (· ++ [c])) : xs = ys := by
  induction xs generalizing ys with
  | nil =>
    cases ys with
    | nil => rfl
    | cons y ys => exact absurd h (by simp)
  | cons x xs ih =>
    cases ys with
    | nil => exact absurd h (by simp)
    | cons y ys =>
      obtain ⟨hfirst, hrest⟩ := List.forall_mem_cons.mp hx
      obtain ⟨hfirst', hrest'⟩ := List.forall_mem_cons.mp hy
      rw [List.flatMap_cons, List.flatMap_cons, List.append_assoc, List.append_assoc] at h
      obtain ⟨rfl, htail⟩ := eq_of_append_cons_eq hfirst hfirst' h
      rw [ih hrest hrest' htail]

/-- A mark before each part and one at the end is a mark at the start and one after each part. -/
theorem flatMap_cons_append_singleton (xs : List (List α)) :
    xs.flatMap (c :: ·) ++ [c] = c :: xs.flatMap (· ++ [c]) := by
  induction xs with
  | nil => rfl
  | cons x xs ih => simp [ih]

/-- Parts that each follow a mark can be read off, if the mark stands nowhere else. -/
theorem eq_of_flatMap_cons_eq {xs ys : List (List α)} (hx : ∀ x ∈ xs, c ∉ x)
    (hy : ∀ y ∈ ys, c ∉ y) (h : xs.flatMap (c :: ·) = ys.flatMap (c :: ·)) : xs = ys := by
  have hmarks := congrArg (· ++ [c]) h
  simp only [flatMap_cons_append_singleton, List.cons.injEq, true_and] at hmarks
  exact eq_of_flatMap_append_eq hx hy hmarks

end Marks

/-- Tokens on a line, each of them after a blank. -/
def line (tokens : List String) : String := String.join (tokens.map (" " ++ ·))

/-- Lines, each of them with its end. -/
def unlines (lines : List String) : String := String.join (lines.map (· ++ "\n"))

theorem line_nil : line [] = "" := rfl

theorem line_cons (token : String) (tokens : List String) :
    line (token :: tokens) = " " ++ token ++ line tokens := String.join_cons

theorem line_append (tokens tokens' : List String) :
    line (tokens ++ tokens') = line tokens ++ line tokens' := by
  rw [line, List.map_append, String.join_append]
  rfl

theorem unlines_nil : unlines [] = "" := rfl

theorem unlines_cons (l : String) (lines : List String) :
    unlines (l :: lines) = l ++ "\n" ++ unlines lines := String.join_cons

theorem unlines_append (lines lines' : List String) :
    unlines (lines ++ lines') = unlines lines ++ unlines lines' := by
  rw [unlines, List.map_append, String.join_append]
  rfl

theorem toList_line (tokens : List String) :
    (line tokens).toList = (tokens.map String.toList).flatMap (' ' :: ·) := by
  simp [line, String.toList_join, List.flatMap_map]

theorem toList_unlines (lines : List String) :
    (unlines lines).toList = (lines.map String.toList).flatMap (· ++ ['\n']) := by
  simp [unlines, String.toList_join, List.flatMap_map]

/-- A line with tokens starts with a blank. -/
theorem line_cons_ne {text token : String} {tokens : List String}
    (h : text.toList.head? ≠ some ' ') : line (token :: tokens) ≠ text := by
  rintro rfl
  rw [toList_line] at h
  exact h rfl

theorem line_singleton_injective : Function.Injective fun token => line [token] := by
  intro s t h
  simpa [← String.toList_inj, toList_line] using h

theorem eq_of_line_eq {tokens tokens' : List String} (h : ∀ t ∈ tokens, ' ' ∉ t.toList)
    (h' : ∀ t ∈ tokens', ' ' ∉ t.toList) (heq : line tokens = line tokens') :
    tokens = tokens' := by
  rw [← String.toList_inj, toList_line, toList_line] at heq
  refine List.map_injective_iff.mpr (fun s t => String.toList_inj.mp)
    (eq_of_flatMap_cons_eq ?_ ?_ heq)
  · simpa only [List.forall_mem_map] using h
  · simpa only [List.forall_mem_map] using h'

theorem eq_of_unlines_eq {lines lines' : List String} (h : ∀ l ∈ lines, '\n' ∉ l.toList)
    (h' : ∀ l ∈ lines', '\n' ∉ l.toList) (heq : unlines lines = unlines lines') :
    lines = lines' := by
  rw [← String.toList_inj, toList_unlines, toList_unlines] at heq
  refine List.map_injective_iff.mpr (fun s t => String.toList_inj.mp)
    (eq_of_flatMap_append_eq ?_ ?_ heq)
  · simpa only [List.forall_mem_map] using h
  · simpa only [List.forall_mem_map] using h'

end Keyspace.Text
