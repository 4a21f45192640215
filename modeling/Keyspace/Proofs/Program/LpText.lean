import Keyspace.Proofs.Checked.Program
import Keyspace.Proofs.Lists
import Keyspace.Proofs.Scalar.Numeral

/-!
# Reading a program back from its text

The text of a program is made of lines, and all but four of the lines are made of tokens.  The
tokens of a term are its sign, which a first term shows only if it is a minus, its magnitude unless
it is one, and the name of its variable (`Program.formTokens`).  A name is neither a numeral nor a
sign, so that each token tells what it is and where a term ends
(`Program.alike_of_magnitudeTokens_append_eq`).

Hence programs with one text have the same variables in the same order, the same objective and the
same constraints, up to the sign of zeros (`Program.alike_of_lpText_eq`).
-/

namespace Keyspace

open Scalar
open Text (IsToken IsNumeral IsName)

/-! ### Programs alike -/

section Alike

variable {α : Type} [Scalar α]

/-- The same variable with the same coefficient, up to the sign of zero. -/
structure TermAlike (t u : ℕ × α) : Prop where
  variable_eq : t.1 = u.1
  coefficient : Alike t.2 u.2

variable [ScalarText α]

/-- A term over the given variables with a finite coefficient. -/
structure IsTerm (names : List String) (finite : α → Prop) (t : ℕ × α) : Prop where
  variable_lt : t.1 < names.length
  finite_coefficient : finite t.2

/-- The same constraint, up to the sign of zeros.  The bounds have one text, and so are equal where
the texts of the zeros differ. -/
structure Constraint.Alike (c d : Constraint α) : Prop where
  name_eq : c.name = d.name
  terms : List.Forall₂ TermAlike c.terms d.terms
  sense_eq : c.sense = d.sense
  bound : Scalar.Alike c.bound d.bound
  plain_bound_eq : ScalarText.plain c.bound = ScalarText.plain d.bound

/-- The same program, up to the sign of zeros. -/
structure Program.Alike (p q : Program α) : Prop where
  names_eq : p.names = q.names
  objective : List.Forall₂ TermAlike p.objective q.objective
  constraints : List.Forall₂ Constraint.Alike p.constraints q.constraints

/-- A program over its own variables, with finite numbers and with different names that can be told
from numbers and signs. -/
structure Program.IsWritable (finite : α → Prop) (p : Program α) : Prop extends p.IsClosed where
  nodup_names : p.names.Nodup
  isName_names : ∀ name ∈ p.names, IsName name
  isName_constraints : ∀ c ∈ p.constraints, IsName c.name
  finite_objective : ∀ t ∈ p.objective, finite t.2
  finite_terms : ∀ c ∈ p.constraints, ∀ t ∈ c.terms, finite t.2
  finite_bound : ∀ c ∈ p.constraints, finite c.bound

end Alike

/-! ### Tokens of a program -/

namespace Program

variable {α : Type} [Scalar α] [ScalarText α]

section Tokens

variable (names : List String)

/-- A term after its sign. -/
def magnitudeTokens (t : ℕ × α) : List String :=
  if same (abs t.2) one then [names.getD t.1 ""]
  else [ScalarText.plain (abs t.2), names.getD t.1 ""]

/-- A term that follows others. -/
def laterTokens (t : ℕ × α) : List String := signText t.2 :: magnitudeTokens names t

/-- The first term of a form. -/
def firstTokens (t : ℕ × α) : List String :=
  if lt t.2 zero then laterTokens names t else magnitudeTokens names t

/-- The tokens of a form. -/
def formTokens : LinearForm α → List String
  | [] => ["0"]
  | t :: rest => firstTokens names t ++ rest.flatMap (laterTokens names)

/-- The tokens of a constraint. -/
def constraintTokens (c : Constraint α) : List String :=
  (c.name ++ ":") :: (formTokens names c.terms ++ [c.sense.text, ScalarText.plain c.bound])

end Tokens

/-- The lines of a program. -/
def lines (p : Program α) : List String :=
  "Minimize" :: Text.line ("obj:" :: formTokens p.names p.objective) :: "Subject To" ::
    ((p.constraints.map fun c => Text.line (constraintTokens p.names c)) ++
      "Binary" :: ((p.names.map fun name => Text.line [name]) ++ ["End"]))

variable (p : Program α)

theorem magnitudeText_eq_line (t : ℕ × α) :
    " " ++ p.magnitudeText t = Text.line (magnitudeTokens p.names t) := by
  rw [← String.toList_inj, magnitudeText, magnitudeTokens]
  split_ifs <;> simp [Text.toList_line, variableName]

theorem laterTermText_eq_line (t : ℕ × α) :
    p.laterTermText t = Text.line (laterTokens p.names t) := by
  rw [laterTermText, String.append_assoc, magnitudeText_eq_line, ← String.toList_inj]
  simp [Text.toList_line, laterTokens]

theorem formText_eq_line (f : LinearForm α) :
    p.formText f = Text.line (formTokens p.names f) := by
  cases f with
  | nil => rfl
  | cons t rest =>
    rw [formText, formTokens, firstTokens, magnitudeText_eq_line, laterTermText_eq_line,
      ← String.toList_inj]
    have hrest : rest.map p.laterTermText = rest.map fun t => Text.line (laterTokens p.names t) :=
      List.map_congr_left fun t _ => p.laterTermText_eq_line t
    rw [hrest]
    split_ifs <;>
      simp [Text.toList_line, String.toList_join, List.flatMap_map, List.map_flatMap,
        List.flatMap_assoc]

theorem constraintText_eq_line (c : Constraint α) :
    p.constraintText c = Text.line (constraintTokens p.names c) ++ "\n" := by
  have htokens : Text.line (constraintTokens p.names c)
      = " " ++ (c.name ++ ":") ++ (Text.line (formTokens p.names c.terms) ++
          (" " ++ c.sense.text ++ (" " ++ ScalarText.plain c.bound))) := by
    rw [constraintTokens, Text.line_cons, Text.line_append, Text.line_cons, Text.line_cons,
      Text.line_nil, String.append_empty]
  rw [constraintText, htokens, formText_eq_line]
  simp only [String.append_assoc]

theorem lpText_eq_unlines : p.lpText = Text.unlines p.lines := by
  have hconstraints : String.join (p.constraints.map p.constraintText)
      = Text.unlines (p.constraints.map fun c => Text.line (constraintTokens p.names c)) := by
    rw [Text.unlines, List.map_map]
    exact congrArg String.join (List.map_congr_left fun c _ => p.constraintText_eq_line c)
  have hnames : String.join (p.names.map fun name => " " ++ name ++ "\n")
      = Text.unlines (p.names.map fun name => Text.line [name]) := by
    rw [Text.unlines, List.map_map]
    simp only [Function.comp_def, Text.line_cons, Text.line_nil, String.append_empty]
  -- the fixed lines are read character by character, the others are left alone
  unfold lpText lines
  simp only [formText_eq_line, hconstraints, hnames]
  simp only [Text.unlines_cons, Text.unlines_append, Text.unlines_nil, Text.line_cons]
  generalize Text.line (formTokens p.names p.objective) = objective
  generalize Text.unlines (p.constraints.map _) = constraints
  generalize Text.unlines (p.names.map _) = names
  simp [← String.toList_inj]

/-! ### Reading tokens -/

section Read

variable {names : List String} {finite : α → Prop} (hnames : ∀ name ∈ names, IsName name)
  (hlegible : Legible finite) {t u : ℕ × α} (ht : IsTerm names finite t)
  (hu : IsTerm names finite u) {rest rest' : List String}

omit [Scalar α] [ScalarText α] in
include hnames ht in
theorem isName_variable : IsName (names.getD t.1 "") := by
  rw [List.getD_eq_getElem _ _ ht.variable_lt]
  exact hnames _ (List.getElem_mem ht.variable_lt)

include hlegible ht in
theorem isNumeral_magnitude : IsNumeral (ScalarText.plain (abs t.2)) :=
  hlegible.isNumeral _ (hlegible.finite_abs _ ht.finite_coefficient)

include hnames ht in
/-- A form with terms is not zero, which stands for none. -/
theorem zero_ne_firstTokens_append : ["0"] ≠ firstTokens names t ++ rest := by
  intro h
  rw [firstTokens, magnitudeTokens, laterTokens, signText] at h
  split_ifs at h
  · exact absurd (List.cons.inj h).1 (by decide)
  · exact (isName_variable hnames ht).ne_numeral Text.isNumeral_zero (List.cons.inj h).1.symm
  · exact absurd (List.cons.inj h).2 (by simp)

include hnames hlegible

include ht in
theorem isToken_of_mem_magnitudeTokens : ∀ token ∈ magnitudeTokens names t, IsToken token := by
  have hname := (isName_variable hnames ht).isToken
  have hnumeral := (isNumeral_magnitude hlegible ht).isToken
  rw [magnitudeTokens]
  split_ifs
  · simpa using hname
  · simpa using And.intro hnumeral hname

include ht in
theorem isToken_of_mem_laterTokens : ∀ token ∈ laterTokens names t, IsToken token := by
  rw [laterTokens, List.forall_mem_cons]
  refine ⟨?_, isToken_of_mem_magnitudeTokens hnames hlegible ht⟩
  rw [signText]
  split_ifs <;> decide

theorem isToken_of_mem_formTokens {f : LinearForm α} (hf : ∀ t ∈ f, IsTerm names finite t) :
    ∀ token ∈ formTokens names f, IsToken token := by
  intro token htoken
  cases f with
  | nil =>
    obtain rfl := List.mem_singleton.mp htoken
    decide
  | cons t rest =>
    obtain ⟨ht, hrest⟩ := List.forall_mem_cons.mp hf
    rw [formTokens, List.mem_append, List.mem_flatMap, firstTokens] at htoken
    rcases htoken with htoken | ⟨u, hu, htoken⟩
    · split_ifs at htoken
      · exact isToken_of_mem_laterTokens hnames hlegible ht token htoken
      · exact isToken_of_mem_magnitudeTokens hnames hlegible ht token htoken
    · exact isToken_of_mem_laterTokens hnames hlegible (hrest u hu) token htoken

include ht in
/-- A term without its sign does not start with one. -/
theorem minus_cons_ne_magnitudeTokens_append :
    "-" :: rest ≠ magnitudeTokens names t ++ rest' := by
  intro h
  rw [magnitudeTokens] at h
  split_ifs at h
  · exact (isName_variable hnames ht).ne_minus (List.cons.inj h).1.symm
  · exact (isNumeral_magnitude hlegible ht).ne_minus (List.cons.inj h).1.symm

variable (hnodup : names.Nodup)
include hnodup ht hu

/-- **A term can be read off its tokens**, whatever follows, once its sign is known. -/
theorem alike_of_magnitudeTokens_append_eq (hsign : lt t.2 zero = lt u.2 zero)
    (h : magnitudeTokens names t ++ rest = magnitudeTokens names u ++ rest') :
    TermAlike t u ∧ rest = rest' := by
  have hvariable : names.getD t.1 "" = names.getD u.1 "" → t.1 = u.1 := by
    rw [List.getD_eq_getElem _ _ ht.variable_lt, List.getD_eq_getElem _ _ hu.variable_lt]
    exact hnodup.getElem_inj_iff.mp
  have hcoefficient := hlegible.alike_of_abs _ _ ht.finite_coefficient hu.finite_coefficient hsign
  have htabs := hlegible.finite_abs _ ht.finite_coefficient
  have huabs := hlegible.finite_abs _ hu.finite_coefficient
  rw [magnitudeTokens, magnitudeTokens] at h
  split_ifs at h with hone hone' hone'
  · -- two magnitudes that are left out are both one
    obtain ⟨hname, hrest⟩ := List.cons.inj h
    have habs := hlegible.eq_of_same_one _ _ htabs huabs hone hone'
    exact ⟨⟨hvariable hname, hcoefficient (.inl habs)⟩, hrest⟩
  · -- only the second magnitude is written, where the first term has its name
    have hname := isName_variable hnames ht
    exact absurd (List.cons.inj h).1 (hname.ne_numeral (isNumeral_magnitude hlegible hu))
  · have hname := isName_variable hnames hu
    exact absurd (List.cons.inj h).1.symm (hname.ne_numeral (isNumeral_magnitude hlegible ht))
  · obtain ⟨hplain, h⟩ := List.cons.inj h
    obtain ⟨hname, hrest⟩ := List.cons.inj h
    have habs := hlegible.alike_of_plain_eq _ _ htabs huabs hplain
    exact ⟨⟨hvariable hname, hcoefficient habs⟩, hrest⟩

theorem alike_of_laterTokens_append_eq
    (h : laterTokens names t ++ rest = laterTokens names u ++ rest') :
    TermAlike t u ∧ rest = rest' := by
  obtain ⟨hsign, h⟩ := List.cons.inj h
  refine alike_of_magnitudeTokens_append_eq hnames hlegible ht hu hnodup ?_ h
  rw [signText, signText] at hsign
  revert hsign
  cases lt t.2 zero <;> cases lt u.2 zero <;> decide

/-- A first term shows a sign only if it is a minus. -/
theorem alike_of_firstTokens_append_eq
    (h : firstTokens names t ++ rest = firstTokens names u ++ rest') :
    TermAlike t u ∧ rest = rest' := by
  have hminus : ∀ t : ℕ × α, lt t.2 zero = true →
      laterTokens names t = "-" :: magnitudeTokens names t := by
    intro t hlt
    rw [laterTokens, signText, if_pos hlt]
  rw [firstTokens, firstTokens] at h
  split_ifs at h with htlt hult hult
  · exact alike_of_laterTokens_append_eq hnames hlegible ht hu hnodup h
  · rw [hminus t htlt] at h
    exact absurd h (minus_cons_ne_magnitudeTokens_append hnames hlegible hu)
  · rw [hminus u hult] at h
    exact absurd h.symm (minus_cons_ne_magnitudeTokens_append hnames hlegible ht)
  · refine alike_of_magnitudeTokens_append_eq hnames hlegible ht hu hnodup ?_ h
    rw [Bool.not_eq_true] at htlt hult
    rw [htlt, hult]

omit ht hu

/-- Terms that follow others are read one after the other. -/
theorem forall₂_of_flatMap_laterTokens_eq {f g : LinearForm α}
    (hf : ∀ t ∈ f, IsTerm names finite t) (hg : ∀ u ∈ g, IsTerm names finite u)
    (h : f.flatMap (laterTokens names) = g.flatMap (laterTokens names)) :
    List.Forall₂ TermAlike f g := by
  -- the tokens of one term are taken off both lists at a time
  induction f generalizing g with
  | nil =>
    cases g with
    | nil => exact .nil
    | cons u g => exact absurd h (by simp [laterTokens])
  | cons t f ih =>
    cases g with
    | nil => exact absurd h (by simp [laterTokens])
    | cons u g =>
      obtain ⟨ht, hf⟩ := List.forall_mem_cons.mp hf
      obtain ⟨hu, hg⟩ := List.forall_mem_cons.mp hg
      rw [List.flatMap_cons, List.flatMap_cons] at h
      obtain ⟨halike, hrest⟩ := alike_of_laterTokens_append_eq hnames hlegible ht hu hnodup h
      exact .cons halike (ih hf hg hrest)

/-- **A form can be read off its tokens.** -/
theorem forall₂_of_formTokens_eq {f g : LinearForm α}
    (hf : ∀ t ∈ f, IsTerm names finite t) (hg : ∀ u ∈ g, IsTerm names finite u)
    (h : formTokens names f = formTokens names g) : List.Forall₂ TermAlike f g := by
  cases f with
  | nil =>
    cases g with
    | nil => exact .nil
    | cons u g =>
      exact absurd h (zero_ne_firstTokens_append hnames (hg u List.mem_cons_self))
  | cons t f =>
    obtain ⟨ht, hf⟩ := List.forall_mem_cons.mp hf
    cases g with
    | nil => exact absurd h.symm (zero_ne_firstTokens_append hnames ht)
    | cons u g =>
      obtain ⟨hu, hg⟩ := List.forall_mem_cons.mp hg
      obtain ⟨halike, hrest⟩ := alike_of_firstTokens_append_eq hnames hlegible ht hu hnodup h
      exact .cons halike (forall₂_of_flatMap_laterTokens_eq hnames hlegible hnodup hf hg hrest)

/-- **A constraint can be read off its tokens.** -/
theorem alike_of_constraintTokens_eq {c d : Constraint α}
    (hc : ∀ t ∈ c.terms, IsTerm names finite t) (hd : ∀ t ∈ d.terms, IsTerm names finite t)
    (hcfinite : finite c.bound) (hdfinite : finite d.bound)
    (h : constraintTokens names c = constraintTokens names d) : c.Alike d := by
  obtain ⟨hname, h⟩ := List.cons.inj h
  -- the sense and the bound are the last two tokens
  obtain ⟨hterms, hlast⟩ := List.append_inj' h rfl
  obtain ⟨hsense, hlast⟩ := List.cons.inj hlast
  have hbound : ScalarText.plain c.bound = ScalarText.plain d.bound := (List.cons.inj hlast).1
  refine
    { name_eq := ?_
      terms := forall₂_of_formTokens_eq hnames hlegible hnodup hc hd hterms
      sense_eq := ?_
      bound := hlegible.alike_of_plain_eq _ _ hcfinite hdfinite hbound
      plain_bound_eq := hbound }
  · rw [← String.toList_inj, String.toList_append, String.toList_append] at hname
    exact String.toList_inj.mp (List.append_cancel_right hname)
  · revert hsense
    cases c.sense <;> cases d.sense <;> decide

end Read

/-! ### Reading lines -/

section Lines

variable {finite : α → Prop} {p q : Program α}

namespace IsWritable

variable (hp : p.IsWritable finite)
include hp

omit [Scalar α] [ScalarText α] in
theorem isTerm_objective : ∀ t ∈ p.objective, IsTerm p.names finite t :=
  fun t ht => ⟨hp.objective_lt t ht, hp.finite_objective t ht⟩

omit [Scalar α] [ScalarText α] in
theorem isTerm_terms {c : Constraint α} (hc : c ∈ p.constraints) :
    ∀ t ∈ c.terms, IsTerm p.names finite t :=
  fun t ht => ⟨hp.terms_lt c hc t ht, hp.finite_terms c hc t ht⟩

variable (hlegible : Legible finite)
include hlegible

theorem isToken_of_mem_objectiveTokens :
    ∀ token ∈ "obj:" :: formTokens p.names p.objective, IsToken token :=
  List.forall_mem_cons.mpr
    ⟨by decide, isToken_of_mem_formTokens hp.isName_names hlegible hp.isTerm_objective⟩

theorem isToken_of_mem_constraintTokens {c : Constraint α} (hc : c ∈ p.constraints) :
    ∀ token ∈ constraintTokens p.names c, IsToken token := by
  have hname : IsToken (c.name ++ ":") := (hp.isName_constraints c hc).isToken.append (by decide)
  have hsense : IsToken c.sense.text := by cases c.sense <;> decide
  have hbound := (hlegible.isNumeral _ (hp.finite_bound c hc)).isToken
  intro token htoken
  simp only [constraintTokens, List.mem_cons, List.mem_append, List.not_mem_nil, or_false] at htoken
  rcases htoken with rfl | htoken | rfl | rfl
  · exact hname
  · exact isToken_of_mem_formTokens hp.isName_names hlegible (hp.isTerm_terms hc) token htoken
  · exact hsense
  · exact hbound

/-- No line ends early. -/
theorem newline_not_mem_of_mem_lines : ∀ l ∈ p.lines, '\n' ∉ l.toList := by
  intro l hl
  simp only [lines, List.mem_cons, List.mem_append, List.mem_map, List.not_mem_nil, or_false] at hl
  rcases hl with rfl | rfl | rfl | ⟨c, hc, rfl⟩ | rfl | ⟨name, hname, rfl⟩ | rfl
  · decide
  · exact Text.newline_not_mem_line (hp.isToken_of_mem_objectiveTokens hlegible)
  · decide
  · exact Text.newline_not_mem_line (hp.isToken_of_mem_constraintTokens hlegible hc)
  · decide
  · exact Text.newline_not_mem_line (by simpa using (hp.isName_names name hname).isToken)
  · decide

end IsWritable

/-- The constraints end at the first line that does not start with a blank, and the names come
last. -/
theorem names_eq_of_lines_eq (h : p.lines = q.lines) :
    p.names = q.names ∧
    Text.line ("obj:" :: formTokens p.names p.objective)
      = Text.line ("obj:" :: formTokens q.names q.objective) ∧
    (p.constraints.map fun c => Text.line (constraintTokens p.names c))
      = q.constraints.map fun c => Text.line (constraintTokens q.names c) := by
  -- the lines of the constraints start with a blank
  have hbinary : ∀ p : Program α,
      "Binary" ∉ p.constraints.map fun c => Text.line (constraintTokens p.names c) := by
    intro p hmem
    obtain ⟨c, -, hline⟩ := List.mem_map.mp hmem
    exact absurd hline (Text.line_cons_ne (by decide))
  obtain ⟨-, h⟩ := List.cons.inj h
  obtain ⟨hobjective, h⟩ := List.cons.inj h
  obtain ⟨-, h⟩ := List.cons.inj h
  obtain ⟨hconstraints, h⟩ := Text.eq_of_append_cons_eq (hbinary p) (hbinary q) h
  have hnames : p.names = q.names :=
    List.map_injective_iff.mpr Text.line_singleton_injective (List.append_cancel_right h)
  exact ⟨hnames, hobjective, hconstraints⟩

/-- **The text of a program loses nothing** but the sign of zeros. -/
theorem alike_of_lpText_eq (hlegible : Legible finite) (hp : p.IsWritable finite)
    (hq : q.IsWritable finite) (h : p.lpText = q.lpText) : p.Alike q := by
  have hlines : p.lines = q.lines := by
    apply Text.eq_of_unlines_eq (hp.newline_not_mem_of_mem_lines hlegible)
      (hq.newline_not_mem_of_mem_lines hlegible)
    rw [← lpText_eq_unlines, ← lpText_eq_unlines, h]
  obtain ⟨hnames, hobjective, hconstraints⟩ := names_eq_of_lines_eq hlines
  have hqobjective : ∀ t ∈ q.objective, IsTerm p.names finite t := hnames ▸ hq.isTerm_objective
  refine ⟨hnames, ?_, forall₂_of_map_eq_map (fun c hc d hd hline => ?_) hconstraints⟩
  · have htokens := Text.tokens_eq_of_line_eq (hp.isToken_of_mem_objectiveTokens hlegible)
      (hq.isToken_of_mem_objectiveTokens hlegible) hobjective
    rw [← hnames] at htokens
    exact forall₂_of_formTokens_eq hp.isName_names hlegible hp.nodup_names hp.isTerm_objective
      hqobjective (List.cons.inj htokens).2
  · have htokens := Text.tokens_eq_of_line_eq (hp.isToken_of_mem_constraintTokens hlegible hc)
      (hq.isToken_of_mem_constraintTokens hlegible hd) hline
    have hdterms : ∀ t ∈ d.terms, IsTerm p.names finite t := hnames ▸ hq.isTerm_terms hd
    rw [← hnames] at htokens
    exact alike_of_constraintTokens_eq hp.isName_names hlegible hp.nodup_names (hp.isTerm_terms hc)
      hdterms (hp.finite_bound c hc) (hq.finite_bound d hd) htokens

end Lines

end Program

namespace Cover

/-- A choice of at least one of two, `a` at a cost and `b` at a gain. -/
def program (names : List String) : Program Exact where
  names
  objective := [(0, .finite 3), (1, .finite (-2))]
  constraints := [⟨"cover", [(0, .finite 1), (1, .finite 1)], .atLeast, .finite 1⟩]

theorem isWritable_program {names : List String} (hlength : names.length = 2)
    (hnodup : names.Nodup) (hnames : ∀ name ∈ names, Text.IsName name) :
    (program names).IsWritable fun x => ∃ q, x = .finite q where
  objective_lt := by simp [program, hlength]
  terms_lt := by
    intro c hc t ht
    obtain rfl := List.mem_singleton.mp hc
    rw [program, hlength]
    rcases List.mem_pair.mp ht with rfl | rfl
    · exact Nat.zero_lt_two
    · exact Nat.one_lt_two
  nodup_names := hnodup
  isName_names := hnames
  isName_constraints := by
    intro c hc
    obtain rfl := List.mem_singleton.mp hc
    exact Text.isName_of_isAlpha (by decide) (by decide)
  finite_objective := by simp [program]
  finite_terms := by
    intro c hc t ht
    obtain rfl := List.mem_singleton.mp hc
    rcases List.mem_pair.mp ht with rfl | rfl
    · exact ⟨1, rfl⟩
    · exact ⟨1, rfl⟩
  finite_bound := by simp [program]

end Cover

/-- The text of a small program is read back, and it is not that of the program with the names of
the two variables exchanged. -/
theorem Program.alike_of_lpText_eq_cover :
    (Cover.program ["a", "b"]).lpText
      = "Minimize\n obj: 3 a - 2 b\nSubject To\n cover: a + b >= 1\nBinary\n a\n b\nEnd\n" ∧
    (Cover.program ["a", "b"]).Alike (Cover.program ["a", "b"]) ∧
    (Cover.program ["a", "b"]).lpText ≠ (Cover.program ["b", "a"]).lpText := by
  have hname : ∀ name : String, name = "a" ∨ name = "b" → Text.IsName name := by
    rintro name (rfl | rfl)
    · exact Text.isName_of_isAlpha (by decide) (by decide)
    · exact Text.isName_of_isAlpha (by decide) (by decide)
  have hab : (Cover.program ["a", "b"]).IsWritable _ :=
    Cover.isWritable_program rfl (by decide) fun name h => hname name (by simpa using h)
  have hba : (Cover.program ["b", "a"]).IsWritable _ :=
    Cover.isWritable_program rfl (by decide) fun name h => hname name (by simpa [or_comm] using h)
  refine ⟨by decide +kernel, Program.alike_of_lpText_eq Exact.legible hab hab rfl, fun heq => ?_⟩
  have halike := Program.alike_of_lpText_eq Exact.legible hab hba heq
  exact absurd halike.names_eq (by decide)

end Keyspace
