import Keyspace.Proofs.Scalar.Exact
import Keyspace.Proofs.Text.Segments
import Keyspace.Scalar.Text

/-!
# Numbers as tokens

The plain text of a finite double is a numeral: a digit comes first, after a minus sign or not, and
there is no white space in it (`isNumeral_plain_float`).  So it is a token of a line, and can be
told from a name and from a sign.

`Legible` says what else it takes to read a number back from its sign and the text of its magnitude:
that no two numbers have the same text, but for the two zeros of doubles, and that a number is its
magnitude and its sign.  Exact scalars, written as fractions, are legible (`Exact.legible`).
-/

namespace Keyspace

namespace Text

/-- A text without white space. -/
def IsToken (text : String) : Prop := ∀ c ∈ text.toList, isBlank c = false

/-- A digit, after a minus sign or not, and what follows it up to the next white space. -/
structure IsNumeral (text : String) : Prop where
  isToken : IsToken text
  starts : ∃ d rest, d.isDigit = true ∧ (text.toList = d :: rest ∨ text.toList = '-' :: d :: rest)

/-- A text without white space that starts neither as numerals do nor with their sign.  A letter of
any alphabet will do at the start. -/
structure IsName (text : String) : Prop where
  isToken : IsToken text
  starts : ∀ c rest, text.toList = c :: rest → c.isDigit = false ∧ c ≠ '-'

theorem toNat_of_isDigit {c : Char} (h : c.isDigit = true) : 48 ≤ c.toNat ∧ c.toNat ≤ 57 := by
  rw [Char.isDigit, Bool.and_eq_true, decide_eq_true_eq, decide_eq_true_eq] at h
  exact h

theorem toNat_of_isAlpha {c : Char} (h : c.isAlpha = true) : 65 ≤ c.toNat := by
  rcases Bool.or_eq_true_iff.mp h with hupper | hlower
  · exact (of_decide_eq_true hupper).1
  · -- small letters come after the capital ones
    have hbound : 97 ≤ c.toNat := of_decide_eq_true (Bool.and_eq_true_iff.mp hlower).1
    omega

theorem isBlank_of_isDigit {c : Char} (h : c.isDigit = true) : isBlank c = false := by
  have hbounds := toNat_of_isDigit h
  rw [isBlank, List.contains_eq_mem, decide_eq_false_iff_not]
  simp only [blankCodes, List.mem_cons, List.not_mem_nil, or_false]
  omega

variable {text name : String}

instance : DecidablePred IsToken := fun text =>
  decidable_of_iff (text.toList.all fun c => !isBlank c) (by simp [IsToken])

theorem IsToken.append {text' : String} (h : IsToken text) (h' : IsToken text') :
    IsToken (text ++ text') := by
  intro c hc
  rw [String.toList_append, List.mem_append] at hc
  exact hc.elim (h c) (h' c)

theorem IsToken.blank_not_mem (h : IsToken text) : ' ' ∉ text.toList :=
  fun hmem => absurd (h _ hmem) (by decide)

theorem IsToken.newline_not_mem (h : IsToken text) : '\n' ∉ text.toList :=
  fun hmem => absurd (h _ hmem) (by decide)

/-- A line ends after its tokens. -/
theorem newline_not_mem_line {tokens : List String} (h : ∀ token ∈ tokens, IsToken token) :
    '\n' ∉ (line tokens).toList := by
  rw [toList_line]
  intro hmem
  obtain ⟨cs, hcs, hmem⟩ := List.mem_flatMap.mp hmem
  obtain ⟨token, htoken, rfl⟩ := List.mem_map.mp hcs
  rcases List.mem_cons.mp hmem with heq | hmem
  · exact absurd heq (by decide)
  · exact (h token htoken).newline_not_mem hmem

/-- The tokens of a line can be read back. -/
theorem tokens_eq_of_line_eq {tokens tokens' : List String} (h : ∀ token ∈ tokens, IsToken token)
    (h' : ∀ token ∈ tokens', IsToken token) (heq : line tokens = line tokens') :
    tokens = tokens' :=
  eq_of_line_eq (fun t ht => (h t ht).blank_not_mem) (fun t ht => (h' t ht).blank_not_mem) heq

/-- A text that starts with a letter is a name, if there is no white space in it. -/
theorem isName_of_isAlpha (htoken : IsToken name)
    (halpha : name.toList.head?.any Char.isAlpha = true) : IsName name := by
  refine ⟨htoken, fun c rest hstart => ?_⟩
  rw [hstart] at halpha
  have hbound := toNat_of_isAlpha halpha
  constructor
  · -- digits come before letters
    apply Bool.eq_false_iff.mpr
    intro hdigit
    have hbound' := toNat_of_isDigit hdigit
    omega
  · rintro rfl
    exact absurd hbound (by decide)

theorem IsName.ne_numeral (hname : IsName name) (htext : IsNumeral text) : name ≠ text := by
  rintro rfl
  obtain ⟨d, rest, hd, hstart | hstart⟩ := htext.starts
  · exact absurd hd (by rw [(hname.starts d rest hstart).1]; decide)
  · exact (hname.starts '-' (d :: rest) hstart).2 rfl

theorem IsName.ne_minus (hname : IsName name) : name ≠ "-" := by
  rintro rfl
  exact (hname.starts '-' [] rfl).2 rfl

/-- A minus sign alone is no numeral. -/
theorem IsNumeral.ne_minus (htext : IsNumeral text) : text ≠ "-" := by
  rintro rfl
  obtain ⟨d, rest, hd, hstart | hstart⟩ := htext.starts
  · obtain ⟨rfl, -⟩ := List.cons.inj hstart
    exact absurd hd (by decide)
  · exact absurd (List.cons.inj hstart).2 (by simp)

theorem isNumeral_zero : IsNumeral "0" where
  isToken := by decide
  starts := ⟨'0', [], rfl, .inl rfl⟩

end Text

/-! ### Plain texts of doubles -/

namespace Decimal

section Positional

variable {digits : List Char} {exponent : Int}

/-- A whole number is written without a point. -/
theorem positionalText_false : positionalText false digits exponent =
    if 0 ≤ exponent then
      if digits = ['0'] then digits else digits ++ List.replicate exponent.toNat '0'
    else if digits.length ≤ (-exponent).toNat then
      '0' :: '.' :: (List.replicate ((-exponent).toNat - digits.length) '0' ++ digits)
    else
      digits.take (digits.length - (-exponent).toNat) ++
        '.' :: digits.drop (digits.length - (-exponent).toNat) := rfl

/-- A plain number holds its digits, further zeros and at most a point. -/
theorem mem_positionalText {c : Char} (h : c ∈ positionalText false digits exponent) :
    c ∈ digits ∨ c = '0' ∨ c = '.' := by
  rw [positionalText_false] at h
  split_ifs at h
  · exact .inl h
  · rcases List.mem_append.mp h with h | h
    · exact .inl h
    · exact .inr (.inl (List.eq_of_mem_replicate h))
  · simp only [List.mem_cons, List.mem_append] at h
    rcases h with h | h | h | h
    · exact .inr (.inl h)
    · exact .inr (.inr h)
    · exact .inr (.inl (List.eq_of_mem_replicate h))
    · exact .inl h
  · rcases List.mem_append.mp h with h | h
    · exact .inl (List.mem_of_mem_take h)
    · rcases List.mem_cons.mp h with h | h
      · exact .inr (.inr h)
      · exact .inl (List.mem_of_mem_drop h)

/-- There is a digit before the point. -/
theorem exists_positionalText_eq_cons (exponent : ℤ) (hne : digits ≠ [])
    (hdigits : ∀ c ∈ digits, c.isDigit = true) :
    ∃ d rest, d.isDigit = true ∧ positionalText false digits exponent = d :: rest := by
  obtain ⟨d, tail, rfl⟩ := List.exists_cons_of_ne_nil hne
  have hd := hdigits d List.mem_cons_self
  rw [positionalText_false]
  split_ifs with hpositive hzero hshort
  · exact ⟨d, tail, hd, rfl⟩
  · exact ⟨d, tail ++ List.replicate exponent.toNat '0', hd, rfl⟩
  · exact ⟨'0', _, rfl, rfl⟩
  · -- some digits stand before the point, the first among them
    obtain ⟨n, hn⟩ : ∃ n, (d :: tail).length - (-exponent).toNat = n + 1 :=
      Nat.exists_eq_succ_of_ne_zero (by omega)
    rw [hn]
    exact ⟨d, _, hd, rfl⟩

end Positional

theorem isNumeral_readingText (negative : Bool) (magnitude : Dyadic) :
    Text.IsNumeral (plainStyle.readingText (.finite negative magnitude)) := by
  obtain ⟨body, hbody⟩ : ∃ body, body = plainStyle.digitsText (magnitude.shortest .up) := ⟨_, rfl⟩
  have htext : (plainStyle.readingText (.finite negative magnitude)).toList
      = if negative then '-' :: body else body := by
    rw [hbody]
    exact String.toList_ofList
  have hdigits : ∀ c ∈ (Nat.repr (magnitude.shortest .up).digits).toList, c.isDigit = true := by
    rw [Nat.toList_repr]
    exact fun c => Nat.isDigit_of_mem_toDigits (by decide) (by decide)
  have hne : (Nat.repr (magnitude.shortest .up).digits).toList ≠ [] := by
    rw [Nat.toList_repr]
    exact Nat.toDigits_ne_nil
  have htoken : ∀ c ∈ body, Text.isBlank c = false := by
    intro c hc
    rw [hbody] at hc
    rcases mem_positionalText hc with hc | rfl | rfl
    · exact Text.isBlank_of_isDigit (hdigits c hc)
    · rfl
    · rfl
  obtain ⟨d, rest, hd, hstart⟩ :=
    exists_positionalText_eq_cons (magnitude.shortest .up).exponent hne hdigits
  have hstart : body = d :: rest := hbody.trans hstart
  constructor
  · intro c hc
    rw [htext] at hc
    split_ifs at hc
    · rcases List.mem_cons.mp hc with rfl | hc
      · rfl
      · exact htoken c hc
    · exact htoken c hc
  · refine ⟨d, rest, hd, ?_⟩
    rw [htext, hstart]
    cases negative
    · exact .inl rfl
    · exact .inr rfl

end Decimal

/-- **The plain text of a finite double is a numeral.** -/
theorem isNumeral_plain_float {x : Float} {negative : Bool} {magnitude : Decimal.Dyadic}
    (h : Decimal.Reading.ofFloat x = .finite negative magnitude) :
    Text.IsNumeral (ScalarText.plain x) := by
  show Text.IsNumeral (plainStyle.readingText (Decimal.Reading.ofFloat x))
  rw [h]
  exact Decimal.isNumeral_readingText negative magnitude

/-! ### Numbers that can be read back -/

namespace Scalar

variable {α : Type} [Scalar α]

/-- The same number, or zero on both sides, of whatever sign. -/
def Alike (x y : α) : Prop := x = y ∨ same x zero = true ∧ same y zero = true

/-- Numbers that can be read back from the plain texts of their magnitudes and from their signs, up
to the sign of zero. -/
structure Legible [ScalarText α] (finite : α → Prop) : Prop where
  isNumeral : ∀ x, finite x → Text.IsNumeral (ScalarText.plain x)
  alike_of_plain_eq : ∀ x y, finite x → finite y → ScalarText.plain x = ScalarText.plain y →
    Alike x y
  finite_abs : ∀ x, finite x → finite (abs x)
  /-- A magnitude and a sign make one number. -/
  alike_of_abs : ∀ x y, finite x → finite y → lt x zero = lt y zero → Alike (abs x) (abs y) →
    Alike x y
  eq_of_same_one : ∀ x y, finite x → finite y → same x one = true → same y one = true → x = y

end Scalar

namespace Exact

/-- The denominator after a slash, if it is not one. -/
def slashed (den : ℕ) : List Char := if den = 1 then [] else '/' :: Nat.toDigits 10 den

/-- The text of a fraction in lowest terms. -/
def fractionText (q : ℚ) : String :=
  String.ofList
    ((if q.num < 0 then ['-'] else []) ++ (Nat.toDigits 10 q.num.natAbs ++ slashed q.den))

/-- Numbers are written as fractions, other values as they are for doubles. -/
def plainText : Exact → String
  | finite q => fractionText q
  | posInf => plainStyle.infinite false
  | negInf => plainStyle.infinite true
  | nan => plainStyle.nan

instance : ScalarText Exact where
  plain := plainText
  fixed _ := plainText
  json := plainText

theorem isDigit_of_mem_toDigits {n : ℕ} {c : Char} (h : c ∈ Nat.toDigits 10 n) :
    c.isDigit = true :=
  Nat.isDigit_of_mem_toDigits (by decide) (by decide) h

theorem toDigits_injective {n n' : ℕ} (h : Nat.toDigits 10 n = Nat.toDigits 10 n') : n = n' := by
  have hread : ∀ n, Nat.ofDigitChars 10 (Nat.toDigits 10 n) 0 = n := fun n =>
    Nat.ofDigitChars_toDigits (by decide) (by decide)
  rw [← hread n, h, hread]

theorem mem_slashed {den : ℕ} {c : Char} (h : c ∈ slashed den) : c = '/' ∨ c.isDigit = true := by
  rw [slashed] at h
  split_ifs at h
  · exact absurd h List.not_mem_nil
  · exact (List.mem_cons.mp h).imp_right isDigit_of_mem_toDigits

theorem slashed_injective {den den' : ℕ} (h : slashed den = slashed den') : den = den' := by
  rw [slashed, slashed] at h
  split_ifs at h with hone hone' hone'
  · rw [hone, hone']
  · exact toDigits_injective (List.cons.inj h).2

/-- The numerator ends where its digits end. -/
theorem eq_of_toDigits_append_slashed_eq {num num' den den' : ℕ}
    (h : Nat.toDigits 10 num ++ slashed den = Nat.toDigits 10 num' ++ slashed den') :
    num = num' ∧ den = den' := by
  -- a slash is not a digit, so that the digits at the start are those of the numerator
  have hspan : ∀ num den,
      (Nat.toDigits 10 num ++ slashed den).takeWhile Char.isDigit = Nat.toDigits 10 num := by
    intro num den
    rw [List.takeWhile_append_of_pos fun c => isDigit_of_mem_toDigits, slashed]
    split_ifs
    · simp
    · rw [List.takeWhile_cons_of_neg (by decide), List.append_nil]
  have hnum : Nat.toDigits 10 num = Nat.toDigits 10 num' := by rw [← hspan num den, h, hspan]
  rw [hnum] at h
  exact ⟨toDigits_injective hnum, slashed_injective (List.append_cancel_left h)⟩

theorem isNumeral_fractionText (q : ℚ) : Text.IsNumeral (fractionText q) := by
  obtain ⟨d, rest, hdigits⟩ :=
    List.exists_cons_of_ne_nil (Nat.toDigits_ne_nil (n := q.num.natAbs) (b := 10))
  have hd : d.isDigit = true :=
    isDigit_of_mem_toDigits (n := q.num.natAbs) (by rw [hdigits]; exact List.mem_cons_self)
  constructor
  · intro c hc
    rw [fractionText, String.toList_ofList] at hc
    rcases List.mem_append.mp hc with hc | hc
    · split_ifs at hc
      · obtain rfl := List.mem_singleton.mp hc
        rfl
      · exact absurd hc List.not_mem_nil
    · rcases List.mem_append.mp hc with hc | hc
      · exact Text.isBlank_of_isDigit (isDigit_of_mem_toDigits hc)
      · rcases mem_slashed hc with rfl | hc
        · rfl
        · exact Text.isBlank_of_isDigit hc
  · refine ⟨d, rest ++ slashed q.den, hd, ?_⟩
    rw [fractionText, String.toList_ofList, hdigits]
    split_ifs
    · exact .inr rfl
    · exact .inl rfl

theorem fractionText_injective {p q : ℚ} (h : fractionText p = fractionText q) : p = q := by
  -- only the sign holds a minus
  have hminus : ∀ num den rest, '-' :: rest ≠ Nat.toDigits 10 num ++ slashed den := by
    intro num den rest heq
    have hmem : '-' ∈ Nat.toDigits 10 num ++ slashed den := heq ▸ List.mem_cons_self
    rcases List.mem_append.mp hmem with hmem | hmem
    · exact absurd (isDigit_of_mem_toDigits hmem) (by decide)
    · exact absurd (mem_slashed hmem) (by decide)
  rw [← String.toList_inj, fractionText, fractionText, String.toList_ofList,
    String.toList_ofList] at h
  have heq : ((p.num < 0) ↔ q.num < 0) ∧ p.num.natAbs = q.num.natAbs ∧ p.den = q.den := by
    split_ifs at h with hp hq hq
    · exact ⟨iff_of_true hp hq, eq_of_toDigits_append_slashed_eq (List.cons.inj h).2⟩
    · exact absurd h (hminus _ _ _)
    · exact absurd h.symm (hminus _ _ _)
    · exact ⟨iff_of_false hp hq, eq_of_toDigits_append_slashed_eq h⟩
  obtain ⟨hsign, hnum, hden⟩ := heq
  exact Rat.ext (by omega) hden

/-- Fractions can be read back. -/
theorem legible : Scalar.Legible fun x => ∃ q, x = finite q where
  isNumeral := by
    rintro _ ⟨q, rfl⟩
    exact isNumeral_fractionText q
  alike_of_plain_eq := by
    rintro _ _ ⟨p, rfl⟩ ⟨q, rfl⟩ h
    exact .inl (congrArg finite (fractionText_injective h))
  finite_abs := by
    rintro _ ⟨q, rfl⟩
    exact ⟨|q|, abs_finite q⟩
  alike_of_abs := by
    rintro _ _ ⟨p, rfl⟩ ⟨q, rfl⟩ hsign habs
    have habs : |p| = |q| := by
      rcases habs with heq | ⟨hp, hq⟩
      · simpa using heq
      · simp only [abs_finite, zero_eq, same_finite, decide_eq_true_eq] at hp hq
        rw [hp, hq]
    simp only [zero_eq, lt_finite, decide_eq_decide] at hsign
    left
    congr 1
    rcases lt_or_ge p 0 with hp | hp
    · rw [abs_of_neg hp, abs_of_neg (hsign.mp hp)] at habs
      exact neg_injective habs
    · have hq : 0 ≤ q := not_lt.mp fun hq => absurd (hsign.mpr hq) (not_lt.mpr hp)
      rwa [abs_of_nonneg hp, abs_of_nonneg hq] at habs
  eq_of_same_one := by
    rintro _ _ ⟨p, rfl⟩ ⟨q, rfl⟩ hp hq
    simp only [one_eq, same_finite, decide_eq_true_eq] at hp hq
    rw [hp, hq]

end Exact

end Keyspace
