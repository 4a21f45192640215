import Keyspace.Json.Printer
import Keyspace.Json.Reader
import Mathlib.Data.List.Basic
import Mathlib.Data.List.TakeDrop

/-!
# Reading what is written

`Json.read?` gives back the value whose text `Json.compact` has written (`read?_compact`), as long
as its number tokens are ones that can be read (`Json.IsReadable`).  Hence values with the same text
are the same (`eq_of_compact_eq`).

A reader takes its value off the front of whatever follows.  The lemmas say so for one escaped
character, a quoted text, a value, and the items and members of a list or an object; the induction
is on the value, and the fuel needed is bounded by the length of its text.
-/

namespace Keyspace.Json

/-! ### Quoted texts -/

theorem readCodePoint?_hexText {n : ℕ} (hn : n < 0x20) (rest : List Char) :
    readCodePoint? (Digest.hexText n 4 ++ rest) = some (Char.ofNat n, rest) := by
  have hdigits : hexNumber? (Digest.hexText n 4) = some n := by
    revert n
    decide
  have hunit : readUnit? (Digest.hexText n 4 ++ rest) = some (n, rest) := by
    have hlength : (Digest.hexText n 4).length = 4 := rfl
    rw [readUnit?, List.take_left' hlength, List.drop_left' hlength, if_pos hlength, hdigits]
    rfl
  simp [readCodePoint?, hunit, show ¬ 0xD800 ≤ n by omega, show ¬ 0xDC00 ≤ n by omega]

/-- A character that needs no escape is read as it stands. -/
theorem readQuoted?_plain {c : Char} (hquote : c ≠ '"') (hbackslash : c ≠ '\\')
    (hcontrol : ¬ c.toNat < 0x20) (read rest : List Char) (fuel : ℕ) :
    readQuoted? read (c :: rest) (fuel + 1) = readQuoted? (c :: read) rest fuel := by
  rw [readQuoted?, if_neg hcontrol]
  · exact hquote
  · exact fun _ h _ => hbackslash h
  · exact fun _ _ h _ => hbackslash h

/-- An escaped character is read as the character. -/
theorem readQuoted?_escapeChar (c : Char) (read rest : List Char) (fuel : ℕ) :
    readQuoted? read (escapeChar c ++ rest) (fuel + 1) = readQuoted? (c :: read) rest fuel := by
  unfold escapeChar
  split
  all_goals try rfl
  next hquote hbackslash hb hf hn hr ht =>
    split_ifs with hcontrol
    · -- the escape by number
      show (readCodePoint? (Digest.hexText c.toNat 4 ++ rest)).bind
        (fun p => readQuoted? (p.1 :: read) p.2 fuel) = _
      rw [readCodePoint?_hexText hcontrol, Char.ofNat_toNat]
      rfl
    · exact readQuoted?_plain hquote hbackslash hcontrol read rest fuel

theorem readQuoted?_flatMap {cs : List Char} {fuel : ℕ} (hfuel : cs.length < fuel)
    (read rest : List Char) :
    readQuoted? read (cs.flatMap escapeChar ++ '"' :: rest) fuel
      = some (String.ofList (read.reverse ++ cs), rest) := by
  induction cs generalizing read fuel with
  | nil =>
    obtain ⟨fuel, rfl⟩ := Nat.exists_eq_succ_of_ne_zero (Nat.ne_of_gt hfuel)
    simp [readQuoted?]
  | cons c cs ih =>
    obtain ⟨fuel, rfl⟩ := Nat.exists_eq_add_one.mpr (Nat.zero_lt_of_lt hfuel)
    rw [List.flatMap_cons, List.append_assoc, readQuoted?_escapeChar,
      ih (Nat.lt_of_succ_lt_succ hfuel), List.reverse_cons, List.append_assoc]
    rfl

theorem length_le_length_flatMap_escapeChar (cs : List Char) :
    cs.length ≤ (cs.flatMap escapeChar).length := by
  have hone : ∀ c, 1 ≤ (escapeChar c).length := by
    intro c
    unfold escapeChar
    split
    all_goals try decide
    split_ifs <;> simp
  induction cs with
  | nil => exact Nat.zero_le _
  | cons c cs ih =>
    have := hone c
    simp only [List.flatMap_cons, List.length_cons, List.length_append]
    omega

theorem toList_quoted (s : String) :
    (quoted s).toList = '"' :: (s.toList.flatMap escapeChar ++ ['"']) :=
  String.toList_ofList

/-- A quoted text is read back once its opening quote is. -/
theorem readQuoted?_quoted (s : String) (rest : List Char) :
    readQuoted? [] (s.toList.flatMap escapeChar ++ '"' :: rest)
        ((s.toList.flatMap escapeChar ++ '"' :: rest).length + 1) = some (s, rest) := by
  have hlength := length_le_length_flatMap_escapeChar s.toList
  rw [readQuoted?_flatMap (by simp only [List.length_append, List.length_cons]; omega)]
  simp

/-! ### Texts of lists and objects -/

theorem compactItems_eq_map (items : List Json) : compactItems items = items.map compact := by
  induction items with
  | nil => rfl
  | cons item rest ih => rw [compactItems, ih, List.map_cons]

theorem compactMembers_eq_map (members : List (String × Json)) :
    compactMembers members = members.map fun m => quoted m.1 ++ ":" ++ m.2.compact := by
  induction members with
  | nil => rfl
  | cons m rest ih => rw [compactMembers, ih, List.map_cons]

/-- The texts of items with commas between them. -/
def itemsText (items : List Json) : List Char :=
  [','].intercalate (items.map fun item => item.compact.toList)

/-- The text of a member. -/
def memberText (m : String × Json) : List Char := (quoted m.1).toList ++ ':' :: m.2.compact.toList

/-- The texts of members with commas between them. -/
def membersText (members : List (String × Json)) : List Char :=
  [','].intercalate (members.map memberText)

theorem itemsText_cons_cons (item next : Json) (items : List Json) :
    itemsText (item :: next :: items)
      = item.compact.toList ++ ',' :: itemsText (next :: items) := by
  rw [itemsText, List.map_cons, List.map_cons, List.intercalate_cons_cons, List.append_assoc]
  rfl

theorem membersText_cons_cons (m next : String × Json) (members : List (String × Json)) :
    membersText (m :: next :: members) = memberText m ++ ',' :: membersText (next :: members) := by
  rw [membersText, List.map_cons, List.map_cons, List.intercalate_cons_cons, List.append_assoc]
  rfl

theorem toList_compact_array (items : List Json) :
    (array items).compact.toList = '[' :: (itemsText items ++ [']']) := by
  rw [compact, compactItems_eq_map, String.toList_append, String.toList_append,
    String.toList_intercalate, List.map_map]
  rfl

theorem toList_compact_object (members : List (String × Json)) :
    (object members).compact.toList = '\x7b' :: (membersText members ++ ['\x7d']) := by
  have hmembers : members.map (String.toList ∘ fun m => quoted m.1 ++ ":" ++ m.2.compact)
      = members.map memberText := by
    refine List.map_congr_left fun m _ => ?_
    rw [Function.comp, String.toList_append, String.toList_append, List.append_assoc]
    rfl
  rw [compact, compactMembers_eq_map, String.toList_append, String.toList_append,
    String.toList_intercalate, List.map_map, hmembers]
  rfl

/-! ### Values -/

/-- Values whose number tokens can be read. -/
inductive IsReadable : Json → Prop
  | null : IsReadable null
  | bool (b : Bool) : IsReadable (bool b)
  | number {token : String} (chars : ∀ c ∈ token.toList, isNumberChar c = true)
      (digit : token.toList.any Char.isDigit = true) : IsReadable (number token)
  | text (s : String) : IsReadable (text s)
  | array {items : List Json} (values : ∀ item ∈ items, IsReadable item) : IsReadable (array items)
  | object {members : List (String × Json)} (values : ∀ m ∈ members, IsReadable m.2) :
      IsReadable (object members)

/-- What follows a value does not carry on a number. -/
def EndsNumber (rest : List Char) : Prop := ∀ c ∈ rest.head?, isNumberChar c = false

/-- The reader takes the value off the front of what follows it. -/
def IsReadBack (j : Json) : Prop :=
  ∀ rest fuel, j.compact.toList.length ≤ fuel → EndsNumber rest →
    readValue? (j.compact.toList ++ rest) fuel = some (j, rest)

theorem endsNumber_cons {c : Char} {rest : List Char} (h : isNumberChar c = false) :
    EndsNumber (c :: rest) := by
  rintro _ hc
  obtain rfl := Option.some.inj hc
  exact h

theorem skipBlanks_cons {c : Char} {rest : List Char} (h : isJsonBlank c = false) :
    skipBlanks (c :: rest) = c :: rest := by
  rw [skipBlanks, List.dropWhile_cons_of_neg (by simp [h])]

/-- No other value, and no blank, begins like a number. -/
theorem not_mem_of_isNumberChar {c : Char} (h : isNumberChar c = true) :
    c ∉ [' ', '\t', '\n', '\r', 'n', 't', 'f', '"', '[', '\x7b'] := by
  intro hmem
  simp only [List.mem_cons, List.not_mem_nil, or_false] at hmem
  rcases hmem with rfl | rfl | rfl | rfl | rfl | rfl | rfl | rfl | rfl | rfl <;>
    exact absurd h (by decide)

theorem isJsonBlank_of_isNumberChar {c : Char} (h : isNumberChar c = true) :
    isJsonBlank c = false := by
  have hspecial := not_mem_of_isNumberChar h
  rw [← Bool.not_eq_true]
  intro hblank
  simp only [isJsonBlank, Bool.or_eq_true, decide_eq_true_eq] at hblank
  rcases hblank with ((rfl | rfl) | rfl) | rfl <;> exact hspecial (by decide)

/-- The text of a value begins with neither a blank nor the end of a list. -/
theorem exists_compact_eq_cons {j : Json} (hj : j.IsReadable) :
    ∃ c cs, j.compact.toList = c :: cs ∧ isJsonBlank c = false ∧ c ≠ ']' := by
  cases hj with
  | null => exact ⟨_, _, rfl, by decide, by decide⟩
  | bool b => cases b <;> exact ⟨_, _, rfl, by decide, by decide⟩
  | @number token chars digit =>
    obtain ⟨c, cs, htoken⟩ := List.exists_cons_of_ne_nil (l := token.toList) fun hnil => by
      rw [hnil] at digit
      exact absurd digit (by decide)
    have hc : isNumberChar c = true := chars c (htoken ▸ List.mem_cons_self)
    refine ⟨c, cs, htoken, isJsonBlank_of_isNumberChar hc, ?_⟩
    rintro rfl
    exact absurd hc (by decide)
  | text s => exact ⟨_, _, toList_quoted s, by decide, by decide⟩
  | array values => exact ⟨_, _, toList_compact_array _, by decide, by decide⟩
  | object values => exact ⟨_, _, toList_compact_object _, by decide, by decide⟩

/-! ### Numbers -/

/-- A value that begins like a number is read as a number token. -/
theorem readValue?_number {c : Char} {cs token rest : List Char} (hc : isNumberChar c = true)
    (hspan : (c :: cs).span isNumberChar = (token, rest))
    (digit : token.any Char.isDigit = true) (fuel : ℕ) :
    readValue? (c :: cs) (fuel + 1) = some (number (String.ofList token), rest) := by
  have hspecial := not_mem_of_isNumberChar hc
  rw [readValue?, skipBlanks_cons (isJsonBlank_of_isNumberChar hc)]
  split
  case h_7 =>
    rw [hspan]
    exact if_pos digit
  all_goals
    next h =>
      obtain rfl := (List.cons.inj h).1
      exact absurd (by decide) hspecial

theorem span_number {token rest : List Char} (chars : ∀ c ∈ token, isNumberChar c = true)
    (hrest : EndsNumber rest) : (token ++ rest).span isNumberChar = (token, rest) := by
  rw [List.span_eq_takeWhile_dropWhile, List.takeWhile_append_of_pos chars,
    List.dropWhile_append_of_pos chars]
  cases rest with
  | nil => rw [List.takeWhile_nil, List.dropWhile_nil, List.append_nil]
  | cons c rest =>
    have hc : ¬ isNumberChar c = true := by
      rw [hrest c rfl]
      exact Bool.false_ne_true
    rw [List.takeWhile_cons_of_neg hc, List.dropWhile_cons_of_neg hc, List.append_nil]

theorem isReadBack_number {token : String} (chars : ∀ c ∈ token.toList, isNumberChar c = true)
    (digit : token.toList.any Char.isDigit = true) : (number token).IsReadBack := by
  intro rest fuel hfuel hrest
  rw [compact] at hfuel ⊢
  have hspan := span_number chars hrest
  obtain ⟨c, cs, htoken⟩ := List.exists_cons_of_ne_nil (l := token.toList) fun hnil => by
    rw [hnil] at digit
    exact absurd digit (by decide)
  have hc : isNumberChar c = true := chars c (htoken ▸ List.mem_cons_self)
  rw [htoken] at hfuel
  obtain ⟨fuel, rfl⟩ := Nat.exists_eq_add_one.mpr (Nat.zero_lt_of_lt hfuel)
  have happend : token.toList ++ rest = c :: (cs ++ rest) := by rw [htoken, List.cons_append]
  rw [happend] at hspan ⊢
  rw [readValue?_number hc hspan digit, String.ofList_toList]

/-! ### Lists -/

theorem readItems?_itemsText {items : List Json} (hitems : ∀ item ∈ items, item.IsReadBack)
    (hne : items ≠ []) (rest : List Char) {fuel : ℕ} (hfuel : (itemsText items).length < fuel) :
    readItems? (itemsText items ++ ']' :: rest) fuel = some (items, rest) := by
  induction items generalizing fuel with
  | nil => exact absurd rfl hne
  | cons item items ih =>
    obtain ⟨hitem, hitems⟩ := List.forall_mem_cons.mp hitems
    obtain ⟨fuel, rfl⟩ := Nat.exists_eq_add_one.mpr (Nat.zero_lt_of_lt hfuel)
    cases items with
    | nil =>
      have htext : itemsText [item] = item.compact.toList := List.intercalate_singleton
      rw [htext] at hfuel ⊢
      rw [readItems?, hitem _ _ (Nat.le_of_lt_succ hfuel) (endsNumber_cons (by decide))]
      rfl
    | cons next items =>
      rw [itemsText_cons_cons, List.length_append, List.length_cons] at hfuel
      have htail : readItems? (itemsText (next :: items) ++ ']' :: rest) fuel
          = some (next :: items, rest) := ih hitems (by simp) (by omega)
      rw [itemsText_cons_cons, List.append_assoc, List.cons_append, readItems?,
        hitem _ _ (by omega) (endsNumber_cons (by decide))]
      show (readItems? (itemsText (next :: items) ++ ']' :: rest) fuel).map _ = _
      rw [htail]
      rfl

theorem readValue?_list (rest : List Char) (fuel : ℕ) :
    readValue? ('[' :: rest) (fuel + 1) =
      match skipBlanks rest with
      | ']' :: rest => some (array [], rest)
      | rest => (readItems? rest fuel).map fun p => (array p.1, p.2) := rfl

theorem isReadBack_array {items : List Json} (hreadable : ∀ item ∈ items, item.IsReadable)
    (hitems : ∀ item ∈ items, item.IsReadBack) : (array items).IsReadBack := by
  intro rest fuel hfuel hrest
  rw [toList_compact_array, List.length_cons, List.length_append, List.length_singleton] at hfuel
  obtain ⟨fuel, rfl⟩ := Nat.exists_eq_add_one.mpr (Nat.zero_lt_of_lt hfuel)
  rw [toList_compact_array, List.cons_append, List.append_assoc, readValue?_list]
  cases items with
  | nil => rfl
  | cons item items =>
    obtain ⟨c, cs, htext, hblank, hclose⟩ :=
      exists_compact_eq_cons (hreadable item List.mem_cons_self)
    have hhead : ∃ cs', itemsText (item :: items) = c :: cs' := by
      cases items with
      | nil => exact ⟨cs, List.intercalate_singleton.trans htext⟩
      | cons next items => exact ⟨_, by rw [itemsText_cons_cons, htext, List.cons_append]⟩
    obtain ⟨cs', hhead⟩ := hhead
    have hread : readItems? (itemsText (item :: items) ++ ']' :: rest) fuel
        = some (item :: items, rest) := readItems?_itemsText hitems (by simp) rest (by omega)
    rw [hhead, List.cons_append] at hread
    rw [hhead, List.cons_append, List.singleton_append, skipBlanks_cons hblank]
    split
    next heq => exact absurd (List.cons.inj heq).1 hclose
    · rw [hread]
      rfl

/-! ### Objects -/

theorem memberText_append (m : String × Json) (rest : List Char) :
    memberText m ++ rest = '"' :: (m.1.toList.flatMap escapeChar ++
      '"' :: ':' :: (m.2.compact.toList ++ rest)) := by
  rw [memberText, toList_quoted]
  simp

/-- A member is read up to what decides whether another one follows. -/
theorem readMembers?_memberText {m : String × Json} (hm : m.2.IsReadBack) {c : Char}
    (hblank : isJsonBlank c = false) (hc : isNumberChar c = false) (rest : List Char) {fuel : ℕ}
    (hfuel : (memberText m).length ≤ fuel) :
    readMembers? (memberText m ++ c :: rest) (fuel + 1) =
      match c :: rest with
      | ',' :: rest => (readMembers? rest fuel).map fun p => (m :: p.1, p.2)
      | '\x7d' :: rest => some ([m], rest)
      | _ => none := by
  have hlength : m.2.compact.toList.length ≤ fuel := by
    rw [memberText, List.length_append, List.length_cons] at hfuel
    omega
  have hvalue := hm (c :: rest) fuel hlength (endsNumber_cons hc)
  rw [memberText_append, readMembers?, skipBlanks_cons (by decide)]
  show (readQuoted? [] _ _).bind _ = _
  rw [readQuoted?_quoted, Option.bind_some]
  show (readValue? (m.2.compact.toList ++ c :: rest) fuel).bind _ = _
  rw [hvalue, Option.bind_some]
  dsimp only
  generalize hskip : skipBlanks (c :: rest) = cs
  obtain rfl := (skipBlanks_cons hblank).symm.trans hskip
  rfl

theorem readMembers?_membersText {members : List (String × Json)}
    (hmembers : ∀ m ∈ members, m.2.IsReadBack) (hne : members ≠ [])
    (rest : List Char) {fuel : ℕ} (hfuel : (membersText members).length < fuel) :
    readMembers? (membersText members ++ '\x7d' :: rest) fuel = some (members, rest) := by
  induction members generalizing fuel with
  | nil => exact absurd rfl hne
  | cons m members ih =>
    obtain ⟨hm, hmembers⟩ := List.forall_mem_cons.mp hmembers
    obtain ⟨fuel, rfl⟩ := Nat.exists_eq_add_one.mpr (Nat.zero_lt_of_lt hfuel)
    cases members with
    | nil =>
      have htext : membersText [m] = memberText m := List.intercalate_singleton
      rw [htext] at hfuel ⊢
      rw [readMembers?_memberText hm (by decide) (by decide) _ (Nat.le_of_lt_succ hfuel)]
      rfl
    | cons next members =>
      rw [membersText_cons_cons, List.length_append, List.length_cons] at hfuel
      have htail : readMembers? (membersText (next :: members) ++ '\x7d' :: rest) fuel
          = some (next :: members, rest) := ih hmembers (by simp) (by omega)
      rw [membersText_cons_cons, List.append_assoc, List.cons_append,
        readMembers?_memberText hm (by decide) (by decide) _ (by omega)]
      show (readMembers? (membersText (next :: members) ++ '\x7d' :: rest) fuel).map _ = _
      rw [htail]
      rfl

theorem readValue?_object (rest : List Char) (fuel : ℕ) :
    readValue? ('\x7b' :: rest) (fuel + 1) =
      match skipBlanks rest with
      | '\x7d' :: rest => some (object [], rest)
      | rest => (readMembers? rest fuel).map fun p => (object p.1, p.2) := rfl

theorem isReadBack_object {members : List (String × Json)}
    (hmembers : ∀ m ∈ members, m.2.IsReadBack) : (object members).IsReadBack := by
  intro rest fuel hfuel hrest
  rw [toList_compact_object, List.length_cons, List.length_append, List.length_singleton] at hfuel
  obtain ⟨fuel, rfl⟩ := Nat.exists_eq_add_one.mpr (Nat.zero_lt_of_lt hfuel)
  rw [toList_compact_object, List.cons_append, List.append_assoc, readValue?_object]
  cases members with
  | nil => rfl
  | cons m members =>
    have hhead : ∃ cs, membersText (m :: members) = '"' :: cs := by
      have hquote : memberText m = _ := (List.append_nil _).symm.trans (memberText_append m [])
      cases members with
      | nil => exact ⟨_, List.intercalate_singleton.trans hquote⟩
      | cons next members => exact ⟨_, by rw [membersText_cons_cons, hquote, List.cons_append]⟩
    obtain ⟨cs, hhead⟩ := hhead
    have hread : readMembers? (membersText (m :: members) ++ '\x7d' :: rest) fuel
        = some (m :: members, rest) := readMembers?_membersText hmembers (by simp) rest (by omega)
    rw [hhead, List.cons_append] at hread
    rw [hhead, List.cons_append, List.singleton_append, skipBlanks_cons (by decide)]
    show (readMembers? ('"' :: (cs ++ '\x7d' :: rest)) fuel).map _ = _
    rw [hread]
    rfl

/-! ### Whole texts -/

theorem isReadBack_text (s : String) : (text s).IsReadBack := by
  intro rest fuel hfuel hrest
  rw [compact, toList_quoted] at hfuel ⊢
  obtain ⟨fuel, rfl⟩ := Nat.exists_eq_add_one.mpr (Nat.zero_lt_of_lt hfuel)
  rw [List.cons_append, List.append_assoc, List.singleton_append, readValue?,
    skipBlanks_cons (by decide)]
  show (readQuoted? [] _ _).map _ = _
  rw [readQuoted?_quoted]
  rfl

/-- The text of a value is read as the value, whatever follows. -/
theorem IsReadable.isReadBack {j : Json} (h : j.IsReadable) : j.IsReadBack := by
  induction h with
  | null =>
    intro rest fuel hfuel hrest
    obtain ⟨fuel, rfl⟩ := Nat.exists_eq_add_one.mpr (Nat.zero_lt_of_lt hfuel)
    rfl
  | bool b =>
    intro rest fuel hfuel hrest
    cases b <;>
    · obtain ⟨fuel, rfl⟩ := Nat.exists_eq_add_one.mpr (Nat.zero_lt_of_lt hfuel)
      rfl
  | text s => exact isReadBack_text s
  | number chars digit => exact isReadBack_number chars digit
  | array values ih => exact isReadBack_array values ih
  | object values ih => exact isReadBack_object ih

/-- **Reading gives back what was written.** -/
theorem read?_compact {j : Json} (h : j.IsReadable) : read? j.compact = some j := by
  have hread := h.isReadBack [] (j.compact.toList.length + 1) (Nat.le_succ _) (by simp [EndsNumber])
  rw [List.append_nil] at hread
  rw [read?, hread]
  rfl

/-- Values with the same text are the same. -/
theorem eq_of_compact_eq {a b : Json} (ha : a.IsReadable) (hb : b.IsReadable)
    (h : a.compact = b.compact) : a = b := by
  have hread := read?_compact ha
  rw [h, read?_compact hb] at hread
  exact (Option.some.inj hread).symm

end Keyspace.Json
