import Mathlib.Data.List.Forall2
import Mathlib.Order.Lattice
import Mathlib.Order.Nat
import Keyspace.Schema.Clause

/-!
# Rows in order

A row gives a value to every walk, and `TableRow.Precedes` compares rows by the terms of an order.
An order with open directions is read by closing them (`OrderTerm.Reads`), and rows are sorted by it
if they are sorted by some reading (`SortedBy`).

A clustering key with open directions serves several requests at once if one reading of it sorts
the rows for all of them.  `exists_reading_iff` says when there is one: requests that the key
delivers term by term must not ask for opposite directions of an open term
(`OrderTerm.OpenAt`).  A term whose path occurs earlier in the key has no say in the order, and
is open to any number of requests.
-/

namespace Keyspace

/-! ### Rows -/

/-- A value for every walk. -/
abbrev TableRow (V : Type) := EntityId × List String → V

namespace TableRow

variable {V : Type} [LinearOrder V]

/-- Is a row strictly before another one by a single term? -/
def Before (t : OrderTerm) (a b : TableRow V) : Prop :=
  if t.direction = .desc then b t.path.walk < a t.path.walk else a t.path.walk < b t.path.walk

/-- Rows are compared term by term; rows that agree on all terms precede each other. -/
def Precedes : List OrderTerm → TableRow V → TableRow V → Prop
  | [], _, _ => True
  | t :: rest, a, b => Before t a b ∨ a t.path.walk = b t.path.walk ∧ Precedes rest a b

theorem Before.ne {t : OrderTerm} {a b : TableRow V} (h : Before t a b) :
    a t.path.walk ≠ b t.path.walk := by
  unfold Before at h
  split_ifs at h
  · exact (ne_of_lt h).symm
  · exact ne_of_lt h

theorem before_congr {s t : OrderTerm} (hwalk : s.path.walk = t.path.walk)
    (hdirection : s.direction = t.direction) {a b : TableRow V} : Before s a b ↔ Before t a b := by
  unfold Before
  rw [hwalk, hdirection]

theorem before_or_before (t : OrderTerm) {a b : TableRow V} (h : a t.path.walk ≠ b t.path.walk) :
    Before t a b ∨ Before t b a := by
  unfold Before
  split_ifs
  · exact (lt_or_gt_of_ne h).symm
  · exact lt_or_gt_of_ne h

/-- Terms with opposite directions on one path order rows the opposite way. -/
theorem Before.not_of_direction_ne {s t : OrderTerm} {a b : TableRow V} (h : Before t a b)
    (hwalk : s.path.walk = t.path.walk) (hs : s.direction ≠ .any) (ht : t.direction ≠ .any)
    (hne : t.direction ≠ s.direction) : ¬ Before s a b := by
  unfold Before at h ⊢
  rw [hwalk]
  by_cases htdesc : t.direction = .desc
  · rw [if_pos htdesc] at h
    rw [if_neg (fun hsdesc => hne (htdesc.trans hsdesc.symm))]
    exact not_lt_of_gt h
  · have hsdesc : s.direction = .desc := by
      cases hsd : s.direction <;> cases htd : t.direction <;> simp_all
    rw [if_neg htdesc] at h
    rw [if_pos hsdesc]
    exact not_lt_of_gt h

/-- The first term on which two rows differ decides. -/
theorem precedes_iff {terms : List OrderTerm} {a b : TableRow V} :
    Precedes terms a b ↔
      (∀ t ∈ terms, a t.path.walk = b t.path.walk) ∨
      ∃ (i : ℕ) (t : OrderTerm), terms[i]? = some t ∧ Before t a b ∧
        ∀ j < i, ∀ s, terms[j]? = some s → a s.path.walk = b s.path.walk := by
  induction terms with
  | nil => exact iff_of_true trivial (.inl (by simp))
  | cons t rest ih =>
    rw [Precedes, ih]
    constructor
    · rintro (hbefore | ⟨heq, hall | ⟨i, s, hs, hbefore, hearlier⟩⟩)
      · exact .inr ⟨0, t, rfl, hbefore, by simp⟩
      · exact .inl (List.forall_mem_cons.mpr ⟨heq, hall⟩)
      · refine .inr ⟨i + 1, s, hs, hbefore, fun j hj u hu => ?_⟩
        cases j with
        | zero =>
          obtain rfl := Option.some.inj hu
          exact heq
        | succ j => exact hearlier j (Nat.lt_of_succ_lt_succ hj) u hu
    · rintro (hall | ⟨i, s, hs, hbefore, hearlier⟩)
      · obtain ⟨heq, hall⟩ := List.forall_mem_cons.mp hall
        exact .inr ⟨heq, .inl hall⟩
      · cases i with
        | zero =>
          obtain rfl := Option.some.inj hs
          exact .inl hbefore
        | succ i =>
          exact .inr ⟨hearlier 0 (Nat.succ_pos i) t rfl, .inr ⟨i, s, hs, hbefore,
            fun j hj u hu => hearlier (j + 1) (Nat.succ_lt_succ hj) u hu⟩⟩

/-- Rows that differ on one path only are compared by the first term with that path. -/
theorem precedes_of_differ {terms : List OrderTerm} {a b : TableRow V} {p : EntityId × List String}
    (hsame : ∀ q, q ≠ p → a q = b q) {i : ℕ} {t : OrderTerm} (ht : terms[i]? = some t)
    (hp : t.path.walk = p) (hfirst : ∀ j < i, ∀ s, terms[j]? = some s → s.path.walk ≠ p) :
    Precedes terms a b ↔ a p = b p ∨ Before t a b := by
  rw [precedes_iff]
  constructor
  · rintro (hall | ⟨i', s, hs, hbefore, hearlier⟩)
    · exact .inl (hp ▸ hall t (List.mem_of_getElem? ht))
    · have hsp : s.path.walk = p := by
        by_contra hne
        exact hbefore.ne (hsame _ hne)
      rcases lt_trichotomy i' i with hlt | rfl | hgt
      · exact absurd hsp (hfirst i' hlt s hs)
      · obtain rfl := Option.some.inj (hs.symm.trans ht)
        exact .inr hbefore
      · exact .inl (hp ▸ hearlier i hgt t ht)
  · rintro (heq | hbefore)
    · refine .inl fun s _ => ?_
      by_cases hsp : s.path.walk = p
      · rw [hsp, heq]
      · exact hsame _ hsp
    · exact .inr ⟨i, t, ht, hbefore, fun j hj s hs => hsame _ (hfirst j hj s hs)⟩

end TableRow

/-! ### Open directions -/

namespace OrderTerm

/-- A reading of an order closes its open directions and keeps the others. -/
def Reads (terms reading : List OrderTerm) : Prop :=
  List.Forall₂
    (fun t r => r.path.walk = t.path.walk ∧ r.direction ≠ .any ∧
      (t.direction = .any ∨ r.direction = t.direction))
    terms reading

/-- Rows are sorted by an order if they are by some reading of it. -/
def SortedBy {V : Type} [LinearOrder V] (terms : List OrderTerm) (rows : List (TableRow V)) :
    Prop :=
  ∃ reading, Reads terms reading ∧ rows.Pairwise (TableRow.Precedes reading)

/-- The direction of the term at a position is open, and the term has a say in the order: no
earlier term has its path. -/
def OpenAt (terms : List OrderTerm) (i : ℕ) : Prop :=
  ∃ t, terms[i]? = some t ∧ t.direction = .any ∧
    ∀ j < i, ∀ s, terms[j]? = some s → s.path.walk ≠ t.path.walk

/-- An order has a direction at a position. -/
def Requests (order : List OrderTerm) (i : ℕ) (d : Direction) : Prop :=
  ∃ r, order[i]? = some r ∧ r.direction = d

/-- A key delivers every term of a requested order by the term at the same position. -/
def Delivers (key order : List OrderTerm) : Prop :=
  ∀ (i : ℕ) r, order[i]? = some r → ∃ k, key[i]? = some k ∧ k.satisfies r = true

theorem satisfies_eq_true_iff {k r : OrderTerm} :
    k.satisfies r = true ↔ k.path.walk = r.path.walk ∧
      (r.direction = .any ∨ k.direction = .any ∨ k.direction = r.direction) := by
  simp [satisfies, Path.same_eq_true_iff, or_assoc]

section Reading

variable {terms reading : List OrderTerm} {i : ℕ}

/-- The terms of a reading correspond to those that are read. -/
theorem Reads.exists_of_getElem? (h : Reads terms reading) {r : OrderTerm}
    (hr : reading[i]? = some r) : ∃ t, terms[i]? = some t ∧ r.path.walk = t.path.walk ∧
      r.direction ≠ .any ∧ (t.direction = .any ∨ r.direction = t.direction) := by
  obtain ⟨hi, rfl⟩ := List.getElem?_eq_some_iff.mp hr
  have hi' : i < terms.length := List.Forall₂.length_eq h ▸ hi
  exact ⟨terms[i], List.getElem?_eq_getElem hi', List.Forall₂.get h hi' hi⟩

theorem Reads.exists_of_getElem?_left (h : Reads terms reading) {t : OrderTerm}
    (ht : terms[i]? = some t) : ∃ r, reading[i]? = some r ∧ r.path.walk = t.path.walk ∧
      r.direction ≠ .any ∧ (t.direction = .any ∨ r.direction = t.direction) := by
  obtain ⟨hi, rfl⟩ := List.getElem?_eq_some_iff.mp ht
  have hi' : i < reading.length := List.Forall₂.length_eq h ▸ hi
  exact ⟨reading[i], List.getElem?_eq_getElem hi', List.Forall₂.get h hi hi'⟩

/-- Closes the open directions of an order, position by position. -/
def close (directions : ℕ → Direction) (terms : List OrderTerm) : List OrderTerm :=
  terms.mapIdx fun i t => if t.direction = .any then ⟨t.path, directions i⟩ else t

theorem getElem?_close {directions : ℕ → Direction} :
    (close directions terms)[i]?
      = terms[i]?.map fun t => if t.direction = .any then ⟨t.path, directions i⟩ else t := by
  rw [close, List.getElem?_mapIdx]

theorem reads_close {directions : ℕ → Direction} (h : ∀ i, directions i ≠ .any) :
    Reads terms (close directions terms) := by
  refine List.forall₂_iff_get.mpr ⟨by simp [close], fun i h₁ h₂ => ?_⟩
  have hget : (close directions terms).get ⟨i, h₂⟩
      = if (terms.get ⟨i, h₁⟩).direction = .any then ⟨(terms.get ⟨i, h₁⟩).path, directions i⟩
        else terms.get ⟨i, h₁⟩ := by
    simp [close]
  rw [hget]
  split_ifs with hany
  · exact ⟨rfl, h i, .inl hany⟩
  · exact ⟨rfl, hany, .inr rfl⟩

end Reading

/-! ### Requests on one key -/

section Requests

variable {key order : List OrderTerm}

/-- A closed key sorts for every request that agrees with it where it was open. -/
theorem sortedBy_of_close {V : Type} [LinearOrder V] (hdelivers : Delivers key order)
    {directions : ℕ → Direction} (hclosed : ∀ i, directions i ≠ .any)
    (hagree : ∀ i r, order[i]? = some r → OpenAt key i →
      r.direction = .any ∨ r.direction = directions i)
    {rows : List (TableRow V)} (h : rows.Pairwise (TableRow.Precedes (close directions key))) :
    SortedBy order rows := by
  have hreads : Reads key (close directions key) := reads_close hclosed
  -- open directions of the request are read as the key has them
  set asKey : ℕ → Direction := fun i => (((close directions key)[i]?).map direction).getD .asc
    with hasKey
  have hasKey_ne : ∀ i, asKey i ≠ .any := by
    intro i
    cases hget : (close directions key)[i]? with
    | none => simp [hasKey, hget]
    | some s =>
      obtain ⟨-, -, -, hne, -⟩ := hreads.exists_of_getElem? hget
      simpa [hasKey, hget] using hne
  have hreadsOrder : Reads order (close asKey order) := reads_close hasKey_ne
  -- the terms of the reading stand on the paths of the closed key
  have hwalk : ∀ (i : ℕ) t, (close asKey order)[i]? = some t →
      ∃ s, (close directions key)[i]? = some s ∧ t.path.walk = s.path.walk := by
    intro i t ht
    obtain ⟨r, hr, htr, -⟩ := hreadsOrder.exists_of_getElem? ht
    obtain ⟨k, hk, hsat⟩ := hdelivers i r hr
    obtain ⟨s, hs, hsk, -⟩ := hreads.exists_of_getElem?_left hk
    exact ⟨s, hs, htr.trans ((satisfies_eq_true_iff.mp hsat).1.symm.trans hsk.symm)⟩
  refine ⟨close asKey order, hreadsOrder, h.imp fun {a b} hab => ?_⟩
  rw [TableRow.precedes_iff] at hab ⊢
  rcases hab with hall | ⟨i, s, hs, hbefore, hearlier⟩
  · refine .inl fun t ht => ?_
    obtain ⟨i, hi⟩ := List.mem_iff_getElem?.mp ht
    obtain ⟨s, hs, hts⟩ := hwalk i t hi
    rw [hts]
    exact hall s (List.mem_of_getElem? hs)
  · have hearlier' : ∀ j < i, ∀ t, (close asKey order)[j]? = some t →
        a t.path.walk = b t.path.walk := by
      intro j hj t ht
      obtain ⟨s, hs, hts⟩ := hwalk j t ht
      rw [hts]
      exact hearlier j hj s hs
    -- the deciding term may stand behind the end of the request
    cases hr : order[i]? with
    | none =>
      refine .inl fun t ht => ?_
      obtain ⟨j, hj⟩ := List.mem_iff_getElem?.mp ht
      refine hearlier' j ?_ t hj
      obtain ⟨r, hr', -⟩ := hreadsOrder.exists_of_getElem? hj
      have hlt := (List.getElem?_eq_some_iff.mp hr').1
      have hle := List.getElem?_eq_none_iff.mp hr
      omega
    | some r =>
      obtain ⟨t, ht, htr, -, hopen⟩ := hreadsOrder.exists_of_getElem?_left hr
      obtain ⟨s', hs', hts⟩ := hwalk i t ht
      obtain rfl := Option.some.inj (hs'.symm.trans hs)
      refine .inr ⟨i, t, ht, (TableRow.before_congr hts ?_).mpr hbefore, hearlier'⟩
      rw [getElem?_close, hr, Option.map_some] at ht
      obtain rfl := Option.some.inj ht
      split_ifs with hany
      · simp [hasKey, hs]
      · obtain ⟨k, hk, hsat⟩ := hdelivers i r hr
        have hclose := hs
        rw [getElem?_close, hk, Option.map_some] at hclose
        obtain rfl := Option.some.inj hclose
        split_ifs with hkany
        · by_cases hopenAt : OpenAt key i
          · exact (hagree i r hr hopenAt).resolve_left hany
          · -- an earlier term on the path has found the rows equal
            exfalso
            refine hopenAt ⟨k, hk, hkany, fun j hj p hp hpk => ?_⟩
            obtain ⟨q, hq, hqp, -⟩ := hreads.exists_of_getElem?_left hp
            have heq := hearlier j hj q hq
            rw [hqp, hpk] at heq
            refine hbefore.ne ?_
            rw [if_pos hkany]
            exact heq
        · exact ((satisfies_eq_true_iff.mp hsat).2.resolve_left hany |>.resolve_left hkany).symm

/-- Two rows that differ on one path only are not sorted for a request whose first term on that
path orders them the other way. -/
theorem not_sortedBy_pair {V : Type} [LinearOrder V] {a b : TableRow V} {i : ℕ} {r : OrderTerm}
    (hr : order[i]? = some r) (hclosed : r.direction ≠ .any)
    (hfirst : ∀ j < i, ∀ s, order[j]? = some s → s.path.walk ≠ r.path.walk)
    (hsame : ∀ q, q ≠ r.path.walk → a q = b q) (hne : a r.path.walk ≠ b r.path.walk)
    (hbefore : ¬ TableRow.Before r a b) : ¬ SortedBy order [a, b] := by
  rintro ⟨reading, hreads, hsorted⟩
  obtain ⟨t, ht, htr, -, hdirection⟩ := hreads.exists_of_getElem?_left hr
  have hfirst' : ∀ j < i, ∀ s, reading[j]? = some s → s.path.walk ≠ r.path.walk := by
    intro j hj s hs
    obtain ⟨q, hq, hsq, -⟩ := hreads.exists_of_getElem? hs
    rw [hsq]
    exact hfirst j hj q hq
  rcases (TableRow.precedes_of_differ hsame ht htr hfirst').mp (List.pairwise_pair.mp hsorted) with
    heq | hbefore'
  · exact hne heq
  · exact hbefore ((TableRow.before_congr htr (hdirection.resolve_left hclosed)).mp hbefore')

/-- A closed key fails to sort for a request with the opposite direction. -/
theorem exists_not_sortedBy {reading : List OrderTerm} (hreads : Reads key reading)
    (hdelivers : Delivers key order) {i : ℕ} (hopen : OpenAt key i) {t : OrderTerm}
    (ht : reading[i]? = some t) {d : Direction} (hd : d ≠ .any) (hrequests : Requests order i d)
    (hne : t.direction ≠ d) :
    ∃ rows : List (TableRow ℕ),
      rows.Pairwise (TableRow.Precedes reading) ∧ ¬ SortedBy order rows := by
  obtain ⟨k, hk, -, hfirst⟩ := hopen
  obtain ⟨r, hr, rfl⟩ := hrequests
  obtain ⟨k', hk', htk, htclosed, -⟩ := hreads.exists_of_getElem? ht
  obtain rfl := Option.some.inj (hk'.symm.trans hk)
  have hrk : r.path.walk = k'.path.walk := by
    obtain ⟨k, hk, hsat⟩ := hdelivers i r hr
    obtain rfl := Option.some.inj (hk'.symm.trans hk)
    exact (satisfies_eq_true_iff.mp hsat).1.symm
  have hrt := hrk.trans htk.symm
  have hfirst₁ : ∀ j < i, ∀ s, reading[j]? = some s → s.path.walk ≠ r.path.walk := by
    intro j hj s hs
    obtain ⟨p, hp, hsp, -⟩ := hreads.exists_of_getElem? hs
    rw [hsp, hrk]
    exact hfirst j hj p hp
  have hfirst₂ : ∀ j < i, ∀ s, order[j]? = some s → s.path.walk ≠ r.path.walk := by
    intro j hj s hs
    obtain ⟨p, hp, hsat⟩ := hdelivers j s hs
    rw [← (satisfies_eq_true_iff.mp hsat).1, hrk]
    exact hfirst j hj p hp
  -- rows that differ on the path of the open term only, in the order of the key
  obtain ⟨a, b, hsame, hab, hbefore⟩ : ∃ a b : TableRow ℕ, (∀ q, q ≠ r.path.walk → a q = b q) ∧
      a r.path.walk ≠ b r.path.walk ∧ TableRow.Before t a b := by
    have hsame : ∀ q, q ≠ r.path.walk → (0 : ℕ) = if q = r.path.walk then 1 else 0 :=
      fun q hq => (if_neg hq).symm
    rcases TableRow.before_or_before t (a := fun _ => 0)
      (b := fun q => if q = r.path.walk then (1 : ℕ) else 0) (by simp [hrt]) with h | h
    · exact ⟨_, _, hsame, by simp, h⟩
    · exact ⟨_, _, fun q hq => (hsame q hq).symm, by simp, h⟩
  refine ⟨[a, b], List.pairwise_pair.mpr ?_, ?_⟩
  · exact (TableRow.precedes_of_differ hsame ht hrt.symm hfirst₁).mpr (.inr hbefore)
  · exact not_sortedBy_pair hr hd hfirst₂ hsame hab
      (hbefore.not_of_direction_ne hrt hd htclosed hne)

/-- **One reading of a key serves several requests if and only if none of them contradict each
other on an open term.** -/
theorem exists_reading_iff {ι : Type} {readers : Set ι} {order : ι → List OrderTerm}
    (hdelivers : ∀ c ∈ readers, Delivers key (order c)) :
    (∃ reading, Reads key reading ∧ ∀ c ∈ readers, ∀ (V : Type) [LinearOrder V]
        (rows : List (TableRow V)),
          rows.Pairwise (TableRow.Precedes reading) → SortedBy (order c) rows) ↔
      ¬ ∃ i, OpenAt key i ∧ (∃ c ∈ readers, Requests (order c) i .asc) ∧
        ∃ c ∈ readers, Requests (order c) i .desc := by
  constructor
  · -- whichever direction the key takes, one of the two readers asks for the other
    rintro ⟨reading, hreads, hsorts⟩ ⟨i, hopen, ⟨c, hc, hasc⟩, d, hd, hdesc⟩
    obtain ⟨k, hk, -⟩ := id hopen
    obtain ⟨t, ht, -⟩ := hreads.exists_of_getElem?_left hk
    by_cases htasc : t.direction = .asc
    · obtain ⟨rows, hrows, hnot⟩ := exists_not_sortedBy hreads (hdelivers d hd) hopen ht
        (by decide) hdesc (by simp [htasc])
      exact hnot (hsorts d hd ℕ rows hrows)
    · obtain ⟨rows, hrows, hnot⟩ := exists_not_sortedBy hreads (hdelivers c hc) hopen ht
        (by decide) hasc htasc
      exact hnot (hsorts c hc ℕ rows hrows)
  · -- descending where somebody asks for it, ascending otherwise
    intro hpeace
    classical
    set directions : ℕ → Direction := fun i =>
      if ∃ c ∈ readers, Requests (order c) i .desc then .desc else .asc with hdirections
    have hclosed : ∀ i, directions i ≠ .any := by
      intro i
      simp only [hdirections]
      split_ifs <;> decide
    refine ⟨close directions key, reads_close hclosed, fun c hc V _ rows hrows => ?_⟩
    refine sortedBy_of_close (hdelivers c hc) hclosed (fun i r hr hopen => ?_) hrows
    cases hrd : r.direction with
    | any => exact .inl rfl
    | desc => exact .inr (if_pos ⟨c, hc, r, hr, hrd⟩).symm
    | asc =>
      refine .inr (if_neg ?_).symm
      rintro ⟨d, hd, hdesc⟩
      exact hpeace ⟨i, hopen, ⟨c, hc, r, hr, hrd⟩, d, hd, hdesc⟩

end Requests

end OrderTerm

end Keyspace
