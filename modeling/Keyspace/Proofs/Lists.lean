import Mathlib.Data.List.Forall2
import Mathlib.Data.List.GetD
import Mathlib.Data.Multiset.Bind
import Mathlib.Data.Multiset.Filter

/-!
# Lists that belong together

Most results about a search say what belongs to what: answers to levels, candidates to numbers,
prices to candidates, one by one and in the same order (`List.Forall₂`).  Here is what such lists
have in common (`map_eq_map_of_forall₂`, `exists_left_of_forall₂`) and when one of them determines
another (`eq_of_forall₂`, `eq_map_of_forall₂`, `sublist_of_forall₂`).

Where the order does not matter the lists are related as multisets (`Multiset.Rel`).  Then one of
them can be put into the order of the other (`rel_coe_iff`), and whatever belongs to them one by one
is related in the same order (`rel_of_forall₂`).

Steps that may fail but never do run through a list as the steps without failure do
(`mapM_eq_some`, `foldlM_eq_some`, `filterM_eq_some`, `anyM_eq_some`).  A step that has not failed
has a result (`exists_eq_ok_of_isOk`, `exists_eq_ok_of_map`).
-/

namespace Keyspace

variable {β β' γ γ' δ : Type}

theorem findSome?_flatten (f : β → Option γ) (bss : List (List β)) :
    bss.flatten.findSome? f = bss.findSome? fun bs => bs.findSome? f := by
  induction bss with
  | nil => rfl
  | cons bs rest ih =>
    rw [List.flatten_cons, List.findSome?_append, ih, List.findSome?_cons]
    cases bs.findSome? f <;> rfl

/-- A part of a list is the image of its positions. -/
theorem map_range'_getD (pre bs post : List β) (b : β) :
    (List.range' pre.length bs.length).map (fun i => (pre ++ (bs ++ post)).getD i b) = bs := by
  refine List.ext_getElem (by simp) fun i h₁ h₂ => ?_
  rw [List.getElem_map, List.getElem_range', Nat.one_mul, List.getD_append_right _ _ _ _ (by omega),
    Nat.add_sub_cancel_left, List.getD_append _ _ _ _ h₂, List.getD_eq_getElem _ _ h₂]

theorem map_range_getD (bs : List β) (b : β) :
    (List.range bs.length).map (fun i => bs.getD i b) = bs := by
  simpa [List.range_eq_range'] using map_range'_getD [] bs [] b

/-- If no two elements of a list have the same text, each is the only one with its text. -/
theorem filter_eq_singleton_of_pairwise [DecidableEq γ] {f : β → γ} {bs : List β}
    (h : bs.Pairwise fun a b => f a ≠ f b) {b : β} (hb : b ∈ bs) :
    bs.filter (fun a => f a == f b) = [b] := by
  induction bs with
  | nil => exact absurd hb List.not_mem_nil
  | cons a bs ih =>
    obtain ⟨hne, hrest⟩ := List.pairwise_cons.mp h
    rcases List.mem_cons.mp hb with rfl | hb
    · have hnone : bs.filter (fun a => f a == f b) = [] := by
        refine List.filter_eq_nil_iff.mpr fun a ha => ?_
        rw [beq_iff_eq]
        exact (hne a ha).symm
      rw [List.filter_cons_of_pos (by simp), hnone]
    · rw [List.filter_cons_of_neg (by simpa using hne b hb), ih hrest hb]

/-- The first position and the first element with a property belong together. -/
theorem rel_findIdx?_find? (p : β → Bool) (bs : List β) :
    Option.Rel (fun i b => bs[i]? = some b) (bs.findIdx? p) (bs.find? p) := by
  induction bs with
  | nil => exact .none
  | cons b rest ih =>
    rw [List.findIdx?_cons, List.find?_cons]
    cases p b with
    | true => exact .some rfl
    | false =>
      rw [if_neg Bool.false_ne_true]
      revert ih
      generalize rest.findIdx? p = i?, rest.find? p = b?
      rintro (h | _)
      · exact .some h
      · exact .none

/-! ### One by one -/

/-- What is related to a list stands in the same positions. -/
theorem exists_getElem?_of_forall₂ {R : β → γ → Prop} {bs : List β} {cs : List γ}
    (h : List.Forall₂ R bs cs) {i : ℕ} {b : β} (hb : bs[i]? = some b) :
    ∃ c, cs[i]? = some c ∧ R b c := by
  obtain ⟨hi, rfl⟩ := List.getElem?_eq_some_iff.mp hb
  have hi' : i < cs.length := h.length_eq ▸ hi
  exact ⟨cs[i], List.getElem?_eq_getElem hi', h.get hi hi'⟩

/-- What is related to a list comes from some element of the list. -/
theorem exists_left_of_forall₂ {R : β → γ → Prop} {bs : List β} {cs : List γ}
    (h : List.Forall₂ R bs cs) {c : γ} (hc : c ∈ cs) : ∃ b ∈ bs, R b c := by
  obtain ⟨i, hi, rfl⟩ := List.getElem_of_mem hc
  have hi' : i < bs.length := h.length_eq ▸ hi
  exact ⟨bs[i], List.getElem_mem hi', h.get hi' hi⟩

/-- Related elements with equal texts give lists of equal texts. -/
theorem map_eq_map_of_forall₂ {R : β → β → Prop} {f : β → γ} {as bs : List β}
    (hR : ∀ a b, R a b → f a = f b) (h : List.Forall₂ R as bs) : as.map f = bs.map f := by
  rw [← List.forall₂_eq_eq_eq, List.forall₂_map_left_iff, List.forall₂_map_right_iff]
  exact h.imp hR

/-- Lists of equal texts have elements related one by one, if equal texts relate elements. -/
theorem forall₂_of_map_eq_map {R : β → γ → Prop} {f : β → δ} {g : γ → δ} {bs : List β}
    {cs : List γ} (hR : ∀ b ∈ bs, ∀ c ∈ cs, f b = g c → R b c) (h : bs.map f = cs.map g) :
    List.Forall₂ R bs cs := by
  induction bs generalizing cs with
  | nil =>
    obtain rfl := List.map_eq_nil_iff.mp h.symm
    exact .nil
  | cons b bs ih =>
    obtain ⟨c, cs', rfl, hc, hcs⟩ := List.map_eq_cons_iff.mp h.symm
    refine .cons (hR b List.mem_cons_self c List.mem_cons_self hc.symm) (ih ?_ hcs.symm)
    exact fun b' hb' c' hc' =>
      hR b' (List.mem_cons_of_mem _ hb') c' (List.mem_cons_of_mem _ hc')

theorem eq_of_forall₂ {R : β → β → Prop} {P : β → Prop} {as bs : List β}
    (h : List.Forall₂ R as bs) (hR : ∀ a b, P a → P b → R a b → a = b) (has : ∀ a ∈ as, P a)
    (hbs : ∀ b ∈ bs, P b) : as = bs := by
  induction h with
  | nil => rfl
  | cons hab _ ih =>
    obtain ⟨ha, has⟩ := List.forall_mem_cons.mp has
    obtain ⟨hb, hbs⟩ := List.forall_mem_cons.mp hbs
    rw [hR _ _ ha hb hab, ih has hbs]

/-- Two relations along the same list in the middle compose. -/
theorem forall₂_of_comp {R : β → γ → Prop} {S : γ → δ → Prop} {T : β → δ → Prop}
    (hT : ∀ b c d, R b c → S c d → T b d) {bs : List β} {cs : List γ} {ds : List δ}
    (hR : List.Forall₂ R bs cs) (hS : List.Forall₂ S cs ds) : List.Forall₂ T bs ds := by
  induction hR generalizing ds with
  | nil =>
    obtain rfl := List.forall₂_nil_left_iff.mp hS
    exact .nil
  | cons hbc _ ih =>
    cases hS with
    | cons hcd hS => exact .cons (hT _ _ _ hbc hcd) (ih hS)

/-- What is made of two related lists element by element is related to the second one. -/
theorem forall₂_zipWith {R : β → γ → Prop} {S : γ → δ → Prop} {f : β → γ → δ} {bs : List β}
    {cs : List γ} (h : List.Forall₂ R bs cs) (hf : ∀ b c, R b c → S c (f b c)) :
    List.Forall₂ S cs (List.zipWith f bs cs) := by
  induction h with
  | nil => exact .nil
  | cons hbc _ ih => exact .cons (hf _ _ hbc) ih

/-- What belongs to the same list is an image if it is so one by one. -/
theorem eq_map_of_forall₂ {R : β → γ → Prop} {S : β → δ → Prop} {f : γ → δ}
    (hf : ∀ b c d, R b c → S b d → d = f c) {bs : List β} {cs : List γ} {ds : List δ}
    (hR : List.Forall₂ R bs cs) (hS : List.Forall₂ S bs ds) : ds = cs.map f := by
  have hds : List.Forall₂ (fun c d => d = f c) cs ds :=
    forall₂_of_comp (fun c b d hbc hbd => hf b c d hbc hbd) hR.flip hS
  rw [← List.forall₂_eq_eq_eq, List.forall₂_map_right_iff]
  exact hds.flip

/-- What is made of part of a list is part of what is made of the list. -/
theorem sublist_of_forall₂ {R : β → γ → Prop} (hR : ∀ b c c', R b c → R b c' → c = c')
    {bs bs' : List β} {cs cs' : List γ} (hsub : bs.Sublist bs') (h : List.Forall₂ R bs cs)
    (h' : List.Forall₂ R bs' cs') : cs.Sublist cs' := by
  induction hsub generalizing cs cs' with
  | slnil =>
    obtain rfl := List.forall₂_nil_left_iff.mp h
    exact List.nil_sublist _
  | cons b _ ih =>
    obtain ⟨c', rest', -, hrest', rfl⟩ := List.forall₂_cons_left_iff.mp h'
    exact (ih h hrest').cons c'
  | cons_cons b _ ih =>
    obtain ⟨c, rest, hc, hrest, rfl⟩ := List.forall₂_cons_left_iff.mp h
    obtain ⟨c', rest', hc', hrest', rfl⟩ := List.forall₂_cons_left_iff.mp h'
    rw [hR b c c' hc hc']
    exact (ih hrest hrest').cons_cons c'

/-! ### In some order -/

/-- Lists are related in some order if they are so one by one once the first is put into it. -/
theorem rel_coe_iff {R : β → γ → Prop} {bs : List β} {cs : List γ} :
    Multiset.Rel R bs cs ↔ ∃ bs', bs.Perm bs' ∧ List.Forall₂ R bs' cs := by
  constructor
  · intro h
    induction cs generalizing bs with
    | nil =>
      rw [Multiset.coe_nil, Multiset.rel_zero_right, Multiset.coe_eq_zero] at h
      exact ⟨[], by rw [h], .nil⟩
    | cons c cs ih =>
      rw [← Multiset.cons_coe, Multiset.rel_cons_right] at h
      obtain ⟨b, rest, hbc, hrest, heq⟩ := h
      obtain ⟨rest, rfl⟩ := Quotient.exists_rep rest
      obtain ⟨bs', hperm, hall⟩ := ih hrest
      exact ⟨b :: bs', (Multiset.coe_eq_coe.mp heq).trans (hperm.cons b), .cons hbc hall⟩
  · rintro ⟨bs', hperm, hall⟩
    rw [Multiset.coe_eq_coe.mpr hperm]
    clear hperm
    induction hall with
    | nil => exact .zero
    | cons hbc _ ih => exact .cons hbc ih

/-- What belongs one by one to lists that are related in some order is related in that order. -/
theorem rel_of_forall₂ {R : β → β' → Prop} {P : β → γ → Prop} {P' : β' → γ' → Prop}
    {Q : γ → γ' → Prop} {bs : List β} {bs' : List β'} {cs : List γ} {cs' : List γ'}
    (h : Multiset.Rel R bs bs') (hP : List.Forall₂ P bs cs) (hP' : List.Forall₂ P' bs' cs')
    (hQ : ∀ b b' c c', R b b' → P b c → P' b' c' → Q c c') : Multiset.Rel Q cs cs' := by
  have hfst : (bs.zip cs).map Prod.fst = bs := List.map_fst_zip hP.length_eq.le
  have hsnd : (bs.zip cs).map Prod.snd = cs := List.map_snd_zip hP.length_eq.ge
  have hfst' : (bs'.zip cs').map Prod.fst = bs' := List.map_fst_zip hP'.length_eq.le
  have hsnd' : (bs'.zip cs').map Prod.snd = cs' := List.map_snd_zip hP'.length_eq.ge
  rw [← hfst, ← hfst', ← Multiset.map_coe, ← Multiset.map_coe, Multiset.rel_map] at h
  rw [← hsnd, ← hsnd', ← Multiset.map_coe, ← Multiset.map_coe, Multiset.rel_map]
  exact h.mono fun p hp p' hp' hr =>
    hQ _ _ _ _ hr (List.forall₂_zip hP hp) (List.forall₂_zip hP' hp')

theorem rel_filter {R : β → γ → Prop} {p : β → Bool} {q : γ → Bool} {bs : List β} {cs : List γ}
    (h : Multiset.Rel R bs cs) (hpq : ∀ b c, R b c → p b = q c) :
    Multiset.Rel R (bs.filter p) (cs.filter q) := by
  obtain ⟨bs', hperm, hall⟩ := rel_coe_iff.mp h
  refine rel_coe_iff.mpr ⟨bs'.filter p, hperm.filter p, List.rel_filter (fun b c hbc => ?_) hall⟩
  exact Bool.eq_iff_iff.mp (hpq b c hbc)

/-- What is related in some order has corresponding properties alike. -/
theorem exists_mem_iff_of_rel {R : β → γ → Prop} {P : β → Prop} {Q : γ → Prop} {bs : List β}
    {cs : List γ} (h : Multiset.Rel R bs cs) (hPQ : ∀ b ∈ bs, ∀ c ∈ cs, R b c → (P b ↔ Q c)) :
    (∃ b ∈ bs, P b) ↔ ∃ c ∈ cs, Q c := by
  constructor
  · rintro ⟨b, hb, hP⟩
    obtain ⟨c, hc, hbc⟩ := Multiset.exists_mem_of_rel_of_mem h hb
    exact ⟨c, hc, (hPQ b hb c hc hbc).mp hP⟩
  · rintro ⟨c, hc, hQ⟩
    obtain ⟨b, hb, hbc⟩ := Multiset.exists_mem_of_rel_of_mem (Multiset.rel_flip.mpr h) hc
    exact ⟨b, hb, (hPQ b hb c hc hbc).mpr hQ⟩

/-! ### Steps that never fail -/

/-- A position in range is that of an element. -/
theorem getElem?_eq_some_getD {bs : List β} {i : ℕ} (h : i < bs.length) (b : β) :
    bs[i]? = some (bs.getD i b) := by
  rw [List.getElem?_eq_getElem h, List.getD_eq_getElem _ _ h]

theorem mapM_eq_some {f : β → Option γ} {g : β → γ} {bs : List β}
    (h : ∀ b ∈ bs, f b = some (g b)) : bs.mapM f = some (bs.map g) := by
  induction bs with
  | nil => rfl
  | cons b bs ih =>
    obtain ⟨hb, hbs⟩ := List.forall_mem_cons.mp h
    rw [List.mapM_cons, hb, ih hbs]
    rfl

/-- Every step keeps what the next one needs. -/
theorem foldlM_eq_some {P : γ → Prop} {f : γ → β → Option γ} {g : γ → β → γ} {bs : List β}
    (h : ∀ c, P c → ∀ b ∈ bs, f c b = some (g c b) ∧ P (g c b)) :
    ∀ {c : γ}, P c → bs.foldlM f c = some (bs.foldl g c) := by
  induction bs with
  | nil => exact fun _ => rfl
  | cons b bs ih =>
    intro c hc
    obtain ⟨hb, hkeep⟩ := h c hc b List.mem_cons_self
    rw [List.foldlM_cons, hb]
    exact ih (fun c hc b hb => h c hc b (List.mem_cons_of_mem _ hb)) hkeep

theorem filterM_eq_some {f : β → Option Bool} {p : β → Bool} {bs : List β}
    (h : ∀ b ∈ bs, f b = some (p b)) : bs.filterM f = some (bs.filter p) := by
  suffices general : ∀ kept, List.filterAuxM f bs kept = some ((bs.filter p).reverse ++ kept) by
    rw [List.filterM, general, List.append_nil]
    exact congrArg some (List.reverse_reverse _)
  induction bs with
  | nil => exact fun kept => rfl
  | cons b bs ih =>
    intro kept
    obtain ⟨hb, hbs⟩ := List.forall_mem_cons.mp h
    rw [List.filterAuxM, hb, List.filter_cons]
    refine (ih hbs _).trans ?_
    cases p b with
    | true => rw [if_pos rfl, List.reverse_cons, List.append_assoc]; rfl
    | false => rfl

theorem anyM_eq_some {f : β → Option Bool} {p : β → Bool} {bs : List β}
    (h : ∀ b ∈ bs, f b = some (p b)) : bs.anyM f = some (bs.any p) := by
  induction bs with
  | nil => rfl
  | cons b bs ih =>
    obtain ⟨hb, hbs⟩ := List.forall_mem_cons.mp h
    rw [List.anyM, hb, List.any_cons, ih hbs]
    cases p b <;> rfl

/-! ### Steps that have not failed -/

section Results

variable {ε : Type} {result : Except ε β}

theorem exists_eq_ok_of_isOk (h : result.isOk = true) : ∃ b, result = .ok b := by
  cases result with
  | error e => exact absurd h Bool.false_ne_true
  | ok b => exact ⟨b, rfl⟩

theorem eq_ok_of_isOk (h : result.isOk = true) (b : β) :
    result = .ok (result.toOption.getD b) := by
  obtain ⟨c, rfl⟩ := exists_eq_ok_of_isOk h
  rfl

/-- What is read off a result is read off the result of a step that has not failed. -/
theorem exists_eq_ok_of_map {f : β → γ} {c : γ} (h : result.toOption.map f = some c) :
    ∃ b, result = .ok b ∧ f b = c := by
  cases result with
  | error e => exact absurd h (by simp [Except.toOption])
  | ok b => exact ⟨b, rfl, Option.some.inj h⟩

end Results

end Keyspace
