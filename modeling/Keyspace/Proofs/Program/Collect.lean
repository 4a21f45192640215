import Keyspace.Proofs.Scalar.Laws
import Keyspace.Proofs.Sorted.Map
import Keyspace.Program.Collect

/-!
# Like terms keep the value of a form

`LinearForm.collect` merges the terms of each variable.  The coefficients of a variable are added
up before they meet its value, which makes no difference to a rational value, whatever the
coefficients (`LinearForm.eval_collect`).  No variable is left twice
(`LinearForm.isCollected_collect`), and none comes in that was not there.
-/

namespace Keyspace

open Scalar
open Exact (finite)

namespace LinearForm

/-- A form without repeated variables, which stand in ascending order. -/
def IsCollected {α : Type} (f : LinearForm α) : Prop := f.Pairwise fun s t => s.1 < t.1

theorem isCollected_collect {α : Type} [Scalar α] (f : LinearForm α) : f.collect.IsCollected :=
  (SortedMap.ascending _).imp fun h => Nat.compare_eq_lt.mp h

variable {f : LinearForm Exact} {values : List Exact}

theorem eval_cons (t : ℕ × Exact) :
    LinearForm.eval (t :: f) values = t.2 * values.getD t.1 zero + f.eval values := by
  rw [LinearForm.eval, LinearForm.eval, Exact.sum_eq, Exact.sum_eq, List.map_cons, List.sum_cons]

/-- A coefficient that is added to a variable's counts as a term of its own. -/
theorem eval_alterIn {v : ℕ} (x : Exact) (hv : (values.getD v zero).IsFinite) :
    LinearForm.eval (SortedMap.alterIn v (fun c => c.getD zero + x) f) values
      = x * values.getD v zero + f.eval values := by
  obtain ⟨q, hq⟩ := hv
  induction f with
  | nil =>
    have hzero : (zero : Exact) + x = x := zero_add x
    rw [SortedMap.alterIn, eval_cons, Option.getD_none, hzero]
  | cons head rest ih =>
    obtain ⟨j, c⟩ := head
    unfold SortedMap.alterIn
    split
    · have hzero : (zero : Exact) + x = x := zero_add x
      rw [eval_cons, Option.getD_none, hzero]
    next heq =>
      obtain rfl := Nat.compare_eq_eq.mp heq
      rw [eval_cons, eval_cons, Option.getD_some, hq, Exact.add_mul_finite, add_assoc,
        add_left_comm]
    · rw [eval_cons, eval_cons, ih, add_left_comm]

/-- **Like terms may be collected before a form is evaluated.** -/
theorem eval_collect (hvalues : ∀ x ∈ values, x.IsFinite) :
    f.collect.eval values = f.eval values := by
  suffices general : ∀ (f : LinearForm Exact) (m : SortedMap ℕ Exact),
      LinearForm.eval (f.foldl (fun m t => m.alter t.1 fun c => c.getD zero + t.2) m).entries values
        = f.eval values + LinearForm.eval m.entries values by
    exact (general f ∅).trans (add_zero _)
  intro f
  induction f with
  | nil => exact fun m => (zero_add _).symm
  | cons t rest ih =>
    intro m
    have hv : (values.getD t.1 zero).IsFinite :=
      Exact.getD_of_forall_mem ⟨0, Exact.zero_eq⟩ hvalues t.1
    rw [List.foldl_cons, ih, eval_cons, SortedMap.alter, eval_alterIn t.2 hv, add_left_comm,
      add_assoc]

/-- Collected coefficients of some variables are rational if all coefficients of these are. -/
theorem isFinite_of_mem_collect {n : ℕ} (hf : ∀ t ∈ f, t.1 < n ∧ t.2.IsFinite) :
    ∀ t ∈ f.collect, t.1 < n ∧ t.2.IsFinite := by
  suffices general : ∀ (f : LinearForm Exact) (m : SortedMap ℕ Exact),
      (∀ t ∈ f, t.1 < n ∧ t.2.IsFinite) → (∀ t ∈ m.entries, t.1 < n ∧ t.2.IsFinite) →
      ∀ t ∈ (f.foldl (fun m t => m.alter t.1 fun c => c.getD zero + t.2) m).entries,
        t.1 < n ∧ t.2.IsFinite by
    exact general f ∅ hf fun t ht => absurd ht List.not_mem_nil
  intro f
  induction f with
  | nil => exact fun m _ hm => hm
  | cons head rest ih =>
    intro m hf hm
    obtain ⟨⟨hhead, p, hp⟩, hrest⟩ := List.forall_mem_cons.mp hf
    refine ih _ hrest fun t ht => ?_
    rcases SortedMap.mem_alterIn ht with ht | rfl | ⟨c, hc, -, ht⟩
    · exact hm t ht
    · exact ⟨hhead, p, by simp [hp]⟩
    · obtain ⟨hlt, q, rfl⟩ := hm _ hc
      exact ⟨hlt, q + p, by rw [ht, hp, Option.getD_some, Exact.finite_add_finite]⟩

end LinearForm

end Keyspace
