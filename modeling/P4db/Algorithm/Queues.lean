import Mathlib.Algebra.BigOperators.Group.Finset.Basic
import Mathlib.Algebra.Order.BigOperators.Group.Finset
import Mathlib.Algebra.Order.Group.Nat
import Mathlib.Data.Finset.Range
import Mathlib.Data.List.Count
import Mathlib.Logic.Function.Basic
import Mathlib.Tactic.Common

/-!
# A row of queues

`tally n qs x` says how often `x` stands in the first `n` queues of a row.  Work that moves one item
at a time keeps an account of it through `tally_update`: a queue that changes adds what it has
gained and loses what it has lost.  An item whose tally is at most 1 is in one queue only.
-/

namespace P4db.Queues

variable {α : Type*} [DecidableEq α]

/-- The number of times an item stands in the first `n` queues. -/
def tally (n : ℕ) (qs : ℕ → List α) (x : α) : ℕ := ∑ q ∈ Finset.range n, (qs q).count x

variable {n q q' : ℕ} {qs : ℕ → List α} {x : α}

theorem tally_update (hq : q < n) (qs : ℕ → List α) (l : List α) (x : α) :
    tally n (Function.update qs q l) x + (qs q).count x = tally n qs x + l.count x := by
  have hmem : q ∈ Finset.range n := Finset.mem_range.mpr hq
  have hrest : ∀ r ∈ (Finset.range n).erase q, (Function.update qs q l r).count x =
      (qs r).count x := by
    intro r hr
    rw [Function.update_of_ne (Finset.ne_of_mem_erase hr)]
  unfold tally
  rw [← Finset.sum_erase_add _ _ hmem, ← Finset.sum_erase_add _ _ hmem, Finset.sum_congr rfl hrest,
    Function.update_self]
  omega

theorem tally_push (hq : q < n) (qs : ℕ → List α) (y x : α) :
    tally n (Function.update qs q (qs q ++ [y])) x = tally n qs x + [y].count x := by
  have h := tally_update hq qs (qs q ++ [y]) x
  rw [List.count_append] at h
  omega

theorem tally_pop (hq : q < n) {y : α} {l : List α} (h : qs q = y :: l) (x : α) :
    tally n (Function.update qs q l) x + [y].count x = tally n qs x := by
  have h' := tally_update hq qs l x
  have hcount : (qs q).count x = [y].count x + l.count x := by
    rw [h, ← List.singleton_append, List.count_append]
  omega

theorem tally_of_empty (h : ∀ q < n, qs q = []) (x : α) : tally n qs x = 0 := by
  apply Finset.sum_eq_zero
  intro q hq
  rw [h q (Finset.mem_range.mp hq), List.count_nil]

theorem count_le_tally (hq : q < n) (qs : ℕ → List α) (x : α) : (qs q).count x ≤ tally n qs x :=
  Finset.single_le_sum (f := fun q => (qs q).count x) (fun _ _ => Nat.zero_le _)
    (Finset.mem_range.mpr hq)

theorem not_mem_of_tally (h : tally n qs x = 0) (hq : q < n) : x ∉ qs q := by
  rw [← List.count_eq_zero]
  have := count_le_tally hq qs x
  omega

/-- An item that is counted is in some queue. -/
theorem exists_mem_of_tally (h : tally n qs x ≠ 0) : ∃ q < n, x ∈ qs q := by
  obtain ⟨q, hq, hne⟩ := Finset.exists_ne_zero_of_sum_ne_zero h
  exact ⟨q, Finset.mem_range.mp hq, List.count_pos_iff.mp (Nat.pos_of_ne_zero hne)⟩

/-- An item that is counted once is in one queue. -/
theorem queue_unique (h : tally n qs x ≤ 1) (hq : q < n) (hq' : q' < n) (hx : x ∈ qs q)
    (hx' : x ∈ qs q') : q = q' := by
  by_contra hne
  -- without `q` the item is not counted any more, but it still is in `q'`
  have hupd := tally_update hq qs [] x
  have hle := count_le_tally hq' (Function.update qs q []) x
  rw [Function.update_of_ne (Ne.symm hne)] at hle
  have h₁ := List.count_pos_iff.mpr hx
  have h₂ := List.count_pos_iff.mpr hx'
  rw [List.count_nil] at hupd
  omega

/-- An item that is counted once stands once in one queue, and in no other. -/
theorem exists_count_of_tally (h : tally n qs x = 1) (hbeyond : ∀ q ≥ n, qs q = []) :
    ∃ q < n, ∀ q', (qs q').count x = if q' = q then 1 else 0 := by
  have hne : tally n qs x ≠ 0 := by omega
  obtain ⟨q, hq, hmem⟩ := exists_mem_of_tally hne
  refine ⟨q, hq, fun q' => ?_⟩
  rcases Nat.lt_or_ge q' n with hq' | hq'
  · have hle := count_le_tally hq' qs x
    split_ifs with heq
    · have := List.count_pos_iff.mpr (heq ▸ hmem)
      omega
    · rw [List.count_eq_zero]
      exact fun hmem' => heq (queue_unique (by omega) hq' hq hmem' hmem)
  · rw [hbeyond q' hq', if_neg (by omega), List.count_nil]

end P4db.Queues
