import Mathlib.Algebra.BigOperators.Group.Finset.Piecewise
import P4db.Algorithm.CountMap
import P4db.Algorithm.LeastLoaded

/-!
# Balance of the greedy assignment

Items with weights are in bins; the list `es` has the bin and the weight of each item, in the order
in which they were put there.

* `Balanced.append_lowest`: an item that goes to the least loaded bin keeps the balance, by which no
  bin is above another one by more than its last item.
* `Balanced.average`: no bin is above the average by more than the greatest weight.
-/

namespace P4db.Balance

open CountMap (total)

/-- The weight in a bin. -/
def load (es : List (ℕ × ℕ)) (b : ℕ) : ℕ := total (es.filter fun e => e.1 = b)

/-- The weight of the last item of a bin. -/
def lastIn (es : List (ℕ × ℕ)) (b : ℕ) : ℕ :=
  ((es.filter fun e => e.1 = b).getLast?.map Prod.snd).getD 0

/-- No bin is above another one by more than its last item. -/
def Balanced (n : ℕ) (es : List (ℕ × ℕ)) : Prop :=
  ∀ a < n, ∀ b < n, load es a ≤ load es b + lastIn es a

theorem load_append_singleton (es : List (ℕ × ℕ)) (e : ℕ × ℕ) (b : ℕ) :
    load (es ++ [e]) b = load es b + if e.1 = b then e.2 else 0 := by
  unfold load
  rw [List.filter_append, CountMap.total_append]
  split_ifs with h
  · simp [h, total]
  · simp [h, total]

theorem lastIn_append_singleton (es : List (ℕ × ℕ)) (e : ℕ × ℕ) (b : ℕ) :
    lastIn (es ++ [e]) b = if e.1 = b then e.2 else lastIn es b := by
  unfold lastIn
  rw [List.filter_append]
  split_ifs with h
  · simp [h]
  · simp [h]

/-- A bin has no more than there is. -/
theorem load_le_total (es : List (ℕ × ℕ)) (b : ℕ) : load es b ≤ total es := by
  unfold load
  induction es with
  | nil => exact Nat.le_refl _
  | cons e es ih =>
    rw [List.filter_cons, CountMap.total_cons]
    split_ifs
    · rw [CountMap.total_cons]
      exact Nat.add_le_add_left ih _
    · exact Nat.le_trans ih (Nat.le_add_left _ _)

theorem balanced_nil (n : ℕ) : Balanced n [] := fun _ _ _ _ => Nat.zero_le _

/-- **The step of the greedy assignment.** -/
theorem Balanced.append_lowest {n : ℕ} {es : List (ℕ × ℕ)} (h : Balanced n es) (f : ℕ) :
    Balanced n (es ++ [(lowest n (load es), f)]) := by
  intro a ha b hb
  rw [load_append_singleton, load_append_singleton, lastIn_append_singleton]
  dsimp only
  have hold := h a ha b hb
  by_cases hlow : lowest n (load es) = a
  · -- the bin that got the item was not above any other one
    have hle := lowest_le (load es) hb
    rw [hlow] at hle ⊢
    rw [if_pos rfl]
    split_ifs <;> omega
  · rw [if_neg hlow]
    split_ifs <;> omega

theorem lastIn_le {es : List (ℕ × ℕ)} {M : ℕ} (hM : ∀ e ∈ es, e.2 ≤ M) (b : ℕ) :
    lastIn es b ≤ M := by
  unfold lastIn
  cases hlast : (es.filter fun e => e.1 = b).getLast? with
  | none => exact Nat.zero_le _
  | some e => exact hM e (List.mem_filter.mp (List.mem_of_getLast? hlast)).1

/-- The bins together have everything. -/
theorem sum_load {n : ℕ} {es : List (ℕ × ℕ)} (h : ∀ e ∈ es, e.1 < n) :
    ∑ b ∈ Finset.range n, load es b = total es := by
  induction es using List.reverseRecOn with
  | nil => exact Finset.sum_const_zero
  | append_singleton es e ih =>
    have he : e.1 < n := h e (List.mem_append_right _ List.mem_cons_self)
    simp only [load_append_singleton]
    rw [Finset.sum_add_distrib, ih fun e' he' => h e' (List.mem_append_left _ he'),
      Finset.sum_ite_eq, if_pos (Finset.mem_range.mpr he), CountMap.total_append,
      CountMap.total_cons]
    rfl

/-- No bin is above the average by more than the greatest weight. -/
theorem Balanced.average {n : ℕ} {es : List (ℕ × ℕ)} (h : Balanced n es) (hbin : ∀ e ∈ es, e.1 < n)
    {M : ℕ} (hM : ∀ e ∈ es, e.2 ≤ M) {a : ℕ} (ha : a < n) : n * load es a ≤ total es + n * M := by
  have hle : ∑ _b ∈ Finset.range n, load es a ≤ ∑ b ∈ Finset.range n, (load es b + M) := by
    refine Finset.sum_le_sum fun b hb => ?_
    exact Nat.le_trans (h a ha b (Finset.mem_range.mp hb)) (Nat.add_le_add_left (lastIn_le hM a) _)
  rw [Finset.sum_const, Finset.card_range, smul_eq_mul, Finset.sum_add_distrib, sum_load hbin,
    Finset.sum_const, Finset.card_range, smul_eq_mul] at hle
  exact hle

end P4db.Balance
