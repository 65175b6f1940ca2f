import Mathlib.Data.List.Count
import Mathlib.Data.List.Perm.Basic
import Mathlib.Logic.Function.Basic
import Mathlib.Tactic.Common

/-!
# Items in places

A family of queues, one for each place.  `Placed` says where every item is: once in the queue of its
place, and in no other queue.  Moving an item from the queue of its place to another one gives it a
new place (`Placed.move`).
-/

namespace P4db.Placement

variable {α κ : Type*} [DecidableEq α] [DecidableEq κ]

/-- Every item is where `place` says, and nowhere else. -/
def Placed (qs : κ → List α) (place : α → Option κ) : Prop :=
  ∀ x k, (qs k).count x = if place x = some k then 1 else 0

variable {qs : κ → List α} {place : α → Option κ} {x : α} {k k' : κ} {l l' : List α}

theorem Placed.mem_iff (h : Placed qs place) : x ∈ qs k ↔ place x = some k := by
  rw [← List.count_pos_iff, h x k]
  split_ifs with hk <;> simp [hk]

/-- An item is moved; the queues are given up to their order. -/
theorem Placed.move (h : Placed qs place) (hne : k ≠ k') (hl : (qs k).Perm (x :: l))
    (hl' : l'.Perm (x :: qs k')) :
    Placed (Function.update (Function.update qs k l) k' l')
      (Function.update place x (some k')) := by
  have hx : place x = some k := by
    rw [← h.mem_iff, hl.mem_iff]
    exact List.mem_cons_self
  intro y j
  by_cases hj' : j = k'
  · -- the queue that the item joins
    subst hj'
    rw [Function.update_self, hl'.count_eq, List.count_cons, h y j]
    by_cases hy : y = x
    · subst hy
      simp [hx, hne]
    · simp [hy, Ne.symm hy]
  · rw [Function.update_of_ne hj']
    by_cases hj : j = k
    · -- the queue that it leaves
      subst hj
      have hcount := h y j
      rw [hl.count_eq, List.count_cons] at hcount
      rw [Function.update_self]
      by_cases hy : y = x
      · subst hy
        simp only [hx, beq_self_eq_true, if_true] at hcount
        simp only [Function.update_self, Option.some.injEq, hne.symm, if_false]
        omega
      · simpa [hy, Ne.symm hy] using hcount
    · rw [Function.update_of_ne hj, h y j]
      by_cases hy : y = x
      · subst hy
        simp [hx, Ne.symm hj, Ne.symm hj']
      · rw [Function.update_of_ne hy]

end P4db.Placement
