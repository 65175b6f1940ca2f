import Mathlib.Data.Fintype.Card
import Mathlib.Tactic.Common

/-!
# Counting threads

How many members of a finite family are in some condition, and how this changes when one of them
moves.

* `headCount_update`: a member that moves into the condition adds one, and one that moves out of it
  takes one away.
* `forall_of_headCount`: if all are counted, all are in the condition.
-/

namespace P4db

variable {ι α : Type*} [Fintype ι] {P : α → Bool} {f : ι → α}

/-- The number of members for which `P` holds. -/
def headCount (P : α → Bool) (f : ι → α) : ℕ := (Finset.univ.filter fun i => P (f i) = true).card

theorem headCount_update [DecidableEq ι] (P : α → Bool) (f : ι → α) (i : ι) (x : α) :
    headCount P (Function.update f i x) + (P (f i)).toNat = headCount P f + (P x).toNat := by
  -- the others do not change
  have hrest : ∀ g : ι → α, headCount P g =
      ((Finset.univ.erase i).filter fun j => P (g j) = true).card + (P (g i)).toNat := by
    intro g
    unfold headCount
    rw [← Finset.insert_erase (Finset.mem_univ i), Finset.filter_insert]
    split_ifs with hi
    · rw [Finset.card_insert_of_notMem (by simp), Finset.erase_insert (by simp), hi]
      rfl
    · rw [Finset.erase_insert (by simp), Bool.eq_false_of_not_eq_true hi]
      rfl
  have hsame : ((Finset.univ.erase i).filter fun j => P (Function.update f i x j) = true) =
      (Finset.univ.erase i).filter fun j => P (f j) = true := by
    apply Finset.filter_congr
    intro j hj
    rw [Function.update_of_ne (Finset.ne_of_mem_erase hj)]
  rw [hrest, hrest f, hsame, Function.update_self]
  omega

theorem headCount_update_of_eq [DecidableEq ι] {i : ι} {x : α} (h : P x = P (f i)) :
    headCount P (Function.update f i x) = headCount P f := by
  have hupd := headCount_update P f i x
  rw [h] at hupd
  omega

theorem headCount_le (P : α → Bool) (f : ι → α) : headCount P f ≤ Fintype.card ι :=
  Finset.card_le_univ _

theorem headCount_pos {i : ι} (h : P (f i) = true) : 0 < headCount P f :=
  Finset.card_pos.mpr ⟨i, Finset.mem_filter.mpr ⟨Finset.mem_univ i, h⟩⟩

theorem headCount_lt {i : ι} (h : P (f i) = false) : headCount P f < Fintype.card ι := by
  apply Finset.card_lt_univ_of_notMem (x := i)
  simp [h]

theorem forall_of_headCount (h : headCount P f = Fintype.card ι) (i : ι) : P (f i) = true := by
  by_contra hne
  have hlt := headCount_lt (Bool.eq_false_of_not_eq_true hne)
  omega

theorem headCount_congr {Q : α → Bool} (h : ∀ i, P (f i) = Q (f i)) :
    headCount P f = headCount Q f := by
  unfold headCount
  simp only [h]

theorem headCount_eq_zero (h : ∀ i, P (f i) = false) : headCount P f = 0 := by
  unfold headCount
  rw [Finset.card_eq_zero, Finset.filter_eq_empty_iff]
  simp [h]

theorem headCount_eq_card (h : ∀ i, P (f i) = true) : headCount P f = Fintype.card ι := by
  unfold headCount
  simp [h, Finset.card_univ]

theorem headCount_eq_one {i : ι} (h : ∀ j, P (f j) = true ↔ j = i) : headCount P f = 1 := by
  unfold headCount
  rw [Finset.card_eq_one]
  exact ⟨i, by ext j; simp [h]⟩

theorem headCount_le_of_imp {Q : α → Bool} (h : ∀ i, P (f i) = true → Q (f i) = true) :
    headCount P f ≤ headCount Q f :=
  Finset.card_le_card (Finset.monotone_filter_right _ fun i _ => h i)

end P4db
