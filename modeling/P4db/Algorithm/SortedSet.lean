import Mathlib.Data.List.Perm.Basic
import Mathlib.Tactic.Common

/-!
# Ordered sets

An ordered set as the list of its elements, from the least to the greatest in the order of a
comparator.  Two elements are the same to the set if neither is less than the other.

* `upperBound_split`: the upper bound cuts the list between what is greater and what is not.
* `perm_insert`, `pairwise_insert`: an insertion adds the element and keeps the order.
-/

namespace P4db.SortedSet

variable {α : Type*} (lt : α → α → Bool)

/-- Insert an element, unless the same element is there. -/
def insert (x : α) : List α → List α
  | [] => [x]
  | y :: l => if lt x y then x :: y :: l else if lt y x then y :: insert x l else y :: l

/-- The index of the first element greater than `x`, or the size if there is none. -/
def upperBound (x : α) (l : List α) : ℕ := (l.takeWhile fun y => !lt x y).length

variable {lt}

/-- An element that is new to the set is added. -/
theorem perm_insert {x : α} {l : List α} (h : ∀ y ∈ l, lt x y = true ∨ lt y x = true) :
    (insert lt x l).Perm (x :: l) := by
  induction l with
  | nil => exact .refl _
  | cons y l ih =>
    unfold insert
    split_ifs with hxy hyx
    · exact .refl _
    · exact ((ih fun z hz => h z (List.mem_cons_of_mem _ hz)).cons y).trans (.swap x y l)
    · rcases h y List.mem_cons_self with hlt | hlt
      · exact absurd hlt hxy
      · exact absurd hlt hyx

variable (lt) in
theorem upperBound_le (x : α) (l : List α) : upperBound lt x l ≤ l.length :=
  (List.takeWhile_sublist _).length_le

theorem mem_of_mem_insert {x y : α} {l : List α} (h : y ∈ insert lt x l) : y = x ∨ y ∈ l := by
  induction l with
  | nil => exact .inl (List.mem_singleton.mp h)
  | cons z l ih =>
    unfold insert at h
    split_ifs at h with hxz hzx
    · exact List.mem_cons.mp h
    · rcases List.mem_cons.mp h with rfl | h
      · exact .inr List.mem_cons_self
      · exact (ih h).imp_right (List.mem_cons_of_mem z)
    · exact .inr h

section Order

variable (htrans : ∀ x y z, lt x y = true → lt y z = true → lt x z = true)
include htrans

theorem pairwise_insert {l : List α} (h : l.Pairwise fun a b => lt a b = true) (x : α) :
    (insert lt x l).Pairwise fun a b => lt a b = true := by
  induction l with
  | nil => exact List.pairwise_singleton _ _
  | cons y l ih =>
    obtain ⟨hy, hl⟩ := List.pairwise_cons.mp h
    unfold insert
    split_ifs with hxy hyx
    · refine List.pairwise_cons.mpr ⟨fun z hz => ?_, h⟩
      rcases List.mem_cons.mp hz with rfl | hz
      · exact hxy
      · exact htrans x y z hxy (hy z hz)
    · refine List.pairwise_cons.mpr ⟨fun z hz => ?_, ih hl⟩
      rcases mem_of_mem_insert hz with rfl | hz
      · exact hyx
      · exact hy z hz
    · exact h

/-- What is not greater than `x` stands before the upper bound, and what is greater behind it. -/
theorem upperBound_split {l : List α} (h : l.Pairwise fun a b => lt a b = true) (x : α) :
    ∃ pre post, l = pre ++ post ∧ upperBound lt x l = pre.length ∧ (∀ y ∈ pre, lt x y = false) ∧
      ∀ y ∈ post, lt x y = true := by
  induction l with
  | nil => exact ⟨[], [], rfl, rfl, by simp, by simp⟩
  | cons y l ih =>
    obtain ⟨hy, hl⟩ := List.pairwise_cons.mp h
    cases hxy : lt x y with
    | true =>
      refine ⟨[], y :: l, rfl, ?_, by simp, fun z hz => ?_⟩
      · unfold upperBound
        simp [hxy]
      · rcases List.mem_cons.mp hz with rfl | hz
        · exact hxy
        · exact htrans x y z hxy (hy z hz)
    | false =>
      obtain ⟨pre, post, hsplit, hlen, hpre, hpost⟩ := ih hl
      refine ⟨y :: pre, post, by rw [hsplit, List.cons_append], ?_, fun z hz => ?_, hpost⟩
      · unfold upperBound at hlen ⊢
        simp [hxy, hlen]
      · rcases List.mem_cons.mp hz with rfl | hz
        · exact hxy
        · exact hpre z hz

end Order

end P4db.SortedSet
