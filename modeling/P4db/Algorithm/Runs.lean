import Mathlib.Data.List.Basic
import Mathlib.Data.List.Nodup
import Mathlib.Tactic.Common

/-!
# Runs of equal keys

`runs f l` cuts a list into its maximal runs of equal keys.  In a list whose keys do not go down in
some antisymmetric relation, a run is all there is of its key.

* `mem_runs_iff`: the runs of a sorted list.
-/

namespace P4db.Runs

variable {α κ : Type*} [DecidableEq κ] (f : α → κ)

/-- The maximal runs of equal keys. -/
def runs : List α → List (List α)
  | [] => []
  | x :: l => (x :: l.takeWhile fun y => f y = f x) :: runs (l.dropWhile fun y => f y = f x)
termination_by l => l.length
decreasing_by exact Nat.lt_succ_of_le (List.dropWhile_sublist _).length_le

theorem runs_nil : runs f [] = [] := by
  unfold runs
  rfl

theorem runs_cons (x : α) (l : List α) : runs f (x :: l) =
    (x :: l.takeWhile fun y => f y = f x) :: runs f (l.dropWhile fun y => f y = f x) := by
  conv_lhs => unfold runs

section Sorted

variable {le : κ → κ → Prop} {f} {x : α} {l : List α}

/-- The keys do not go down. -/
def Sorted (le : κ → κ → Prop) (f : α → κ) (l : List α) : Prop :=
  l.Pairwise fun x y => le (f x) (f y)

omit [DecidableEq κ] in
theorem Sorted.filter (h : Sorted le f l) (p : α → Bool) : Sorted le f (l.filter p) :=
  h.sublist List.filter_sublist

variable (hanti : ∀ a b, le a b → le b a → a = b)
include hanti

/-- Behind its first element, a run is what has the same key, and the rest is what has not. -/
theorem takeWhile_dropWhile_of_sorted (h : Sorted le f (x :: l)) :
    (l.takeWhile fun y => f y = f x) = l.filter (fun y => f y = f x) ∧
      (l.dropWhile fun y => f y = f x) = l.filter fun y => f y ≠ f x := by
  induction l with
  | nil => exact ⟨rfl, rfl⟩
  | cons y l ih =>
    obtain ⟨hx, hyl⟩ := List.pairwise_cons.mp h
    obtain ⟨hy, hl⟩ := List.pairwise_cons.mp hyl
    have hxl : Sorted le f (x :: l) :=
      List.pairwise_cons.mpr ⟨fun z hz => hx z (List.mem_cons_of_mem y hz), hl⟩
    by_cases hyx : f y = f x
    · simp [hyx, ih hxl]
    · -- from here on all keys are greater
      have hgt : ∀ z ∈ y :: l, f z ≠ f x := by
        intro z hz heq
        rcases List.mem_cons.mp hz with rfl | hz
        · exact hyx heq
        · exact hyx (hanti _ _ (heq ▸ hy z hz) (hx y List.mem_cons_self))
      have hnone : (y :: l).filter (fun z => f z = f x) = [] := by
        rw [List.filter_eq_nil_iff]
        intro z hz
        simpa using hgt z hz
      have hall : (y :: l).filter (fun z => f z ≠ f x) = y :: l := by
        rw [List.filter_eq_self]
        intro z hz
        simpa using hgt z hz
      rw [hnone, hall]
      simp [hyx]

theorem runs_cons_of_sorted (h : Sorted le f (x :: l)) :
    runs f (x :: l) = (x :: l).filter (fun y => f y = f x) ::
      runs f ((x :: l).filter fun y => f y ≠ f x) := by
  obtain ⟨htake, hdrop⟩ := takeWhile_dropWhile_of_sorted hanti h
  rw [runs_cons, htake, hdrop]
  simp

omit hanti in
/-- Induction on the runs of a sorted list. -/
theorem sorted_induction {P : List α → Prop} (hnil : P [])
    (hcons : ∀ x l, Sorted le f (x :: l) → P ((x :: l).filter fun y => f y ≠ f x) → P (x :: l))
    (h : Sorted le f l) : P l := by
  suffices hall : ∀ n, ∀ l : List α, l.length ≤ n → Sorted le f l →
      P l from hall l.length l (Nat.le_refl _) h
  intro n
  induction n with
  | zero =>
    intro l hlen _
    rw [List.eq_nil_of_length_eq_zero (Nat.le_zero.mp hlen)]
    exact hnil
  | succ n ih =>
    intro l hlen hl
    cases l with
    | nil => exact hnil
    | cons x l =>
      refine hcons x l hl (ih _ ?_ (hl.filter _))
      have hle := List.length_filter_le (fun y => decide (f y ≠ f x)) l
      simp only [ne_eq, not_true_eq_false, decide_false, Bool.false_eq_true, not_false_eq_true,
        List.filter_cons_of_neg]
      rw [List.length_cons] at hlen
      exact Nat.le_trans hle (Nat.le_of_succ_le_succ hlen)

/-- **The runs of a sorted list.** -/
theorem mem_runs_iff (h : Sorted le f l) {run : List α} :
    run ∈ runs f l ↔ ∃ x ∈ l, run = l.filter fun y => f y = f x := by
  refine sorted_induction (P := fun l => ∀ run, run ∈ runs f l ↔
    ∃ x ∈ l, run = l.filter fun y => f y = f x) ?_ ?_ h run
  · simp [runs_nil]
  · intro x l hl ih run
    rw [runs_cons_of_sorted hanti hl, List.mem_cons, ih]
    have hrest : ∀ z, f z ≠ f x →
        ((x :: l).filter fun y => f y ≠ f x).filter (fun y => f y = f z) = (x :: l).filter fun y =>
          f y = f z := by
      intro z hz
      rw [List.filter_filter]
      apply List.filter_congr
      intro y _
      by_cases hy : f y = f z
      · simp [hy, hz]
      · simp [hy]
    constructor
    · rintro (rfl | ⟨z, hz, rfl⟩)
      · exact ⟨x, List.mem_cons_self, rfl⟩
      · obtain ⟨hz, hne⟩ := List.mem_filter.mp hz
        exact ⟨z, hz, hrest z (by simpa using hne)⟩
    · rintro ⟨z, hz, rfl⟩
      by_cases hzx : f z = f x
      · left
        rw [hzx]
      · right
        exact ⟨z, List.mem_filter.mpr ⟨hz, by simpa using hzx⟩, (hrest z hzx).symm⟩

end Sorted

end P4db.Runs
