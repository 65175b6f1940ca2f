import Mathlib.Data.List.Basic
import Mathlib.Tactic.Common

/-!
# Filling an array

An array of fixed size is filled from some position on; what is written may depend on what was
there.  A write beyond the end is a fault.

* `foldlM_put`: a loop that writes one entry for each item of a list.
* `modify_length`: a change of the next entry.
-/

namespace P4db.Fill

variable {α β : Type*}

/-- `arr[p] = f(arr[p])`. -/
def modify (f : α → α) (arr : List α) (p : ℕ) : Option (List α) := do
  let old ← arr[p]?
  some (arr.set p (f old))

/-- `arr[p] = f(arr[p], x); p += 1`. -/
def put (f : α → β → α) (st : List α × ℕ) (x : β) : Option (List α × ℕ) := do
  let arr ← modify (fun old => f old x) st.1 st.2
  some (arr, st.2 + 1)

theorem modify_length (f : α → α) (l : List α) (x : α) (l' : List α) :
    modify f (l ++ x :: l') l.length = some (l ++ f x :: l') := by
  unfold modify
  simp

theorem put_length (f : α → β → α) (l : List α) (old : α) (l' : List α) (x : β) :
    put f (l ++ old :: l', l.length) x = some (l ++ f old x :: l', l.length + 1) := by
  unfold put
  rw [modify_length]
  rfl

/-- **The loop.** -/
theorem foldlM_put (f : α → β → α) {xs : List β} {old : List α} (h : xs.length ≤ old.length)
    (l : List α) :
    xs.foldlM (put f) (l ++ old, l.length) =
      some (l ++ List.zipWith f old xs ++ old.drop xs.length, l.length + xs.length) := by
  induction xs generalizing l old with
  | nil => simp
  | cons x xs ih =>
    cases old with
    | nil => exact absurd h (Nat.not_succ_le_zero _)
    | cons y old =>
      have hnext := ih (Nat.le_of_succ_le_succ h) (l ++ [f y x])
      rw [List.length_append, List.length_singleton, List.append_assoc,
        List.singleton_append] at hnext
      rw [List.foldlM_cons, put_length, Option.bind_eq_bind, Option.bind_some, hnext]
      simp only [List.zipWith_cons_cons, List.append_assoc, List.cons_append, List.nil_append,
        List.length_cons, List.drop_succ_cons]
      congr 2
      omega

/-- Where what is written does not depend on what was there. -/
theorem zipWith_eq_map {f : α → β → α} {g : β → α} {xs : List β} {old : List α}
    (hf : ∀ y ∈ old, ∀ x, f y x = g x) (h : xs.length ≤ old.length) :
    List.zipWith f old xs = xs.map g := by
  induction xs generalizing old with
  | nil => simp
  | cons x xs ih =>
    cases old with
    | nil => exact absurd h (Nat.not_succ_le_zero _)
    | cons y old =>
      rw [List.zipWith_cons_cons, List.map_cons, hf y List.mem_cons_self,
        ih (fun z hz => hf z (List.mem_cons_of_mem y hz)) (Nat.le_of_succ_le_succ h)]

end P4db.Fill
