import Mathlib.Data.List.Count
import Mathlib.Data.List.Induction
import Mathlib.Data.List.Nodup
import Mathlib.Data.List.Perm.Basic
import Mathlib.Tactic.Common

/-!
# Counting with a map

A map from keys to numbers, as the list of its entries in the order in which they were inserted.

* `mem_countAll_iff`: after counting a list of keys, there is one entry for every key that occurs,
  with the number of its occurrences.
* `total_bump`: the sum of all counts goes up by one with every key.
-/

namespace P4db.CountMap

variable {α : Type*} [DecidableEq α]

/-- `m[key] += 1`, where a missing entry counts as 0. -/
def bump (key : α) : List (α × ℕ) → List (α × ℕ)
  | [] => [(key, 1)]
  | (k, n) :: m => if k = key then (k, n + 1) :: m else (k, n) :: bump key m

/-- Count the keys of a list. -/
def countAll (keys : List α) : List (α × ℕ) := keys.foldl (fun m key => bump key m) []

theorem mem_map_fst_bump {key k : α} {m : List (α × ℕ)} :
    k ∈ (bump key m).map Prod.fst ↔ k = key ∨ k ∈ m.map Prod.fst := by
  induction m with
  | nil => simp [bump]
  | cons e m ih =>
    unfold bump
    split_ifs with he
    · simp only [List.map_cons, List.mem_cons, he]
      tauto
    · simp only [List.map_cons, List.mem_cons, ih]
      tauto

theorem nodup_bump {m : List (α × ℕ)} (h : (m.map Prod.fst).Nodup) (key : α) :
    ((bump key m).map Prod.fst).Nodup := by
  induction m with
  | nil => exact List.nodup_singleton _
  | cons e m ih =>
    rw [List.map_cons, List.nodup_cons] at h
    unfold bump
    split_ifs with he
    · rw [List.map_cons, List.nodup_cons]
      exact h
    · rw [List.map_cons, List.nodup_cons, mem_map_fst_bump]
      exact ⟨fun hmem => hmem.elim he h.1, ih h.2⟩

/-- The entry of the key goes up by one, the others stay. -/
theorem mem_bump_iff {key : α} {m : List (α × ℕ)} (h : (m.map Prod.fst).Nodup) {k : α} {n : ℕ} :
    (k, n) ∈ bump key m ↔
      if k = key then (k, n - 1) ∈ m ∧ 0 < n ∨ k ∉ m.map Prod.fst ∧ n = 1 else (k, n) ∈ m := by
  induction m with
  | nil =>
    simp only [bump, List.mem_singleton, Prod.mk.injEq, List.map_nil, List.not_mem_nil, false_and,
      not_false_eq_true, true_and, false_or]
    split_ifs with hk <;> simp [hk]
  | cons e m ih =>
    obtain ⟨k', n'⟩ := e
    rw [List.map_cons, List.nodup_cons] at h
    unfold bump
    by_cases hk' : k' = key
    · subst hk'
      rw [if_pos rfl]
      by_cases hk : k = k'
      · subst hk
        have hnot : ∀ i, (k, i) ∉ m := fun i hi => h.1 (List.mem_map.mpr ⟨_, hi, rfl⟩)
        simp only [List.mem_cons, Prod.mk.injEq, true_and, hnot, or_false, if_true,
          List.map_cons, true_or, not_true_eq_false, false_and]
        omega
      · simp [hk]
    · rw [if_neg hk']
      have hih := ih h.2
      by_cases hk : k = key
      · subst hk
        rw [if_pos rfl] at hih ⊢
        simp only [List.mem_cons, Prod.mk.injEq, Ne.symm hk', false_and, false_or,
          List.map_cons, hih]
      · rw [if_neg hk] at hih ⊢
        simp only [List.mem_cons, hih]

/-- What counting has made of the keys so far. -/
theorem countAll_append_singleton (keys : List α) (key : α) :
    countAll (keys ++ [key]) = bump key (countAll keys) := by
  unfold countAll
  rw [List.foldl_append]
  rfl

theorem nodup_countAll (keys : List α) : ((countAll keys).map Prod.fst).Nodup := by
  induction keys using List.reverseRecOn with
  | nil => exact List.nodup_nil
  | append_singleton keys key ih =>
    rw [countAll_append_singleton]
    exact nodup_bump ih key

theorem mem_map_fst_countAll {keys : List α} {k : α} :
    k ∈ (countAll keys).map Prod.fst ↔ k ∈ keys := by
  induction keys using List.reverseRecOn with
  | nil => simp [countAll]
  | append_singleton keys key ih =>
    rw [countAll_append_singleton, mem_map_fst_bump, ih, List.mem_append, List.mem_singleton]
    tauto

/-- **The entries.** -/
theorem mem_countAll_iff {keys : List α} {k : α} {n : ℕ} :
    (k, n) ∈ countAll keys ↔ n = keys.count k ∧ 0 < n := by
  induction keys using List.reverseRecOn generalizing n with
  | nil => simp [countAll]
  | append_singleton keys key ih =>
    rw [countAll_append_singleton, mem_bump_iff (nodup_countAll keys), List.count_append,
      List.count_singleton, mem_map_fst_countAll]
    by_cases hk : k = key
    · subst hk
      rw [if_pos rfl, ih, if_pos (beq_self_eq_true k), ← List.count_pos_iff]
      omega
    · rw [if_neg hk, ih, if_neg (by simpa using Ne.symm hk), Nat.add_zero]

/-- The sum of all counts. -/
def total (m : List (α × ℕ)) : ℕ := m.foldr (fun e n => e.2 + n) 0

omit [DecidableEq α] in
theorem total_cons (e : α × ℕ) (m : List (α × ℕ)) : total (e :: m) = e.2 + total m := rfl

omit [DecidableEq α] in
theorem total_append (m m' : List (α × ℕ)) : total (m ++ m') = total m + total m' := by
  induction m with
  | nil => exact (Nat.zero_add _).symm
  | cons e m ih => rw [List.cons_append, total_cons, total_cons, ih, Nat.add_assoc]

omit [DecidableEq α] in
theorem total_perm {m m' : List (α × ℕ)} (h : m.Perm m') : total m = total m' := by
  induction h with
  | nil => rfl
  | cons e _ ih => rw [total_cons, total_cons, ih]
  | swap e e' m => simp only [total_cons, Nat.add_left_comm]
  | trans _ _ ih ih' => rw [ih, ih']

theorem total_bump (key : α) (m : List (α × ℕ)) : total (bump key m) = total m + 1 := by
  induction m with
  | nil => rfl
  | cons e m ih =>
    unfold bump
    split_ifs
    · simp only [total_cons]
      omega
    · simp only [total_cons, ih]
      omega

theorem total_countAll (keys : List α) : total (countAll keys) = keys.length := by
  induction keys using List.reverseRecOn with
  | nil => rfl
  | append_singleton keys key ih =>
    rw [countAll_append_singleton, total_bump, ih, List.length_append, List.length_singleton]

end P4db.CountMap
