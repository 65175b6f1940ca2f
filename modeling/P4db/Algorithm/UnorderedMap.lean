import Mathlib.Logic.Function.Basic
import Mathlib.Data.List.Nodup
import Mathlib.Tactic.Common

/-!
# Partial maps with `emplace`

A map from `α` to `β` is a function `α → Option β`.  `emplace` is the insertion of the C++
associative containers: it does nothing when the key is present.  `emplaceAll` inserts a list of
pairs in order, so for every key the first pair wins; when the keys of the list are distinct the
result holds exactly the pairs of the list (`emplaceAll_eq_some_iff`).
-/

namespace P4db.UnorderedMap

variable {α β : Type*} [DecidableEq α]

/-- Insert `b` at `a` unless `a` is already present. -/
def emplace (m : α → Option β) (a : α) (b : β) : α → Option β :=
  if (m a).isSome then m else Function.update m a (some b)

/-- Insert the pairs of a list in order. -/
def emplaceAll (m : α → Option β) (l : List (α × β)) : α → Option β :=
  l.foldl (fun m p => emplace m p.1 p.2) m

/-- The empty map. -/
def empty : α → Option β := fun _ => none

theorem emplace_of_none {m : α → Option β} {a : α} (b : β) (h : m a = none) :
    emplace m a b = Function.update m a (some b) := by
  simp [emplace, h]

theorem emplace_of_some {m : α → Option β} {a : α} {c : β} (b : β) (h : m a = some c) :
    emplace m a b = m := by
  simp [emplace, h]

@[simp] theorem emplaceAll_cons (m : α → Option β) (p : α × β) (l : List (α × β)) :
    emplaceAll m (p :: l) = emplaceAll (emplace m p.1 p.2) l := rfl

theorem emplace_ne (m : α → Option β) {a k : α} (b : β) (h : k ≠ a) :
    emplace m a b k = m k := by
  unfold emplace
  split_ifs
  · rfl
  · exact Function.update_of_ne h _ _

/-- A map of maps is a map on pairs: inserting into one inner map inserts into the map on pairs. -/
theorem update_emplace_apply {γ : Type*} [DecidableEq β] (m : α → β → Option γ) (a : α) (b : β)
    (c : γ) (q : α × β) :
    Function.update m a (emplace (m a) b c) q.1 q.2 =
      emplace (fun q : α × β => m q.1 q.2) (a, b) c q := by
  obtain ⟨a', b'⟩ := q
  cases h : m a b with
  | some d =>
    rw [emplace_of_some c h, emplace_of_some c (m := fun q : α × β => m q.1 q.2) h]
    simp [Function.update_eq_self]
  | none =>
    rw [emplace_of_none c h, emplace_of_none c (m := fun q : α × β => m q.1 q.2) h]
    by_cases ha : a' = a
    · subst ha
      by_cases hb : b' = b
      · subst hb; simp
      · rw [Function.update_self, Function.update_of_ne hb,
          Function.update_of_ne (fun h => hb (Prod.mk.inj h).2)]
    · rw [Function.update_of_ne ha, Function.update_of_ne (fun h => ha (Prod.mk.inj h).1)]

/-- A present key keeps its value. -/
theorem emplaceAll_of_some {m : α → Option β} {k : α} {c : β} (h : m k = some c)
    (l : List (α × β)) : emplaceAll m l k = some c := by
  induction l generalizing m with
  | nil => exact h
  | cons p l ih =>
    rw [emplaceAll_cons]
    apply ih
    by_cases hk : k = p.1
    · subst hk; rw [emplace_of_some _ h]; exact h
    · rw [emplace_ne _ _ hk]; exact h

/-- A key that no pair carries is not touched. -/
theorem emplaceAll_of_not_mem (m : α → Option β) {k : α} (l : List (α × β))
    (h : k ∉ l.map Prod.fst) : emplaceAll m l k = m k := by
  induction l generalizing m with
  | nil => rfl
  | cons p l ih =>
    rw [List.map_cons, List.mem_cons, not_or] at h
    rw [emplaceAll_cons, ih _ h.2, emplace_ne _ _ h.1]

/-- Every inserted key is present, with the value of some pair of the list. -/
theorem exists_mem_of_mem_keys (m : α → Option β) {k : α} (l : List (α × β)) (h0 : m k = none)
    (h : k ∈ l.map Prod.fst) : ∃ b, (k, b) ∈ l ∧ emplaceAll m l k = some b := by
  induction l generalizing m with
  | nil => simp at h
  | cons p l ih =>
    by_cases hk : k = p.1
    · refine ⟨p.2, by simp [hk], ?_⟩
      rw [emplaceAll_cons]
      apply emplaceAll_of_some
      rw [← hk, emplace_of_none _ h0, Function.update_self]
    · rw [List.map_cons, List.mem_cons, or_iff_right hk] at h
      obtain ⟨b, hb, hl⟩ := ih (emplace m p.1 p.2) (by rw [emplace_ne _ _ hk]; exact h0) h
      exact ⟨b, List.mem_cons_of_mem _ hb, by rw [emplaceAll_cons, hl]⟩

theorem mem_of_emplaceAll_eq_some {l : List (α × β)} {k : α} {b : β}
    (h : emplaceAll empty l k = some b) : (k, b) ∈ l := by
  by_cases hk : k ∈ l.map Prod.fst
  · obtain ⟨c, hc, hl⟩ := exists_mem_of_mem_keys empty l rfl hk
    rw [hl] at h
    rwa [← Option.some.inj h]
  · rw [emplaceAll_of_not_mem _ _ hk] at h
    exact absurd h (by simp [empty])

/-- With distinct keys, the map holds exactly the pairs of the list. -/
theorem emplaceAll_eq_some_iff (l : List (α × β)) (hnd : (l.map Prod.fst).Nodup) (k : α) (b : β) :
    emplaceAll empty l k = some b ↔ (k, b) ∈ l := by
  have hinj : ∀ p ∈ l, ∀ q ∈ l, p.1 = q.1 → p = q := fun p hp q hq h =>
    List.inj_on_of_nodup_map hnd hp hq h
  refine ⟨mem_of_emplaceAll_eq_some, fun h => ?_⟩
  obtain ⟨c, hc, hl⟩ := exists_mem_of_mem_keys empty l rfl (List.mem_map_of_mem h)
  have hcb := hinj _ hc _ h rfl
  rw [hl, (Prod.mk.inj hcb).2]

end P4db.UnorderedMap
