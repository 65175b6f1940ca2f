import Mathlib.Data.List.Nodup
import Mathlib.Data.List.Perm.Basic
import Mathlib.Logic.Function.Basic
import Mathlib.Tactic.Common

/-!
# Tickets

Tickets are given out one after the other; a party that has taken one holds it until it uses it.
`Account` keeps track of all tickets: every one that was given out is held by one party or was used
once.

* `Account.take`, `Account.use`: the two things a party does.
* `Account.perm`: when no party holds one any more, every ticket was used once.
-/

namespace P4db.Tickets

variable {α ι : Type*}

/-- What became of the tickets that were given out. -/
structure Account (given : List α) (hold : ι → Option α) (used : List α) : Prop where
  nodup : used.Nodup
  used_given : ∀ x ∈ used, x ∈ given
  hold_given : ∀ i x, hold i = some x → x ∈ given
  hold_unused : ∀ i x, hold i = some x → x ∉ used
  hold_inj : ∀ i j x, hold i = some x → hold j = some x → i = j
  complete : ∀ x ∈ given, x ∈ used ∨ ∃ i, hold i = some x

theorem account_nil : Account ([] : List α) (fun _ : ι => none) [] := by
  constructor <;> simp

variable {given used : List α} {hold : ι → Option α} {i : ι} {x : α}

theorem Account.perm (h : Account given hold used) (hgiven : given.Nodup)
    (hnone : ∀ i, hold i = none) : used.Perm given := by
  rw [List.perm_ext_iff_of_nodup h.nodup hgiven]
  intro y
  constructor
  · exact h.used_given y
  · intro hy
    rcases h.complete y hy with hused | ⟨i, hi⟩
    · exact hused
    · rw [hnone i] at hi
      exact absurd hi (by simp)

variable [DecidableEq ι]

theorem update_eq_some {v : Option α} {j : ι} {y : α} (h : Function.update hold i v j = some y) :
    j = i ∧ v = some y ∨ j ≠ i ∧ hold j = some y := by
  by_cases hj : j = i
  · subst hj
    rw [Function.update_self] at h
    exact .inl ⟨rfl, h⟩
  · rw [Function.update_of_ne hj] at h
    exact .inr ⟨hj, h⟩

/-- A party with empty hands takes a new ticket. -/
theorem Account.take (h : Account given hold used) (hi : hold i = none) (hx : x ∉ given) :
    Account (given ++ [x]) (Function.update hold i (some x)) used := by
  have hold_of : ∀ j y, Function.update hold i (some x) j = some y →
      j = i ∧ y = x ∨ j ≠ i ∧ hold j = some y := by
    intro j y hj
    rcases update_eq_some hj with ⟨rfl, heq⟩ | hother
    · exact .inl ⟨rfl, (Option.some.inj heq).symm⟩
    · exact .inr hother
  constructor
  case nodup => exact h.nodup
  case used_given => exact fun y hy => List.mem_append_left _ (h.used_given y hy)
  case hold_given =>
    intro j y hj
    rcases hold_of j y hj with ⟨-, rfl⟩ | ⟨-, hj⟩
    · exact List.mem_append_right _ List.mem_cons_self
    · exact List.mem_append_left _ (h.hold_given j y hj)
  case hold_unused =>
    intro j y hj
    rcases hold_of j y hj with ⟨-, rfl⟩ | ⟨-, hj⟩
    · exact fun hused => hx (h.used_given y hused)
    · exact h.hold_unused j y hj
  case hold_inj =>
    intro j k y hj hk
    rcases hold_of j y hj with ⟨hji, hyx⟩ | ⟨-, hj⟩
      <;> rcases hold_of k y hk with ⟨hki, hyx'⟩ | ⟨-, hk⟩
    · rw [hji, hki]
    · exact absurd (h.hold_given k y hk) (hyx ▸ hx)
    · exact absurd (h.hold_given j y hj) (hyx' ▸ hx)
    · exact h.hold_inj j k y hj hk
  case complete =>
    intro y hy
    rcases List.mem_append.mp hy with hy | hy
    · rcases h.complete y hy with hused | ⟨j, hj⟩
      · exact .inl hused
      · have hne : j ≠ i := fun heq => absurd (heq ▸ hj) (by rw [hi]; simp)
        exact .inr ⟨j, by rw [Function.update_of_ne hne]; exact hj⟩
    · rw [List.mem_singleton.mp hy]
      exact .inr ⟨i, Function.update_self _ _ _⟩

/-- A party uses the ticket it holds. -/
theorem Account.use (h : Account given hold used) (hi : hold i = some x) :
    Account given (Function.update hold i none) (used ++ [x]) := by
  have hold_of : ∀ j y, Function.update hold i none j = some y → j ≠ i ∧ hold j = some y := by
    intro j y hj
    rcases update_eq_some hj with ⟨-, heq⟩ | hother
    · exact absurd heq (by simp)
    · exact hother
  constructor
  case nodup =>
    rw [← List.concat_eq_append, List.nodup_concat]
    exact ⟨h.hold_unused i x hi, h.nodup⟩
  case used_given =>
    intro y hy
    rcases List.mem_append.mp hy with hy | hy
    · exact h.used_given y hy
    · rw [List.mem_singleton.mp hy]
      exact h.hold_given i x hi
  case hold_given => exact fun j y hj => h.hold_given j y (hold_of j y hj).2
  case hold_unused =>
    intro j y hj hused
    obtain ⟨hne, hj⟩ := hold_of j y hj
    rcases List.mem_append.mp hused with hused | hused
    · exact h.hold_unused j y hj hused
    · rw [List.mem_singleton] at hused
      exact hne (h.hold_inj j i x (hused ▸ hj) hi)
  case hold_inj => exact fun j k y hj hk => h.hold_inj j k y (hold_of j y hj).2 (hold_of k y hk).2
  case complete =>
    intro y hy
    rcases h.complete y hy with hused | ⟨j, hj⟩
    · exact .inl (List.mem_append_left _ hused)
    · by_cases hji : j = i
      · rw [hji, hi, Option.some.injEq] at hj
        exact .inl (List.mem_append_right _ (List.mem_singleton.mpr hj.symm))
      · exact .inr ⟨j, by rw [Function.update_of_ne hji]; exact hj⟩

/-- A party keeps what it holds. -/
theorem Account.keep (h : Account given hold used) {v : Option α} (hv : hold i = v) :
    Account given (Function.update hold i v) used := by
  rw [Function.update_eq_self_iff.mpr hv.symm]
  exact h

end P4db.Tickets
