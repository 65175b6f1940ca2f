import Mathlib.Order.Monotone.Basic
import Mathlib.Tactic.Common

/-!
# A running maximum and runner-up that does not move down

`topTwo f m` scans `f 0, …, f (m - 1)` for the greatest value and for a runner-up.  A value above
the maximum replaces it, and a value that is not above the maximum but above the runner-up replaces
the runner-up.  The maximum that is replaced is forgotten: it does not become the runner-up.

* `TopTwo.Spec`: the runner-up is the greatest among the values that were not a new maximum when
  they were seen.
* `Spec.isTop`: the maximum is right.
* `Spec.isSecond_iff`: the runner-up is the second greatest value exactly when every positive value
  before the first maximum is matched by another one.
* `matched_congr`: this does not depend on how the values are numbered, as long as their order is
  kept.
-/

namespace P4db

/-- The two indices with their values; a value of 0 stands for none. -/
structure TopTwo where
  i₁ : ℕ
  v₁ : ℕ
  i₂ : ℕ
  v₂ : ℕ
  deriving DecidableEq, Repr

namespace TopTwo

/-- The value `v` at index `i`. -/
def push (t : TopTwo) (i v : ℕ) : TopTwo :=
  if v > t.v₁ then { t with i₁ := i, v₁ := v }
  else if v > t.v₂ then { t with i₂ := i, v₂ := v }
  else t

/-- The index of the maximum. -/
def first (t : TopTwo) : Option ℕ := if 0 < t.v₁ then some t.i₁ else none

/-- The index of the runner-up. -/
def second (t : TopTwo) : Option ℕ := if 0 < t.v₂ then some t.i₂ else none

end TopTwo

/-- An index of a greatest value, if a value is positive. -/
def IsTop (f : ℕ → ℕ) (m : ℕ) (i₁ : Option ℕ) : Prop :=
  (i₁.isSome ↔ ∃ j < m, 0 < f j) ∧ ∀ i, i₁ = some i → i < m ∧ ∀ j < m, f j ≤ f i

/-- An index of a greatest value besides the one at `i₁`, if two values are positive. -/
def IsSecond (f : ℕ → ℕ) (m : ℕ) (i₁ i₂ : Option ℕ) : Prop :=
  (i₂.isSome ↔ ∃ j < m, ∃ k < m, j ≠ k ∧ 0 < f j ∧ 0 < f k) ∧
    ∀ i, i₂ = some i → i < m ∧ i₁ ≠ some i ∧ ∀ k < m, i₁ ≠ some k → f k ≤ f i

/-- Among the positions `C`, the first one with a greatest value. -/
structure IsFirstMax (C : ℕ → Prop) (f : ℕ → ℕ) (m : ℕ) : Prop where
  mem : C m
  le : ∀ k, C k → f k ≤ f m
  lt : ∀ k < m, C k → f k < f m

/-- Every positive value before the first maximum is matched by another one, besides the maximum. -/
def Matched (C : ℕ → Prop) (f : ℕ → ℕ) : Prop :=
  ∀ m, IsFirstMax C f m → ∀ j < m, C j → 0 < f j → ∃ k, C k ∧ k ≠ j ∧ k ≠ m ∧ f j ≤ f k

section Renumber

variable {C C' : ℕ → Prop} {f f' e : ℕ → ℕ} (hmono : StrictMonoOn e {p | C p})
  (hmem : ∀ p, C p → C' (e p)) (hsurj : ∀ j, C' j → ∃ p, C p ∧ e p = j)
  (hval : ∀ p, C p → f p = f' (e p))
include hmono hmem hsurj hval

theorem isFirstMax_congr {p : ℕ} (hp : C p) : IsFirstMax C f p ↔ IsFirstMax C' f' (e p) := by
  constructor
  · rintro ⟨-, hle, hbefore⟩
    refine ⟨hmem p hp, fun k hk => ?_, fun k hkp hk => ?_⟩
    · obtain ⟨q, hq, rfl⟩ := hsurj k hk
      rw [← hval q hq, ← hval p hp]
      exact hle q hq
    · obtain ⟨q, hq, rfl⟩ := hsurj k hk
      rw [← hval q hq, ← hval p hp]
      exact hbefore q ((hmono.lt_iff_lt hq hp).mp hkp) hq
  · rintro ⟨-, hle, hbefore⟩
    refine ⟨hp, fun q hq => ?_, fun q hqp hq => ?_⟩
    · rw [hval q hq, hval p hp]
      exact hle _ (hmem q hq)
    · rw [hval q hq, hval p hp]
      exact hbefore _ (hmono hq hp hqp) (hmem q hq)

/-- The same values under other numbers in the same order. -/
theorem matched_congr : Matched C f ↔ Matched C' f' := by
  have hmax : ∀ {p}, C p → (IsFirstMax C f p ↔ IsFirstMax C' f' (e p)) :=
    isFirstMax_congr hmono hmem hsurj hval
  constructor
  · intro h m hm j hj hCj hpos
    -- go back to the old numbers, where the value is matched
    obtain ⟨p, hp, rfl⟩ := hsurj m hm.mem
    obtain ⟨q, hq, rfl⟩ := hsurj j hCj
    obtain ⟨k, hk, hkq, hkp, hle⟩ :=
      h p ((hmax hp).mpr hm) q ((hmono.lt_iff_lt hq hp).mp hj) hq (hval q hq ▸ hpos)
    refine ⟨e k, hmem k hk, fun heq => hkq (hmono.injOn hk hq heq),
      fun heq => hkp (hmono.injOn hk hp heq), ?_⟩
    rwa [← hval q hq, ← hval k hk]
  · intro h p hp q hqp hq hpos
    obtain ⟨k, hk, hkq, hkp, hle⟩ := h (e p) ((hmax hp.mem).mp hp) (e q)
      (hmono hq hp.mem hqp) (hmem q hq) (hval q hq ▸ hpos)
    obtain ⟨r, hr, rfl⟩ := hsurj k hk
    refine ⟨r, hr, fun heq => hkq (heq ▸ rfl), fun heq => hkp (heq ▸ rfl), ?_⟩
    rwa [hval q hq, hval r hr]

end Renumber

theorem not_isSecond_none {f : ℕ → ℕ} {m j k : ℕ} (i₁ : Option ℕ) (hj : j < m) (hk : k < m)
    (hjk : j ≠ k) (hfj : 0 < f j) (hfk : 0 < f k) : ¬IsSecond f m i₁ none := by
  intro h
  have hset := h.1.mpr ⟨j, hj, k, hk, hjk, hfj, hfk⟩
  cases hset

/-- The scan of the first `m` values. -/
def topTwo (f : ℕ → ℕ) : ℕ → TopTwo
  | 0 => ⟨0, 0, 0, 0⟩
  | m + 1 => (topTwo f m).push m (f m)

theorem topTwo_congr {f g : ℕ → ℕ} {m : ℕ} (h : ∀ j < m, f j = g j) : topTwo f m = topTwo g m := by
  induction m with
  | zero => rfl
  | succ m ih =>
    unfold topTwo
    rw [ih fun j hj => h j (Nat.lt_succ_of_lt hj), h m (Nat.lt_succ_self m)]

namespace TopTwo

/-- What the scan has found among the first `m` values. -/
structure Spec (f : ℕ → ℕ) (m : ℕ) (t : TopTwo) : Prop where
  le₁ : ∀ j < m, f j ≤ t.v₁
  at₁ : 0 < t.v₁ → t.i₁ < m ∧ f t.i₁ = t.v₁ ∧ ∀ j < t.i₁, f j < t.v₁
  le₂ : ∀ j < m, t.v₂ < f j → ∀ k < j, f k < f j
  at₂ : 0 < t.v₂ → t.i₂ < m ∧ f t.i₂ = t.v₂ ∧ ∃ k < t.i₂, f t.i₂ ≤ f k

theorem Spec.push {f : ℕ → ℕ} {m : ℕ} {t : TopTwo} (h : t.Spec f m) :
    (t.push m (f m)).Spec f (m + 1) := by
  have hlt : ∀ {P : ℕ → Prop}, (∀ j < m, P j) → P m → ∀ j < m + 1, P j := by
    intro P hP hm j hj
    rcases Nat.lt_succ_iff_lt_or_eq.mp hj with hj | rfl
    · exact hP j hj
    · exact hm
  unfold TopTwo.push
  split_ifs with h₁ h₂
  · -- a new maximum
    refine ⟨hlt (fun j hj => Nat.le_of_lt (Nat.lt_of_le_of_lt (h.le₁ j hj) h₁)) (Nat.le_refl _),
      fun _ => ?_, hlt h.le₂ fun _ k hk => Nat.lt_of_le_of_lt (h.le₁ k hk) h₁, fun hpos => ?_⟩
    · exact ⟨Nat.lt_succ_self m, rfl, fun j hj => Nat.lt_of_le_of_lt (h.le₁ j hj) h₁⟩
    · obtain ⟨hi, hrest⟩ := h.at₂ hpos
      exact ⟨Nat.lt_succ_of_lt hi, hrest⟩
  · -- a new runner-up, below the maximum
    have hle : f m ≤ t.v₁ := Nat.not_lt.mp h₁
    obtain ⟨hi, hv, hbefore⟩ := h.at₁ (by omega)
    refine ⟨hlt h.le₁ hle, fun _ => ⟨Nat.lt_succ_of_lt hi, hv, hbefore⟩,
      hlt (fun j hj hlow => h.le₂ j hj (Nat.lt_trans h₂ hlow)) fun hlow =>
        absurd hlow (Nat.lt_irrefl _),
      fun _ => ⟨Nat.lt_succ_self m, rfl, t.i₁, hi, hv ▸ hle⟩⟩
  · refine ⟨hlt h.le₁ (Nat.not_lt.mp h₁), fun hpos => ?_, hlt h.le₂ fun hlow => absurd hlow h₂,
      fun hpos => ?_⟩
    · obtain ⟨hi, hrest⟩ := h.at₁ hpos
      exact ⟨Nat.lt_succ_of_lt hi, hrest⟩
    · obtain ⟨hi, hrest⟩ := h.at₂ hpos
      exact ⟨Nat.lt_succ_of_lt hi, hrest⟩

theorem spec_topTwo (f : ℕ → ℕ) (m : ℕ) : (topTwo f m).Spec f m := by
  induction m with
  | zero =>
    exact ⟨nofun, fun hpos => absurd hpos (Nat.lt_irrefl 0), nofun,
      fun hpos => absurd hpos (Nat.lt_irrefl 0)⟩
  | succ m ih => exact ih.push

variable {f : ℕ → ℕ} {m : ℕ} {t : TopTwo}

/-- There is a maximum if a value is positive. -/
theorem Spec.pos_first_iff (h : t.Spec f m) : 0 < t.v₁ ↔ ∃ j < m, 0 < f j := by
  constructor
  · intro hpos
    obtain ⟨hi, hv, -⟩ := h.at₁ hpos
    exact ⟨t.i₁, hi, hv ▸ hpos⟩
  · rintro ⟨j, hj, hpos⟩
    exact Nat.lt_of_lt_of_le hpos (h.le₁ j hj)

theorem first_eq_some_iff {i : ℕ} : t.first = some i ↔ 0 < t.v₁ ∧ t.i₁ = i := by
  simp [first]

theorem second_eq_some_iff {i : ℕ} : t.second = some i ↔ 0 < t.v₂ ∧ t.i₂ = i := by
  simp [second]

theorem Spec.isTop (h : t.Spec f m) : IsTop f m t.first := by
  refine ⟨?_, fun i hi => ?_⟩
  · rw [← h.pos_first_iff]
    simp [first]
  · obtain ⟨hpos, rfl⟩ := first_eq_some_iff.mp hi
    obtain ⟨hi, hv, -⟩ := h.at₁ hpos
    exact ⟨hi, hv.symm ▸ h.le₁⟩

/-- The runner-up is not the maximum. -/
theorem Spec.ne (h : t.Spec f m) (hpos : 0 < t.v₂) : 0 < t.v₁ ∧ t.i₂ ≠ t.i₁ := by
  obtain ⟨hi, hv, k, hk, hle⟩ := h.at₂ hpos
  have hpos₁ : 0 < t.v₁ := h.pos_first_iff.mpr ⟨t.i₂, hi, hv ▸ hpos⟩
  refine ⟨hpos₁, fun heq => ?_⟩
  obtain ⟨-, hv₁, hbefore⟩ := h.at₁ hpos₁
  have hlt := hbefore k (heq ▸ hk)
  rw [← hv₁, ← heq] at hlt
  omega

/-- A value besides the maximum that is above the runner-up was a maximum itself, so it comes
before. -/
theorem Spec.lt_of_above (h : t.Spec f m) {j : ℕ} (hj : j < m) (hne : j ≠ t.i₁)
    (habove : t.v₂ < f j) : j < t.i₁ := by
  have hpos : 0 < t.v₁ := h.pos_first_iff.mpr ⟨j, hj, by omega⟩
  obtain ⟨hi, hv, -⟩ := h.at₁ hpos
  by_contra hge
  have hlt := h.le₂ j hj habove t.i₁ (by omega)
  have hle := h.le₁ j hj
  omega

/-- If every positive value before the maximum is matched, none besides the maximum is above the
runner-up. -/
theorem Spec.le_second (h : t.Spec f m)
    (hmatch : 0 < t.v₁ → ∀ j < t.i₁, 0 < f j → ∃ k < m, k ≠ j ∧ k ≠ t.i₁ ∧ f j ≤ f k) {j : ℕ}
    (hj : j < m) (hne : j ≠ t.i₁) : f j ≤ t.v₂ := by
  -- a value above the runner-up would be matched by a later one that is above it as well
  induction hd : m - j using Nat.strongRecOn generalizing j with
  | _ d ih =>
    by_contra habove
    have habove : t.v₂ < f j := Nat.not_le.mp habove
    have hpos : 0 < t.v₁ := h.pos_first_iff.mpr ⟨j, hj, by omega⟩
    obtain ⟨k, hk, hkj, hki, hfk⟩ := hmatch hpos j (h.lt_of_above hj hne habove) (by omega)
    have hlater : j < k := by
      by_contra hge
      have hlt := h.le₂ j hj habove k (by omega)
      omega
    have hfk' := ih (m - k) (by omega) hk hki rfl
    omega

/-- The index of the maximum is the first one. -/
theorem Spec.first_eq_some_iff_isFirstMax (h : t.Spec f m) {i : ℕ} :
    t.first = some i ↔ 0 < f i ∧ IsFirstMax (· < m) f i := by
  rw [first_eq_some_iff]
  constructor
  · rintro ⟨hpos, rfl⟩
    obtain ⟨hi, hv, hbefore⟩ := h.at₁ hpos
    exact ⟨hv ▸ hpos, hi, fun j hj => hv ▸ h.le₁ j hj, fun j hj _ => hv ▸ hbefore j hj⟩
  · rintro ⟨hpos, hi, hle, hbefore⟩
    have hpos₁ : 0 < t.v₁ := h.pos_first_iff.mpr ⟨i, hi, hpos⟩
    obtain ⟨hi₁, hv, hbefore₁⟩ := h.at₁ hpos₁
    refine ⟨hpos₁, ?_⟩
    have hle' := hle t.i₁ hi₁
    rcases Nat.lt_trichotomy t.i₁ i with hlt | heq | hlt
    · have := hbefore t.i₁ hlt hi₁
      have := h.le₁ i hi
      omega
    · exact heq
    · have := hbefore₁ i hlt
      omega

/-- **The runner-up.** -/
theorem Spec.isSecond_iff (h : t.Spec f m) :
    IsSecond f m t.first t.second ↔ Matched (· < m) f := by
  have hsome : t.second.isSome ↔ 0 < t.v₂ := by simp [second]
  constructor
  · rintro ⟨hset, hmax⟩ i hfirst j hj - hfj
    have hpos_i : 0 < f i := Nat.lt_of_lt_of_le hfj (hfirst.le j (Nat.lt_trans hj hfirst.mem))
    obtain ⟨hpos, rfl⟩ :=
      first_eq_some_iff.mp (h.first_eq_some_iff_isFirstMax.mpr ⟨hpos_i, hfirst⟩)
    obtain ⟨hi, hv, -⟩ := h.at₁ hpos
    have hpos₂ : 0 < t.v₂ :=
      hsome.mp (hset.mpr ⟨j, Nat.lt_trans hj hi, t.i₁, hi, Nat.ne_of_lt hj, hfj, hv ▸ hpos⟩)
    obtain ⟨hi₂, -, hle⟩ := hmax t.i₂ (second_eq_some_iff.mpr ⟨hpos₂, rfl⟩)
    by_cases heq : t.i₂ = j
    · -- the runner-up itself was not a maximum when it was seen
      obtain ⟨-, -, k, hk, hfk⟩ := h.at₂ hpos₂
      rw [heq] at hk hfk
      exact ⟨k, by omega, by omega, by omega, hfk⟩
    · refine ⟨t.i₂, hi₂, heq, (h.ne hpos₂).2, hle j (Nat.lt_trans hj hi) fun hj' => ?_⟩
      exact absurd (first_eq_some_iff.mp hj').2 (by omega)
  · intro hmatch
    have hle : ∀ j < m, j ≠ t.i₁ → f j ≤ t.v₂ := by
      intro j hj hne
      refine h.le_second (fun hpos j hj hfj => ?_) hj hne
      have hmax := h.first_eq_some_iff_isFirstMax.mp (first_eq_some_iff.mpr ⟨hpos, rfl⟩)
      exact hmatch t.i₁ hmax.2 j hj (Nat.lt_trans hj hmax.2.mem) hfj
    refine ⟨hsome.trans ⟨fun hpos₂ => ?_, ?_⟩, fun i hi => ?_⟩
    · obtain ⟨hpos, hne⟩ := h.ne hpos₂
      obtain ⟨hi, hv, -⟩ := h.at₁ hpos
      obtain ⟨hi₂, hv₂, -⟩ := h.at₂ hpos₂
      exact ⟨t.i₂, hi₂, t.i₁, hi, hne, hv₂ ▸ hpos₂, hv ▸ hpos⟩
    · rintro ⟨j, hj, k, hk, hjk, hfj, hfk⟩
      by_cases heq : j = t.i₁
      · exact Nat.lt_of_lt_of_le hfk (hle k hk (heq ▸ Ne.symm hjk))
      · exact Nat.lt_of_lt_of_le hfj (hle j hj heq)
    · obtain ⟨hpos₂, rfl⟩ := second_eq_some_iff.mp hi
      obtain ⟨hpos, hne⟩ := h.ne hpos₂
      obtain ⟨hi₂, hv₂, -⟩ := h.at₂ hpos₂
      refine ⟨hi₂, fun hfirst => hne (first_eq_some_iff.mp hfirst).2.symm, fun k hk hfirst => ?_⟩
      rw [hv₂]
      exact hle k hk fun heq => hfirst (first_eq_some_iff.mpr ⟨hpos, heq.symm⟩)

end TopTwo

end P4db
