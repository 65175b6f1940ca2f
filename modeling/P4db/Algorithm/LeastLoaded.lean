import Mathlib.Algebra.BigOperators.Group.Finset.Basic
import Mathlib.Algebra.Group.Action.Defs
import Mathlib.Algebra.Order.BigOperators.Group.Finset
import Mathlib.Data.List.Count
import Mathlib.Logic.Function.Basic
import Mathlib.Tactic.Common

/-!
# Greedy assignment to the least loaded bin

`lowest n w` is the index of the least of `w 0, …, w (n - 1)`, the first one on a tie, and
`lowestWhere n ok w` is the same among the indices that meet `ok`.
`leastLoaded n add w fs` puts items of weights `fs` one after the other into the bin of least
accumulated weight and returns the chosen bins; `add` is the addition used for the weights, which
may be modular.  Items of equal weight are dealt in turn (`lowest_turns`).  `slots c bs` numbers the
items of every bin in the order of arrival, starting from `c b` in bin `b`: the pairs are distinct
(`slots_nodup`), bin `b` uses exactly the numbers from `c b` to `c b + bs.count b`
(`mem_slots_iff`), and an item that arrives earlier has the smaller number (`slots_pairwise`).
-/

namespace P4db

/-! ### The scan for the least weight -/

/-- The scan for the entry of least weight; the first one wins a tie. -/
def lowest (n : ℕ) (weight : ℕ → ℕ) : ℕ :=
  (List.range n).foldl (fun low r => if weight low > weight r then r else low) 0

theorem lowest_succ (n : ℕ) (w : ℕ → ℕ) :
    lowest (n + 1) w = if w (lowest n w) > w n then n else lowest n w := by
  simp [lowest, List.range_succ]

theorem lowest_lt {n : ℕ} (hn : 0 < n) (w : ℕ → ℕ) : lowest n w < n := by
  induction n with
  | zero => exact absurd hn (lt_irrefl 0)
  | succ n ih =>
    rw [lowest_succ]
    split_ifs with h
    · exact Nat.lt_succ_self n
    · rcases Nat.eq_zero_or_pos n with rfl | hpos
      · simp [lowest]
      · exact (ih hpos).trans (Nat.lt_succ_self n)

theorem lowest_eq {n m : ℕ} {w : ℕ → ℕ} (hm : m < n) (hlt : ∀ r < m, w m < w r)
    (hle : ∀ r < n, w m ≤ w r) : lowest n w = m := by
  induction n with
  | zero => omega
  | succ n ih =>
    rw [lowest_succ]
    rcases Nat.lt_succ_iff_lt_or_eq.mp hm with hm | rfl
    · rw [ih hm fun r hr => hle r (Nat.lt_succ_of_lt hr)]
      exact if_neg (Nat.not_lt.mpr (hle n (Nat.lt_succ_self n)))
    · rcases Nat.eq_zero_or_pos m with rfl | hpos
      · simp [lowest]
      · exact if_pos (hlt _ (lowest_lt hpos w))

/-- What the scan finds is a least one. -/
theorem lowest_le {n : ℕ} (w : ℕ → ℕ) {r : ℕ} (hr : r < n) : w (lowest n w) ≤ w r := by
  induction n with
  | zero => exact absurd hr (Nat.not_lt_zero r)
  | succ n ih =>
    rw [lowest_succ]
    split_ifs with h
    · rcases Nat.lt_succ_iff_lt_or_eq.mp hr with hr | rfl
      · exact Nat.le_trans (Nat.le_of_lt h) (ih hr)
      · exact Nat.le_refl _
    · rcases Nat.lt_succ_iff_lt_or_eq.mp hr with hr | rfl
      · exact ih hr
      · exact Nat.le_of_not_lt h

/-- The same scan among the entries that meet a condition. -/
def lowestWhere (n : ℕ) (ok : ℕ → Bool) (weight : ℕ → ℕ) : Option ℕ :=
  (List.range n).foldl
    (fun low r => if ok r && low.all fun l => weight l > weight r then some r else low) none

theorem lowestWhere_succ (n : ℕ) (ok : ℕ → Bool) (w : ℕ → ℕ) :
    lowestWhere (n + 1) ok w =
      if ok n && (lowestWhere n ok w).all fun l => w l > w n then some n
      else lowestWhere n ok w := by
  simp [lowestWhere, List.range_succ]

/-- What is found meets the condition. -/
theorem lowestWhere_eq_some {n : ℕ} {ok : ℕ → Bool} {w : ℕ → ℕ} {r : ℕ}
    (h : lowestWhere n ok w = some r) : r < n ∧ ok r = true := by
  induction n with
  | zero => simp [lowestWhere] at h
  | succ n ih =>
    rw [lowestWhere_succ] at h
    split_ifs at h with hn
    · obtain rfl := Option.some.inj h
      exact ⟨Nat.lt_succ_self n, (Bool.and_eq_true_iff.mp hn).1⟩
    · exact ⟨Nat.lt_succ_of_lt (ih h).1, (ih h).2⟩

/-- Something is found if an entry meets the condition. -/
theorem lowestWhere_ne_none {n : ℕ} {ok : ℕ → Bool} (w : ℕ → ℕ) {r : ℕ} (hr : r < n)
    (hok : ok r = true) : lowestWhere n ok w ≠ none := by
  induction n with
  | zero => omega
  | succ n ih =>
    rw [lowestWhere_succ]
    split_ifs with hn
    · simp
    · intro hnone
      rcases Nat.lt_succ_iff_lt_or_eq.mp hr with hr | rfl
      · exact ih hr hnone
      · simp [hnone, hok] at hn

/-! ### The assignment -/

/-- The bins chosen for items of weights `fs`, starting from the loads `w`. -/
def leastLoaded (n : ℕ) (add : ℕ → ℕ → ℕ) : (ℕ → ℕ) → List ℕ → List ℕ
  | _, [] => []
  | w, f :: fs =>
    lowest n w :: leastLoaded n add (Function.update w (lowest n w) (add (w (lowest n w)) f)) fs

variable {n : ℕ} {add : ℕ → ℕ → ℕ}

@[simp] theorem length_leastLoaded (w : ℕ → ℕ) (fs : List ℕ) :
    (leastLoaded n add w fs).length = fs.length := by
  induction fs generalizing w with
  | nil => rfl
  | cons f fs ih => simp [leastLoaded, ih]

theorem lt_of_mem_leastLoaded (hn : 0 < n) {w : ℕ → ℕ} {fs : List ℕ} {r : ℕ}
    (h : r ∈ leastLoaded n add w fs) : r < n := by
  induction fs generalizing w with
  | nil => simp [leastLoaded] at h
  | cons f fs ih =>
    rcases List.mem_cons.mp h with rfl | h
    · exact lowest_lt hn w
    · exact ih h

/-- Pigeonhole: more than `n * m` items put more than `m` of them into one bin. -/
theorem exists_lt_count_leastLoaded (hn : 0 < n) (w : ℕ → ℕ) (fs : List ℕ) {m : ℕ}
    (h : n * m < fs.length) : ∃ r < n, m < (leastLoaded n add w fs).count r := by
  by_contra hcon
  push Not at hcon
  have hsum := Multiset.sum_count_eq_card (s := Finset.range n)
    (m := (leastLoaded n add w fs : Multiset ℕ))
    (fun r hr => Finset.mem_range.mpr (lt_of_mem_leastLoaded hn hr))
  have hle : ∑ r ∈ Finset.range n, Multiset.count r (leastLoaded n add w fs : Multiset ℕ)
      ≤ ∑ _r ∈ Finset.range n, m :=
    Finset.sum_le_sum fun r hr => by
      rw [Multiset.coe_count]; exact hcon r (Finset.mem_range.mp hr)
  rw [hsum, Multiset.coe_card, length_leastLoaded, Finset.sum_const, Finset.card_range,
    smul_eq_mul] at hle
  omega

/-! ### Items of equal weight -/

/-- How many of `j` items bin `r` gets when they are dealt to `n` bins in turn. -/
def turns (n j r : ℕ) : ℕ := j / n + if r < j % n then 1 else 0

theorem turns_succ {n r : ℕ} (hr : r < n) (j : ℕ) :
    turns n (j + 1) r = turns n j r + if r = j % n then 1 else 0 := by
  have hmod := Nat.mod_lt j (Nat.zero_lt_of_lt hr)
  have hj := Nat.div_add_mod j n
  unfold turns
  by_cases hlast : j % n + 1 = n
  · -- the last bin of a round
    have hnext : j + 1 = n * (j / n + 1) := by
      rw [Nat.mul_add, Nat.mul_one]
      omega
    rw [hnext, Nat.mul_div_cancel_left _ (Nat.zero_lt_of_lt hr), Nat.mul_mod_right]
    split_ifs <;> omega
  · have hlt : j % n + 1 < n := by omega
    have hnext : j + 1 = n * (j / n) + (j % n + 1) := by omega
    rw [hnext, Nat.mul_add_div (Nat.zero_lt_of_lt hr), Nat.div_eq_of_lt hlt, Nat.mul_add_mod,
      Nat.mod_eq_of_lt hlt]
    split_ifs <;> omega

theorem turns_mod (n j : ℕ) : turns n j (j % n) = j / n := by
  simp [turns]

/-- The next bin in turn is the least loaded one. -/
theorem lowest_turns {n j c : ℕ} {w : ℕ → ℕ} (hn : 0 < n) (hc : 0 < c)
    (hw : ∀ r < n, w r = c * turns n j r) : lowest n w = j % n := by
  have hm := Nat.mod_lt j hn
  have hturn : w (j % n) = c * (j / n) := by rw [hw _ hm, turns_mod]
  apply lowest_eq hm
  · intro r hr
    rw [hturn, hw r (hr.trans hm)]
    unfold turns
    rw [if_pos hr]
    exact Nat.mul_lt_mul_of_pos_left (Nat.lt_succ_self _) hc
  · intro r hr
    rw [hturn, hw r hr]
    exact Nat.mul_le_mul_left c (Nat.le_add_right _ _)

/-! ### Numbering the items of every bin -/

/-- Every item with its number in its bin, where bin `b` starts counting at `c b`. -/
def slots (c : ℕ → ℕ) : List ℕ → List (ℕ × ℕ)
  | [] => []
  | b :: bs => (b, c b) :: slots (Function.update c b (c b + 1)) bs

theorem mem_slots_iff {c : ℕ → ℕ} {bs : List ℕ} {b i : ℕ} :
    (b, i) ∈ slots c bs ↔ c b ≤ i ∧ i < c b + bs.count b := by
  induction bs generalizing c with
  | nil => simp [slots]
  | cons a bs ih =>
    rw [slots, List.mem_cons, ih, List.count_cons, Prod.mk.injEq]
    by_cases hb : b = a
    · subst hb
      simp only [Function.update_self, true_and, beq_self_eq_true, ↓reduceIte]
      omega
    · rw [Function.update_of_ne hb]
      have hab : (a == b) = false := beq_eq_false_iff_ne.mpr (Ne.symm hb)
      simp [hb, hab]

theorem slots_nodup (c : ℕ → ℕ) (bs : List ℕ) : (slots c bs).Nodup := by
  induction bs generalizing c with
  | nil => exact List.nodup_nil
  | cons a bs ih =>
    rw [slots, List.nodup_cons]
    refine ⟨?_, ih _⟩
    rw [mem_slots_iff, Function.update_self]
    omega

theorem map_fst_slots (c : ℕ → ℕ) (bs : List ℕ) : (slots c bs).map Prod.fst = bs := by
  induction bs generalizing c with
  | nil => rfl
  | cons a bs ih => rw [slots, List.map_cons, ih]

theorem slots_pairwise (c : ℕ → ℕ) (bs : List ℕ) :
    (slots c bs).Pairwise fun s t => s.1 = t.1 → s.2 < t.2 := by
  induction bs generalizing c with
  | nil => exact List.Pairwise.nil
  | cons a bs ih =>
    rw [slots, List.pairwise_cons]
    refine ⟨?_, ih _⟩
    rintro ⟨b, i⟩ hmem hab
    have hab : a = b := hab
    subst hab
    -- the counter of the bin has moved on
    rw [mem_slots_iff, Function.update_self] at hmem
    exact hmem.1

end P4db
