import Mathlib.Data.List.Perm.Basic
import Mathlib.Tactic.Common

/-!
# A word of lock bits

Several parties share one word of lock bits.  `Exact word us` says that `us` are the bits that each
of them holds: they are disjoint, and the word is their union.  Setting bits with an or gives a
party the bits that were free (`Exact.acquire`), whether or not it wanted more, and bits are given
back by a subtraction, which does not borrow (`Exact.release`, `sub_eq_and_not`).
-/

namespace P4db.LockWord

variable {w : ℕ} {word u v : BitVec w} {us vs : List (BitVec w)}

/-- The bits that someone holds. -/
def union (us : List (BitVec w)) : BitVec w := us.foldr (· ||| ·) 0

theorem union_cons (u : BitVec w) (us : List (BitVec w)) : union (u :: us) = u ||| union us := rfl

theorem union_zero_cons (us : List (BitVec w)) : union (0 :: us) = union us := BitVec.zero_or

theorem getLsbD_union (i : ℕ) : (union us).getLsbD i = true ↔ ∃ u ∈ us, u.getLsbD i = true := by
  induction us with
  | nil => simp [union]
  | cons u us ih => simp [union_cons, ih]

theorem union_perm (h : us.Perm vs) : union us = union vs := by
  apply BitVec.eq_of_getLsbD_eq
  intro i _
  rw [Bool.eq_iff_iff, getLsbD_union, getLsbD_union]
  simp only [h.mem_iff]

/-- Bits that are disjoint, where nobody sees a bit of someone else. -/
theorem and_eq_zero_iff : u &&& v = 0 ↔ ∀ i, u.getLsbD i = true → v.getLsbD i = false := by
  constructor
  · intro h i hu
    have hi := congrArg (BitVec.getLsbD · i) h
    simpa [hu] using hi
  · intro h
    apply BitVec.eq_of_getLsbD_eq
    intro i _
    have hi := h i
    cases hu : u.getLsbD i <;> simp_all

/-- The bits of `u` are among those of `v`. -/
theorem and_eq_left_iff : u &&& v = u ↔ ∀ i, u.getLsbD i = true → v.getLsbD i = true := by
  constructor
  · intro h i hu
    have hi := congrArg (BitVec.getLsbD · i) h
    simpa [hu] using hi
  · intro h
    apply BitVec.eq_of_getLsbD_eq
    intro i _
    have hi := h i
    cases hu : u.getLsbD i <;> simp_all

/-- Taking away bits that are set does not borrow. -/
theorem sub_eq_and_not (h : u &&& v = u) : v - u = v &&& ~~~u := by
  have hdisj : v &&& ~~~u &&& u = 0 := by
    rw [and_eq_zero_iff]
    intro i hi
    simp only [BitVec.getLsbD_and, BitVec.getLsbD_not, Bool.and_eq_true, Bool.not_eq_true'] at hi
    exact hi.2.2
  have hsplit : v &&& ~~~u ||| u = v := by
    rw [and_eq_left_iff] at h
    apply BitVec.eq_of_getLsbD_eq
    intro i hlt
    have hi := h i
    cases hu : u.getLsbD i <;> simp_all
  have hadd : (v &&& ~~~u) + u = v := (BitVec.add_eq_or_of_and_eq_zero _ _ hdisj).trans hsplit
  exact BitVec.sub_eq_iff_eq_add.mpr hadd.symm

theorem toNat_le_of_and (h : u &&& v = u) : u.toNat ≤ v.toNat := by
  rw [← h, BitVec.toNat_and]
  exact Nat.and_le_right

/-- The parties hold the bits `us` of the word. -/
structure Exact (word : BitVec w) (us : List (BitVec w)) : Prop where
  eq_union : word = union us
  disjoint : us.Pairwise fun u v => u &&& v = 0

namespace Exact

theorem nil : Exact (0 : BitVec w) [] := ⟨rfl, .nil⟩

theorem perm (h : Exact word us) (hp : us.Perm vs) : Exact word vs := by
  refine ⟨h.eq_union.trans (union_perm hp), h.disjoint.perm hp fun huv => ?_⟩
  rw [BitVec.and_comm]
  exact huv

/-- A party that holds nothing does not count. -/
theorem cons_zero : Exact word (0 :: us) ↔ Exact word us := by
  constructor
  · rintro ⟨hword, hdisj⟩
    refine ⟨?_, hdisj.of_cons⟩
    rw [hword, union_zero_cons]
  · rintro ⟨hword, hdisj⟩
    refine ⟨?_, hdisj.cons fun v _ => BitVec.zero_and⟩
    rw [hword, union_zero_cons]

/-- The bits of a party are set. -/
theorem and_word (h : Exact word us) (hu : u ∈ us) : u &&& word = u := by
  rw [and_eq_left_iff, h.eq_union]
  intro i hi
  exact (getLsbD_union i).mpr ⟨u, hu, hi⟩

/-- A party that held nothing gets the bits that were free. -/
theorem acquire (h : Exact word us) (a : BitVec w) :
    Exact (word ||| a) ((~~~word &&& a) :: us) := by
  constructor
  · rw [union_cons, ← h.eq_union]
    apply BitVec.eq_of_getLsbD_eq
    intro i hi
    cases hw : word.getLsbD i <;> cases ha : a.getLsbD i <;> simp_all
  · refine h.disjoint.cons fun v hv => ?_
    rw [and_eq_zero_iff]
    intro i hi
    have hfree : word.getLsbD i = false := by
      simp only [BitVec.getLsbD_and, BitVec.getLsbD_not, Bool.and_eq_true, Bool.not_eq_true'] at hi
      exact hi.1.2
    by_contra hvi
    rw [Bool.not_eq_false] at hvi
    have hset := (and_eq_left_iff.mp (h.and_word hv)) i hvi
    rw [hfree] at hset
    exact absurd hset nofun

/-- A party gives back its bits. -/
theorem release (h : Exact word (u :: us)) : Exact (word - u) us := by
  obtain ⟨hdisj, hrest⟩ := List.pairwise_cons.mp h.disjoint
  refine ⟨?_, hrest⟩
  rw [sub_eq_and_not (h.and_word List.mem_cons_self), h.eq_union, union_cons]
  have hu : u &&& union us = 0 := by
    rw [and_eq_zero_iff]
    intro i hi
    by_contra hset
    rw [Bool.not_eq_false, getLsbD_union] at hset
    obtain ⟨v, hv, hvi⟩ := hset
    have hclear := (and_eq_zero_iff.mp (hdisj v hv)) i hi
    rw [hvi] at hclear
    exact absurd hclear nofun
  rw [and_eq_zero_iff] at hu
  apply BitVec.eq_of_getLsbD_eq
  intro i hi
  have hui := hu i
  cases hb : u.getLsbD i <;> simp_all

end Exact

end P4db.LockWord
