import Mathlib.Data.Nat.Notation
import Mathlib.Tactic.Common

/-!
# Byte buffers read as bit streams

A buffer is a sequence of bytes.  `storeBE` writes a multi-byte number in network byte order, as the
assignments of a packed C structure do after `htons` and `htonl`; `extract` reads a field of any
width at any bit position, most significant bit first, as a packet parser does.  Both are determined
by the bits of the buffer (`bit_storeBE`, `getLsbD_extract`), and a stored number is read back by a
field of the same place and width (`extract_storeBE`), while fields elsewhere do not see it
(`extract_storeBE_of_disjoint`).
-/

namespace P4db

/-- A byte buffer. -/
abbrev Buf := ℕ → BitVec 8

namespace Buf

/-- Bit `n` of the stream, most significant bit of the first byte first. -/
def bit (b : Buf) (n : ℕ) : Bool := (b (n / 8)).getLsbD (7 - n % 8)

/-- The field of width `w` at bit position `off`. -/
def extract (b : Buf) (off : ℕ) : (w : ℕ) → BitVec w
  | 0 => 0#0
  | w + 1 => (extract b off w).concat (b.bit (off + w))

/-- Store an `n`-byte number at byte position `k`, most significant byte first. -/
def storeBE (b : Buf) (k n : ℕ) (v : BitVec (8 * n)) : Buf := fun j =>
  if k ≤ j ∧ j < k + n then v.extractLsb' (8 * (n - 1 - (j - k))) 8 else b j

variable {b b' : Buf}

theorem getLsbD_extract (off w i : ℕ) :
    (b.extract off w).getLsbD i = (decide (i < w) && b.bit (off + (w - 1 - i))) := by
  induction w generalizing i with
  | zero => simp
  | succ w ih =>
    rw [extract, BitVec.getLsbD_concat]
    cases i with
    | zero => simp
    | succ i =>
      have hpos : w - 1 - i = w + 1 - 1 - (i + 1) := by omega
      rw [if_neg (Nat.succ_ne_zero i), Nat.add_sub_cancel, ih, hpos]
      simp only [Nat.add_lt_add_iff_right]

/-- Fields are equal when the bits they cover are. -/
theorem extract_congr {off off' w : ℕ} (h : ∀ i < w, b.bit (off + i) = b'.bit (off' + i)) :
    b.extract off w = b'.extract off' w := by
  induction w with
  | zero => rfl
  | succ w ih =>
    rw [extract, extract, ih fun i hi => h i (Nat.lt_succ_of_lt hi), h w (Nat.lt_succ_self w)]

theorem bit_storeBE (k n : ℕ) (v : BitVec (8 * n)) (m : ℕ) :
    (b.storeBE k n v).bit m =
      if 8 * k ≤ m ∧ m < 8 * k + 8 * n then v.getLsbD (8 * n - 1 - (m - 8 * k)) else b.bit m := by
  unfold bit storeBE
  by_cases hm : 8 * k ≤ m ∧ m < 8 * k + 8 * n
  · have hbyte : k ≤ m / 8 ∧ m / 8 < k + n := by omega
    have hlt : 7 - m % 8 < 8 := by omega
    have hpos : 8 * (n - 1 - (m / 8 - k)) + (7 - m % 8) = 8 * n - 1 - (m - 8 * k) := by omega
    simp only [hm, hbyte, and_self, ↓reduceIte, BitVec.getLsbD_extractLsb', hlt, decide_true,
      Bool.true_and, hpos]
  · have hbyte : ¬(k ≤ m / 8 ∧ m / 8 < k + n) := by omega
    simp only [hm, hbyte, ↓reduceIte]

/-- **A stored number is read back.** -/
theorem extract_storeBE (k n : ℕ) (v : BitVec (8 * n)) :
    (b.storeBE k n v).extract (8 * k) (8 * n) = v := by
  apply BitVec.eq_of_getLsbD_eq
  intro i hi
  rw [getLsbD_extract, bit_storeBE, if_pos (by omega)]
  have hpos : 8 * n - 1 - (8 * k + (8 * n - 1 - i) - 8 * k) = i := by omega
  simp only [hi, decide_true, Bool.true_and, hpos]

/-- A field that the store does not overlap keeps its value. -/
theorem extract_storeBE_of_disjoint {k n : ℕ} (v : BitVec (8 * n)) {off w : ℕ}
    (h : off + w ≤ 8 * k ∨ 8 * k + 8 * n ≤ off) :
    (b.storeBE k n v).extract off w = b.extract off w := by
  apply extract_congr
  intro i hi
  rw [bit_storeBE, if_neg (by omega)]

end Buf

end P4db
