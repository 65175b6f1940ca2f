import Mathlib.Data.List.Basic
import Mathlib.Tactic.Common

/-!
# Pieces of equal length

`pieces k l n` are the first `n` pieces of length `k` of a list.

* `flatten_pieces`: the pieces joined together.
* `isPrefix_of_flatten`: lists of pieces of the same length, from the joined lists.
-/

namespace P4db.Pieces

variable {α : Type*}

/-- Piece number `i`. -/
def piece (k : ℕ) (l : List α) (i : ℕ) : List α := (l.drop (k * i)).take k

def pieces (k : ℕ) (l : List α) (n : ℕ) : List (List α) := (List.range n).map (piece k l)

theorem pieces_succ (k : ℕ) (l : List α) (n : ℕ) :
    pieces k l (n + 1) = pieces k l n ++ [piece k l n] := by
  unfold pieces
  rw [List.range_succ, List.map_append, List.map_singleton]

theorem flatten_pieces (k : ℕ) (l : List α) (n : ℕ) : (pieces k l n).flatten = l.take (k * n) := by
  induction n with
  | zero => simp [pieces]
  | succ n ih =>
    rw [pieces_succ, List.flatten_append, ih, List.flatten_singleton, Nat.mul_succ, List.take_add]
    rfl

theorem length_of_mem_pieces {k n : ℕ} {l m : List α} (hn : k * n ≤ l.length)
    (hm : m ∈ pieces k l n) : m.length = k := by
  obtain ⟨i, hi, rfl⟩ := List.mem_map.mp hm
  unfold piece
  rw [List.length_take, List.length_drop]
  have hi := List.mem_range.mp hi
  have hle : k * (i + 1) ≤ k * n := Nat.mul_le_mul_left k hi
  rw [Nat.mul_succ] at hle
  omega

/-- The number of elements in pieces of length `k`. -/
theorem length_flatten {k : ℕ} {ms : List (List α)} (h : ∀ m ∈ ms, m.length = k) :
    ms.flatten.length = k * ms.length := by
  induction ms with
  | nil => rfl
  | cons m ms ih =>
    rw [List.flatten_cons, List.length_append, h m List.mem_cons_self,
      ih fun x hx => h x (List.mem_cons_of_mem m hx), List.length_cons, Nat.mul_succ, Nat.add_comm]

/-- Pieces of one length are known from the joined list. -/
theorem isPrefix_of_flatten {k : ℕ} (hk : 0 < k) {ms ns : List (List α)}
    (hms : ∀ m ∈ ms, m.length = k) (hns : ∀ n ∈ ns, n.length = k) (h : ms.flatten <+: ns.flatten) :
    ms <+: ns := by
  induction ms generalizing ns with
  | nil => exact List.nil_prefix
  | cons m ms ih =>
    have hm := hms m List.mem_cons_self
    cases ns with
    | nil =>
      have hle := h.length_le
      rw [List.flatten_cons, List.length_append, hm] at hle
      simp only [List.flatten_nil, List.length_nil] at hle
      omega
    | cons n ns =>
      have hn := hns n List.mem_cons_self
      obtain ⟨t, ht⟩ := h
      rw [List.flatten_cons, List.flatten_cons, List.append_assoc] at ht
      obtain ⟨rfl, htail⟩ := List.append_inj ht (hm.trans hn.symm)
      refine List.cons_prefix_cons.mpr ⟨rfl, ih (fun x hx => hms x (List.mem_cons_of_mem m hx))
        (fun x hx => hns x (List.mem_cons_of_mem m hx)) ⟨t, htail⟩⟩

end P4db.Pieces
