import P4db.Ee.Database

/-!
# The hot send queue between two resets

From an empty queue, a sequence of claims that stays below the capacity fills the array from the
start, in order, and leaves the rest of it alone.  A claim gives its transaction one slot more and
no other transaction any (`slotsOf_allocSlot`).
-/

namespace P4db.HotSendQ

variable {τ : Type} {q q' : HotSendQ τ}

/-- The buffer pool is filled in step with the array. -/
def InStep (q : HotSendQ τ) : Prop := q.bufSize = q.sendQTail * hotTxnPktBytes

theorem inStep_doneSending (q : HotSendQ τ) : q.doneSending.InStep :=
  (Nat.zero_mul _).symm

theorem allocSlot_of_lt (h : q.InStep) (hlt : q.sendQTail + 1 < q.sendQCapacity) (mbNum : ℕ)
    (txn : τ) :
    q.allocSlot mbNum txn = some { q with
      sendQ := Function.update q.sendQ q.sendQTail ⟨txn, mbNum, q.bufSize, hotTxnPktBytes⟩
      sendQTail := q.sendQTail + 1
      bufSize := q.bufSize + hotTxnPktBytes } := by
  have hfit : q.bufSize + hotTxnPktBytes < q.sendQCapacity * hotTxnPktBytes := by
    rw [h, ← Nat.succ_mul]
    exact Nat.mul_lt_mul_of_pos_right hlt (by decide)
  rw [allocSlot, if_pos hfit]

/-- What a claim does if it does not fail. -/
theorem allocSlot_eq_some {mbNum : ℕ} {txn : τ} (h : q.allocSlot mbNum txn = some q') :
    q'.sendQTail = q.sendQTail + 1 ∧
      q'.sendQ = Function.update q.sendQ q.sendQTail ⟨txn, mbNum, q.bufSize, hotTxnPktBytes⟩ := by
  unfold allocSlot at h
  split_ifs at h
  obtain rfl := Option.some.inj h
  exact ⟨rfl, rfl⟩

/-- **A run of claims** from an arbitrary fill: none fails, the tail counts them, and the entries
carry the mini-batch numbers in order. -/
theorem allocSlots_spec (h : q.InStep) (es : List (ℕ × τ))
    (hlt : q.sendQTail + es.length < q.sendQCapacity) :
    ∃ q', q.allocSlots es = some q' ∧ q'.sendQTail = q.sendQTail + es.length ∧
      q'.sendQCapacity = q.sendQCapacity ∧
      (∀ i < q.sendQTail, q'.sendQ i = q.sendQ i) ∧
      (∀ i ≥ q.sendQTail + es.length, q'.sendQ i = q.sendQ i) ∧
      ∀ j (hj : j < es.length), (q'.sendQ (q.sendQTail + j)).miniBatchNum = es[j].1 ∧
        (q'.sendQ (q.sendQTail + j)).txn = es[j].2 := by
  induction es generalizing q with
  | nil => exact ⟨q, rfl, rfl, rfl, fun _ _ => rfl, fun _ _ => rfl, nofun⟩
  | cons e es ih =>
    rw [List.length_cons] at hlt
    have hstep := allocSlot_of_lt h (by omega) e.1 e.2
    set q₁ : HotSendQ τ := { q with
      sendQ := Function.update q.sendQ q.sendQTail ⟨e.2, e.1, q.bufSize, hotTxnPktBytes⟩
      sendQTail := q.sendQTail + 1
      bufSize := q.bufSize + hotTxnPktBytes } with hq₁
    have hin : q₁.InStep := by
      show q.bufSize + hotTxnPktBytes = (q.sendQTail + 1) * hotTxnPktBytes
      rw [h, Nat.succ_mul]
    have htail : q₁.sendQTail = q.sendQTail + 1 := rfl
    obtain ⟨q', hrun, htail', hcap, hlow, hhigh, hent⟩ := ih hin (by
      show q.sendQTail + 1 + es.length < q.sendQCapacity
      omega)
    have hupd : ∀ i ≠ q.sendQTail, q₁.sendQ i = q.sendQ i := fun i hi =>
      Function.update_of_ne hi _ _
    refine ⟨q', by rw [allocSlots, hstep]; exact hrun, ?_, hcap, ?_, ?_, ?_⟩
    · rw [htail', htail, List.length_cons]
      omega
    · intro i hi
      rw [hlow i (by omega), hupd i (by omega)]
    · intro i hi
      rw [List.length_cons] at hi
      rw [hhigh i (by omega), hupd i (by omega)]
    · rintro (_ | j) hj
      · -- the entry written first survives the later claims
        rw [Nat.add_zero, hlow _ (by omega), hq₁]
        simp
      · have := hent j (by simpa using hj)
        rw [htail, Nat.add_assoc, Nat.add_comm 1 j] at this
        simpa using this

/-! ### Who owns the slots -/

section Owner
variable [DecidableEq τ]

/-- The number of slots that a transaction owns. -/
def slotsOf (q : HotSendQ τ) (txn : τ) : ℕ :=
  (List.range q.sendQTail).countP fun j => (q.sendQ j).txn = txn

theorem slotsOf_allocSlot {mbNum : ℕ} {txn : τ} (h : q.allocSlot mbNum txn = some q') (txn' : τ) :
    q'.slotsOf txn' = q.slotsOf txn' + [txn].count txn' := by
  obtain ⟨htail, hsend⟩ := allocSlot_eq_some h
  have hlow : ∀ j ∈ List.range q.sendQTail,
      (decide ((q'.sendQ j).txn = txn') = true ↔ decide ((q.sendQ j).txn = txn') = true) := by
    intro j hj
    rw [hsend, Function.update_of_ne (Nat.ne_of_lt (List.mem_range.mp hj))]
  unfold slotsOf
  rw [htail, List.range_succ, List.countP_append, List.countP_congr hlow]
  simp [hsend, List.count_cons]

theorem slotsOf_of_tail (h : q.sendQTail = 0) (txn : τ) : q.slotsOf txn = 0 := by
  simp [slotsOf, h]

end Owner

end P4db.HotSendQ
