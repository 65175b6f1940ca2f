import P4db.Ee.Equiv.Split
import P4db.Ee.TxnExecutor

/-!
# Demotion of an accelerated transaction

When `run_txn` gives up a transaction, it copies the hot operations back behind the cold ones, from
the end of the array on.

* `map_range_putBack`: the array after the copies, which stay in the array as long as a cold
  operation is left.
* `restoreCold_eq`: an accelerated transaction with a cold operation is always given `N_OPS` valid
  operations. In place of those of the second pass, these are the first ones of the first pass once
  more.
* `handleAbort_restores_iff`: they are the operations of the transaction exactly when this makes no
  difference, as it does with one pass.
-/

namespace P4db

/-- The entries before the end are the first ones of the array. -/
theorem terminated_eq_map {α : Type*} (n : ℕ) (ends : α → Bool) (arr : ℕ → α) :
    terminated n ends arr = (List.range (terminated n ends arr).length).map arr := by
  have hpre : terminated n ends arr <+: (List.range n).map arr := List.takeWhile_prefix _
  have hlen : (terminated n ends arr).length ≤ n := by
    simpa using hpre.length_le
  conv_lhs => rw [List.prefix_iff_eq_take.mp hpre]
  rw [← List.map_take, List.take_range, Nat.min_eq_left hlen]

/-! ### Writing backwards -/

namespace Txn

theorem putBack_index {k : ℕ} (hpos : 0 < k) (hk : k < 2 ^ 64) (arr : ℕ → Op) (op : Op) :
    putBack (arr, k) op = (Function.update arr k op, k - 1) := by
  have hnext : (k + 2 ^ 64 - 1) % 2 ^ 64 = k - 1 := by omega
  unfold putBack
  rw [hnext]

/-- Nothing behind the first index is written. -/
theorem putBack_above {ops : List Op} {k j : ℕ} (hlen : ops.length ≤ k) (hk : k < 2 ^ 64)
    (hj : k < j) (arr : ℕ → Op) : (ops.foldl putBack (arr, k)).1 j = arr j := by
  induction ops generalizing arr k with
  | nil => rfl
  | cons op ops ih =>
    rw [List.length_cons] at hlen
    rw [List.foldl_cons, putBack_index (by omega) hk, ih (by omega) (by omega) (by omega)]
    exact Function.update_of_ne (by omega) _ _

theorem putBack_snd {ops : List Op} {k : ℕ} (hlen : ops.length ≤ k) (hk : k < 2 ^ 64)
    (arr : ℕ → Op) : (ops.foldl putBack (arr, k)).2 = k - ops.length := by
  induction ops generalizing arr k with
  | nil => rfl
  | cons op ops ih =>
    rw [List.length_cons] at hlen ⊢
    rw [List.foldl_cons, putBack_index (by omega) hk, ih (by omega) (by omega)]
    omega

theorem map_range_putBack {ops : List Op} {k : ℕ} (hlen : ops.length ≤ k) (hk : k < 2 ^ 64)
    (arr : ℕ → Op) :
    (List.range (k + 1)).map (ops.foldl putBack (arr, k)).1 =
      (List.range (k + 1 - ops.length)).map arr ++ ops.reverse := by
  induction ops generalizing arr k with
  | nil => simp
  | cons op ops ih =>
    rw [List.length_cons] at hlen ⊢
    obtain ⟨k, rfl⟩ : ∃ k', k = k' + 1 := ⟨k - 1, by omega⟩
    rw [List.foldl_cons, putBack_index (by omega) hk, Nat.add_sub_cancel, List.range_succ,
      List.map_append, ih (by omega) (by omega), List.map_singleton,
      putBack_above (by omega) (by omega) (by omega),
      Function.update_self, map_range_update_of_le _ (by omega), List.reverse_cons,
        List.append_assoc]
    congr 3
    omega

theorem putBackInRange_of {ops : List Op} {k : ℕ} (hlen : ops.length ≤ k) (hk : k < nOps)
    (arr : ℕ → Op) : PutBackInRange ops (arr, k) := by
  have hlt : k < 2 ^ 64 := by
    simp only [nOps] at hk
    omega
  induction ops generalizing arr k with
  | nil => trivial
  | cons op ops ih =>
    rw [List.length_cons] at hlen
    refine ⟨hk, ?_⟩
    rw [putBack_index (by omega) hlt]
    exact ih (by omega) (by omega) _ (by omega)

end Txn

/-! ### The operations of a demoted transaction -/

namespace HotCold

variable {maxPasses : ℕ} {partInfo : PartitionInfo} {layout : DeclusteredLayout} {mem txn : Txn}
  {layout' : DeclusteredLayout}

/-- The second pass is not longer than the first: it uses register arrays that the first one uses
too. -/
theorem SplitInv.length_pass2_le {txn₀ : Txn} {i : ℕ} {st : State}
    (h : SplitInv maxPasses partInfo txn₀ layout i st) : (pass2 st).length ≤ (pass1 st).length := by
  have hsub : (pass2 st).map reg ⊆ (pass1 st).map reg := by
    intro r hr
    obtain ⟨y, hy, rfl⟩ := List.mem_map.mp hr
    obtain ⟨hlt, hreg⟩ := h.buf _ (h.used y hy)
    exact hreg ▸ List.mem_map_of_mem (List.mem_map_of_mem (List.mem_range.mpr hlt))
  simpa using (h.distinct2.subperm hsub).length_le

section Accelerated

variable (h : extractHotCold maxPasses partInfo (Txn.new mem) layout = some (txn, layout'))
  (hdo : txn.doAccel = true)
include h hdo

/-- The three lists of an accelerated transaction. -/
theorem lists_of_accel :
    (∀ op ∈ txn.cold ++ txn.hot.map Prod.fst ++ txn.hot2.map Prod.fst, op.mode ≠ .invalid) ∧
      ((txn.cold ++ txn.hot.map Prod.fst ++ txn.hot2.map Prod.fst).map Op.content).Perm
      (mem.ops.map Op.content) ∧
      txn.hot2.length ≤ txn.hot.length := by
  obtain ⟨st, rfl, -, hinv, -⟩ :=
    exists_of_accel (P := fun _ _ => True) (fun _ _ _ _ => trivial) trivial h hdo
  rw [hinv.cold_finishAccel, hinv.hot_finishAccel, hinv.hot2_finishAccel rfl]
  refine ⟨fun op hop => ?_, hinv.perm, hinv.length_pass2_le⟩
  rw [List.append_assoc, ← List.map_append, List.mem_append] at hop
  rcases hop with hop | hop
  · exact mode_of_mem_seen hinv.modes (List.mem_filter.mp (hinv.cold ▸ hop)).1
  · obtain ⟨pr, hpr, rfl⟩ := List.mem_map.mp hop
    exact hinv.mode_pass hpr

theorem putBackOps_of_accel :
    txn.putBackOps = txn.hot.map Prod.fst ++ (txn.hot.take txn.hot2.length).map Prod.fst := by
  obtain ⟨-, -, hle⟩ := lists_of_accel h hdo
  have hhot : txn.hot = (List.range txn.hot.length).map txn.hotOpsPass1 := terminated_eq_map _ _ _
  unfold Txn.putBackOps
  congr 1
  conv_rhs => rw [hhot]
  rw [← List.map_take, List.take_range, Nat.min_eq_left hle, List.map_map]
  rfl

theorem mode_of_mem_restored {op : Op} (hop : op ∈ txn.cold ++ txn.putBackOps.reverse) :
    op.mode ≠ .invalid := by
  obtain ⟨hmodes, -, -⟩ := lists_of_accel h hdo
  apply hmodes
  rw [putBackOps_of_accel h hdo, List.mem_append, List.mem_reverse, List.mem_append,
    List.map_take] at hop
  simp only [List.mem_append]
  rcases hop with hop | hop | hop
  · exact .inl (.inl hop)
  · exact .inl (.inr hop)
  · exact .inl (.inr (List.mem_of_mem_take hop))

/-- Whether these are the operations of the transaction. -/
theorem perm_restored_iff :
    ((txn.cold ++ txn.putBackOps.reverse).map Op.content).Perm (mem.ops.map Op.content) ↔
      ((txn.hot.take txn.hot2.length).map fun pr => pr.1.content).Perm (txn.hot2.map fun pr =>
        pr.1.content) := by
  obtain ⟨-, hperm, -⟩ := lists_of_accel h hdo
  have hrev : ((txn.cold ++ txn.putBackOps.reverse).map Op.content).Perm
      ((txn.cold ++ txn.hot.map Prod.fst ++ (txn.hot.take txn.hot2.length).map Prod.fst).map
          Op.content) := by
    rw [List.append_assoc, ← putBackOps_of_accel h hdo]
    exact ((List.reverse_perm _).append_left _).map _
  rw [List.Perm.congr_left hrev, List.Perm.congr_right hperm.symm]
  simp only [List.map_append, List.append_assoc, List.perm_append_left_iff, List.map_map]
  rfl

variable (hcold : txn.cold ≠ [])
include hcold

theorem length_putBackOps :
    txn.cold.length = nOps - txn.putBackOps.length ∧ txn.putBackOps.length ≤ nOps - 1 := by
  obtain ⟨-, hperm, hle⟩ := lists_of_accel h hdo
  have hsum := hperm.length_eq
  have hpos := List.length_pos_iff.mpr hcold
  simp only [List.length_map, List.length_append, Txn.ops, List.length_range] at hsum
  rw [putBackOps_of_accel h hdo]
  simp only [List.length_append, List.length_map, List.length_take]
  omega

/-- What demotion leaves in the array, and that it does not leave the array. -/
theorem restoreCold_eq (id : TxnId) (n : ℕ) :
    Txn.PutBackInRange txn.putBackOps (txn.coldOps, nOps - 1) ∧
    ∃ coldOps, ({ txn with id := id, nAborts := n } : Txn).restoreCold =
        some { txn with coldOps := coldOps, doAccel := false, id := id, nAborts := n } ∧
      (List.range nOps).map coldOps = txn.cold ++ txn.putBackOps.reverse := by
  obtain ⟨hlen, hle⟩ := length_putBackOps h hdo hcold
  have hcolds : txn.cold = (List.range txn.cold.length).map txn.coldOps := terminated_eq_map _ _ _
  have hops := Txn.map_range_putBack hle (by decide) txn.coldOps
  have hidx := Txn.putBack_snd hle (by decide) txn.coldOps
  refine ⟨Txn.putBackInRange_of hle (by decide) _, ?_⟩
  unfold Txn.restoreCold
  have hsame : ({ txn with id := id, nAborts := n } : Txn).putBackOps = txn.putBackOps := rfl
  rw [hsame]
  dsimp only
  generalize txn.putBackOps.foldl Txn.putBack (txn.coldOps, nOps - 1) = r at hops hidx ⊢
  obtain ⟨coldOps, coldP⟩ := r
  change (List.range nOps).map coldOps =
    (List.range (nOps - txn.putBackOps.length)).map txn.coldOps ++ txn.putBackOps.reverse at hops
  rw [← hlen, ← hcolds] at hops
  -- the assertion is on the last cold operation
  have hlast : (coldOps coldP).mode ≠ .invalid := by
    apply mode_of_mem_restored h hdo
    rw [← hops]
    have hlt : coldP < nOps := by
      have hpos : 0 < nOps := by decide
      simp only at hidx
      omega
    exact List.mem_map_of_mem (List.mem_range.mpr hlt)
  exact ⟨coldOps, if_neg hlast, hops⟩

end Accelerated

end HotCold

/-! ### Giving up -/

namespace Worker

open HotCold

variable {maxPasses : ℕ} {partInfo : PartitionInfo} {layout : DeclusteredLayout} {mem txn : Txn}
  {layout' : DeclusteredLayout} {s : Worker} {enqueueAborts : Bool} {e n : ℕ} {id : TxnId}

section GivesUp

variable (h : extractHotCold maxPasses partInfo (Txn.new mem) layout = some (txn, layout'))
  (hdo : txn.doAccel = true) (hcold : txn.cold ≠ [])
  (hs : s.txns e = { txn with id := id, nAborts := n })
  (hgive : ¬(enqueueAborts = true ∧ n + 1 ≤ maxTimesAccelAbort))
include h hdo hcold hs hgive

/-- `run_txn` gives up an accelerated transaction. -/
theorem handleAbort_eq (q : ℕ) : ∃ s', s.handleAbort enqueueAborts q e = some s' ∧
    (s'.txns e).ops = txn.cold ++ txn.putBackOps.reverse := by
  obtain ⟨-, coldOps, hrestore, hops⟩ := restoreCold_eq h hdo hcold id (n + 1)
  have heq : s.handleAbort enqueueAborts q e =
      ({ txn with id := id, nAborts := n + 1 } : Txn).restoreCold.map
      fun txn => (s.setTxn e txn).pushLeftover e := by
    unfold handleAbort
    rw [hs]
    exact if_neg hgive
  rw [heq, hrestore]
  refine ⟨_, rfl, ?_⟩
  show (Function.update s.txns e _ e).ops = _
  rw [Function.update_self]
  exact hops

/-- **Demotion.**  When `run_txn` gives up an accelerated transaction that has a cold operation, the
writes stay in `cold_ops` and leave `N_OPS` valid operations there, which `execute` will perform.
They are the operations of the transaction exactly when the first operations of the first pass ask
for the same as those of the second. -/
theorem handleAbort_restores_iff (q : ℕ) :
    Txn.PutBackInRange txn.putBackOps (txn.coldOps, nOps - 1) ∧
    ∃ s', s.handleAbort enqueueAborts q e = some s' ∧
      (∀ op ∈ (s'.txns e).ops, op.mode ≠ .invalid) ∧ (s'.txns e).cold = (s'.txns e).ops ∧
      (((s'.txns e).ops.map Op.content).Perm (mem.ops.map Op.content) ↔
        ((txn.hot.take txn.hot2.length).map fun pr => pr.1.content).Perm
          (txn.hot2.map fun pr => pr.1.content)) := by
  obtain ⟨s', heq, hops⟩ := handleAbort_eq h hdo hcold hs hgive q
  have hmodes : ∀ op ∈ (s'.txns e).ops, op.mode ≠ .invalid := by
    rw [hops]
    exact fun op hop => mode_of_mem_restored h hdo hop
  refine ⟨(restoreCold_eq h hdo hcold id n).1, s', heq, hmodes, ?_, ?_⟩
  · refine terminated_eq (Nat.le_refl nOps) (fun j hj => ?_) fun hlt => absurd hlt (Nat.lt_irrefl _)
    exact decide_eq_false (hmodes _ (List.mem_map_of_mem (List.mem_range.mpr hj)))
  · rw [hops]
    exact perm_restored_iff h hdo

end GivesUp

/-- A worker whose transactions are all `txn`. -/
def holding (txn : Txn) : Worker :=
  { Worker.init (fun _ => txn) (fun _ => ⟨none, 0, 0, 0⟩) with txns := fun _ => txn }

/-- With one pass every operation comes back. -/
theorem handleAbort_restores_onePass : ∃ txn layout' s',
    extractHotCold 1 oneNode
      (Txn.new (memOf [2305, 0, 2304, 2303, 2302, 2301, 2300, 2299])) sample =
      some (txn, layout') ∧ (holding txn).handleAbort false 0 0 = some s' ∧
      ((s'.txns 0).cold.map Op.content).Perm
        ((memOf [2305, 0, 2304, 2303, 2302, 2301, 2300, 2299]).ops.map Op.content) := by
  obtain ⟨txn, layout', heq, hval⟩ :=
    exists_extract_sample 1 [2305, 0, 2304, 2303, 2302, 2301, 2300, 2299]
    (fun txn => (txn.doAccel, txn.cold.length, txn.hot2.length)) (v := (true, 2, 0)) (by decide)
    (by decide +kernel)
  simp only [Prod.mk.injEq] at hval
  obtain ⟨hdo, hlen, hlen2⟩ := hval
  have hcold : txn.cold ≠ [] := List.ne_nil_of_length_pos (by omega)
  obtain ⟨-, s', habort, -, hexec, hiff⟩ :=
    handleAbort_restores_iff (s := holding txn) (e := 0) heq hdo hcold rfl
      (show ¬(false = true ∧ _) from fun hc => nomatch hc.1) 0
  refine ⟨txn, layout', s', heq, habort, ?_⟩
  rw [hexec, hiff, hlen2, List.length_eq_zero_iff.mp hlen2]
  exact List.Perm.refl _

/-- The operation on key 2304 is lost, and the one on key 2232 comes back twice. -/
theorem not_handleAbort_restores_twoHot : ∃ txn layout' s',
    extractHotCold 2 oneNode (Txn.new (memOf twoHot)) sample = some (txn, layout') ∧
      txn.doAccel = true ∧
      txn.cold ≠ [] ∧ (holding txn).handleAbort false 0 0 = some s' ∧
      (s'.txns 0).ops.map Op.id = [2305, 0, 2232, 2300, 2301, 2302, 2303, 2232] ∧
      ¬((s'.txns 0).ops.map Op.content).Perm ((memOf twoHot).ops.map Op.content) := by
  obtain ⟨txn, layout', heq, hval⟩ := exists_extract_sample 2 twoHot
    (fun txn => (txn.doAccel, (txn.cold ++ txn.putBackOps.reverse).map Op.id, txn.cold.length))
    (v := (true, [2305, 0, 2232, 2300, 2301, 2302, 2303, 2232], 2)) (by decide) (by decide +kernel)
  simp only [Prod.mk.injEq] at hval
  obtain ⟨hdo, hids, hlen⟩ := hval
  have hcold : txn.cold ≠ [] := List.ne_nil_of_length_pos (by omega)
  obtain ⟨s', habort, hops⟩ := handleAbort_eq (s := holding txn) (e := 0) heq hdo hcold rfl
    (show ¬(false = true ∧ _) from fun hc => nomatch hc.1) 0
  refine ⟨txn, layout', s', heq, hdo, hcold, habort, hops ▸ hids, fun hperm => ?_⟩
  have hperm' := hperm.map Prod.fst
  rw [List.map_map, List.map_map, hops] at hperm'
  have hids' : ((txn.cold ++ txn.putBackOps.reverse).map (Prod.fst ∘ Op.content)) =
      [2305, 0, 2232, 2300, 2301, 2302, 2303, 2232] := hids
  rw [hids'] at hperm'
  revert hperm'
  decide

end Worker

end P4db
