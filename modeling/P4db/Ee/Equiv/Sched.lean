import P4db.Algorithm.Queues
import P4db.Ee.Equiv.HotCold
import P4db.Ee.TxnExecutor

/-!
# What the scheduler does with a batch

`schedBatch_cases`: a queue is always found, every position of the batch goes to one queue, and a
transaction with a hottest cold key goes to a queue which the schedule of this key gives to the
node. The schedule of a key, `queueOwner`, is the same on all nodes.
-/

namespace P4db

open Queues

namespace SchedConf

variable (c : SchedConf)

theorem nQueues_pos : 0 < c.nQueues := by
  have := c.nodeId_lt
  unfold nQueues scheduleLen
  omega

/-- The node that the schedule of a key gives a queue to. -/
def queueOwner (k : DbKey) (q : ℕ) : Option ℕ :=
  (c.schedule (c.partInfo.location k).target (k % c.nSchedules))[q]?

/-- The schedule of a key does not depend on who computes it. -/
theorem queueOwner_congr {c c' : SchedConf} (hnodes : c.numNodes = c'.numNodes)
    (htable : c.tableSize = c'.tableSize) (k : DbKey) (q : ℕ) :
    c.queueOwner k q = c'.queueOwner k q := by
  simp [queueOwner, schedule, scheduleLen, nSchedules, nExtraLocal, partInfo,
    PartitionInfo.location, PartitionInfo.partitionSize, hnodes, htable]

theorem nQueues_congr {c c' : SchedConf} (hnodes : c.numNodes = c'.numNodes) :
    c.nQueues = c'.nQueues := by
  simp [nQueues, scheduleLen, nExtraLocal, hnodes]

/-- **Every node has a queue in every schedule.** -/
theorem getElem?_schedule_own {s : ℕ} (hs : s < c.nSchedules) (node : ℕ) :
    s + c.nodeId < c.scheduleLen ∧ (c.schedule node s)[s + c.nodeId]? = some c.nodeId := by
  have hlt := c.nodeId_lt
  have hlen : s + c.nodeId < c.scheduleLen := by
    unfold nSchedules at hs
    unfold scheduleLen
    omega
  refine ⟨hlen, ?_⟩
  simp [schedule, hlen, hlt]

end SchedConf

namespace SchedState

variable {c : SchedConf} {st st' : SchedState}

/-- The schedule of an operation is found if it is in range. -/
theorem schedOf_cases (op : Op) : schedOf c op = .error .schedules ∨
    schedOf c op = .ok (c.schedule op.locInfo.target (op.id % c.nSchedules)) := by
  unfold schedOf
  split
  · exact .inl rfl
  · next nodeSchedules hnode =>
    split
    · exact .inl rfl
    · next sched hsched =>
      simp only [SchedConf.schedules, List.getElem?_map, Option.map_eq_some_iff,
        List.getElem?_eq_some_iff] at hnode
      obtain ⟨node, ⟨hlt, rfl⟩, rfl⟩ := hnode
      simp only [List.getElem?_map, Option.map_eq_some_iff, List.getElem?_eq_some_iff] at hsched
      obtain ⟨s, ⟨hlt', rfl⟩, rfl⟩ := hsched
      simp

theorem sBest_eq_some {scheds : List (List ℕ)} {q : ℕ} (h : st.sBest c scheds = some q) :
    q < c.nQueues ∧ ∀ sched ∈ scheds, sched[q]? = some c.nodeId := by
  obtain ⟨hlt, hok⟩ := lowestWhere_eq_some h
  refine ⟨hlt, fun sched hsched => ?_⟩
  simpa using List.all_eq_true.mp hok sched hsched

/-- There is a queue for every operation. -/
theorem sBest_ne_none (st : SchedState) (op : Op) :
    st.sBest c [c.schedule op.locInfo.target (op.id % c.nSchedules)] ≠ none := by
  have hmod : op.id % c.nSchedules < c.nSchedules := Nat.mod_lt _ (Nat.succ_pos _)
  obtain ⟨hlen, hown⟩ := c.getElem?_schedule_own hmod op.locInfo.target
  apply lowestWhere_ne_none _ hlen
  simp [hown]

/-- A queue is found, and it belongs to the node in the schedule of the hottest operation; only the
accesses to `schedules` may fail. -/
theorem findQueue_cases (st : SchedState) (txn : Txn) (i1 : ℕ) :
    st.findQueue c txn i1 = .error .schedules ∨ ∃ q < c.nQueues, st.findQueue c txn i1 = .ok q ∧
      (c.schedule (txn.coldOps i1).locInfo.target
        ((txn.coldOps i1).id % c.nSchedules))[q]? = some c.nodeId := by
  have hsome := sBest_ne_none (c := c) st (txn.coldOps i1)
  unfold findQueue
  rcases schedOf_cases (c := c) (txn.coldOps i1) with h1 | h1
  · exact .inl (by rw [h1]; rfl)
  rw [h1]
  simp only [bind, Except.bind, pure, Except.pure]
  set sched1 := c.schedule (txn.coldOps i1).locInfo.target ((txn.coldOps i1).id % c.nSchedules)
  -- the second loop, which runs if the first finds nothing
  obtain ⟨q, hq⟩ := Option.ne_none_iff_exists'.mp hsome
  have hlast := sBest_eq_some hq
  rw [hq]
  cases txn.hottestColdI2 with
  | none => exact .inr ⟨q, hlast.1, rfl, hlast.2 sched1 List.mem_cons_self⟩
  | some i2 =>
    rcases schedOf_cases (c := c) (txn.coldOps i2) with h2 | h2
    · exact .inl (by simp only [h2])
    · simp only [h2]
      split
      · next s hs =>
        exact .inr ⟨s, (sBest_eq_some hs).1, rfl, (sBest_eq_some hs).2 sched1 List.mem_cons_self⟩
      · exact .inr ⟨q, hlast.1, rfl, hlast.2 sched1 List.mem_cons_self⟩

/-- Where a transaction was put by an iteration of `sched_batch`. -/
structure Placed (c : SchedConf) (st : SchedState) (i : ℕ) (st' : SchedState) (q : ℕ) : Prop where
  queue_lt : q < c.nQueues
  queues : st'.mbQueues = Function.update st.mbQueues q (st.mbQueues q ++ [i])
  txns : ∀ e ≠ i, st'.txns e = st.txns e
  owner : ∀ k, (st.txns i).hottestColdI1 = none → (st'.txns i).hottestColdKey = some k →
    c.queueOwner k q = some c.nodeId

/-- The faults an iteration of the loop can end with. -/
def OfTxn (f : SchedFault) : Prop := f ≠ .sBest ∧ f ≠ .queueEmpty

theorem schedTxn_cases (st : SchedState) (i : ℕ) :
    (∃ f, OfTxn f ∧ schedTxn c st i = .error f) ∨
      ∃ st' q, schedTxn c st i = .ok st' ∧ Placed c st i st' q := by
  unfold schedTxn
  split_ifs with hinit
  · exact .inl ⟨.initDone, ⟨by decide, by decide⟩, rfl⟩
  cases hex : HotCold.extractHotCold c.maxPasses c.partInfo (st.txns i) st.layout with
  | none => exact .inl ⟨.extractHotCold, ⟨by decide, by decide⟩, rfl⟩
  | some r =>
    obtain ⟨txn, layout⟩ := r
    simp only
    have htxns : ∀ e ≠ i, Function.update st.txns i txn e = st.txns e := fun e he =>
      Function.update_of_ne he _ _
    cases hi1 : txn.hottestColdI1 with
    | none =>
      refine .inr ⟨_, st.zeroSprayIdx % c.nQueues, rfl, Nat.mod_lt _ c.nQueues_pos, rfl, htxns, ?_⟩
      intro k _ hk
      simp [push, Txn.hottestColdKey, hi1] at hk
    | some i1 =>
      simp only
      rcases findQueue_cases (c := c)
        { st with txns := Function.update st.txns i txn, layout := layout }
        txn i1 with hf | ⟨q, hq, hf, hown⟩
      · exact .inl ⟨.schedules, ⟨by decide, by decide⟩, by rw [hf]; rfl⟩
      · rw [hf]
        refine .inr ⟨_, q, rfl, hq, rfl, htxns, ?_⟩
        intro k hnone hk
        have hloc := HotCold.owner_of_hottestColdI1 hnone hex hi1
        simp only [push, Function.update_self, Txn.hottestColdKey, hi1, Option.map_some,
          Option.some.injEq] at hk
        rw [hloc, hk] at hown
        exact hown

/-! ### The whole batch -/

/-- What the loop over a list of positions has done. -/
structure Scheduled (c : SchedConf) (st : SchedState) (l : List ℕ) (st' : SchedState) : Prop where
  tally : ∀ e, tally c.nQueues st'.mbQueues e = tally c.nQueues st.mbQueues e + l.count e
  beyond : ∀ q ≥ c.nQueues, st'.mbQueues q = st.mbQueues q
  txns : ∀ e ∉ l, st'.txns e = st.txns e
  mem : ∀ q, ∀ e ∈ st'.mbQueues q, e ∈ st.mbQueues q ∨ e ∈ l
  owner : ∀ q, ∀ e ∈ l, e ∈ st'.mbQueues q → e ∉ st.mbQueues q → ∀ k,
    (st.txns e).hottestColdI1 = none → (st'.txns e).hottestColdKey = some k →
      c.queueOwner k q = some c.nodeId

theorem Placed.scheduled {i q : ℕ} {l : List ℕ} {st'' : SchedState} (h : Placed c st i st' q)
    (hrest : Scheduled c st' l st'') (hi : i ∉ l) : Scheduled c st (i :: l) st'' := by
  have hother : ∀ q' ≠ q, st'.mbQueues q' = st.mbQueues q' := by
    intro q' hq'
    rw [h.queues, Function.update_of_ne hq']
  have hself : st'.mbQueues q = st.mbQueues q ++ [i] := by
    rw [h.queues, Function.update_self]
  refine ⟨fun e => ?_, fun q' hq' => ?_, fun e he => ?_, fun q' e he => ?_, ?_⟩
  · have hpush := tally_push h.queue_lt st.mbQueues i e
    rw [← h.queues] at hpush
    have hcons : (i :: l).count e = [i].count e + l.count e := by
      rw [← List.singleton_append, List.count_append]
    rw [hrest.tally, hpush, hcons, Nat.add_assoc]
  · have := h.queue_lt
    rw [hrest.beyond q' hq', hother q' (by omega)]
  · rw [List.mem_cons, not_or] at he
    rw [hrest.txns e he.2, h.txns e he.1]
  · rcases hrest.mem q' e he with hmem | hmem
    · by_cases hq' : q' = q
      · subst hq'
        rw [hself, List.mem_append, List.mem_singleton] at hmem
        exact hmem.imp_right fun heq : e = i => heq ▸ List.mem_cons_self
      · exact .inl (hother q' hq' ▸ hmem)
    · exact .inr (List.mem_cons_of_mem _ hmem)
  · intro q' e he hmem hnew k hnone hk
    rcases List.mem_cons.mp he with rfl | hel
    · -- the first position: nothing after it touches its transaction or moves it
      have hin : e ∈ st'.mbQueues q' := (hrest.mem q' e hmem).resolve_right hi
      have hq' : q' = q := by
        by_contra hne
        exact hnew (hother q' hne ▸ hin)
      subst hq'
      rw [hrest.txns e hi] at hk
      exact h.owner k hnone hk
    · have hne : e ≠ i := fun heq => hi (heq ▸ hel)
      refine hrest.owner q' e hel hmem ?_ k (by rw [h.txns e hne]; exact hnone) hk
      by_cases hq' : q' = q
      · subst hq'
        rw [hself]
        simp [hnew, hne]
      · rw [hother q' hq']
        exact hnew

theorem foldlM_schedTxn_cases {l : List ℕ} (hnd : l.Nodup) (st : SchedState) :
    (∃ f, OfTxn f ∧ l.foldlM (schedTxn c) st = .error f) ∨
      ∃ st', l.foldlM (schedTxn c) st = .ok st' ∧ Scheduled c st l st' := by
  induction l generalizing st with
  | nil => exact .inr ⟨st, rfl, by simp, fun _ _ => rfl, fun _ _ => rfl, fun _ _ h => .inl h, nofun⟩
  | cons i l ih =>
    obtain ⟨hi, hnd⟩ := List.nodup_cons.mp hnd
    rw [List.foldlM_cons]
    rcases schedTxn_cases (c := c) st i with ⟨f, hf, herr⟩ | ⟨st₁, q, hok, hplaced⟩
    · exact .inl ⟨f, hf, by rw [herr]; rfl⟩
    rw [hok]
    rcases ih hnd st₁ with ⟨f, hf, herr⟩ | ⟨st', hok', hsch⟩
    · exact .inl ⟨f, hf, herr⟩
    · exact .inr ⟨st', hok', hplaced.scheduled hsch hi⟩

/-- **A batch.** If `sched_batch` fails it is not for want of a queue; if it does not fail, the
positions of the batch have been put in the queues. -/
theorem schedBatch_cases (st : SchedState) (start n : ℕ) :
    (∃ f ≠ SchedFault.sBest, schedBatch c st start (start + n) = .error f ∧
      (f = .queueEmpty → ¬∀ q < c.nQueues, st.mbQueues q = [])) ∨
    ∃ st', schedBatch c st start (start + n) = .ok st' ∧ (∀ q < c.nQueues, st.mbQueues q = []) ∧
      Scheduled c st (List.range' start n) st' := by
  unfold schedBatch
  split_ifs with hempty
  · rw [Nat.add_sub_cancel_left]
    rcases foldlM_schedTxn_cases (c := c) List.nodup_range' { st with zeroSprayIdx := 0 } with
      ⟨f, hf, herr⟩ | ⟨st', hok, hsch⟩
    · exact .inl ⟨f, hf.1, herr, fun hq => absurd hq hf.2⟩
    · exact .inr ⟨st', hok, hempty, hsch.tally, hsch.beyond, hsch.txns, hsch.mem, hsch.owner⟩
  · exact .inl ⟨.queueEmpty, by decide, rfl, fun _ => hempty⟩

end SchedState

end P4db
