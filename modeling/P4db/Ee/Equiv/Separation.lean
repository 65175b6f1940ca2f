import P4db.Ee.Equiv.TxnExecutor

/-!
# Nodes are separated on their hottest keys

A transaction stands in a queue only if the schedule of its hottest cold key gives this queue to the
node, and it stays there with the same key until it is taken out for good.  So in a mini-batch,
where all nodes use the queue of the same number, no two nodes run transactions with the same
hottest cold key.  The last mini-batch of a batch is the exception; since every batch has 21 of
them, it is the last one for all nodes at once (`Clock`).

* `nodes_separated`: what holds between any two workers on different nodes, over all of their runs.
-/

namespace P4db.Worker

open Queues

variable {c : WorkerConf} {s s' : Worker}

/-! ### The number of the mini-batch -/

/-- The mini-batches of a batch. -/
def perBatch : ℕ := batchSizeTgt / miniBatchSizeTgt + 1

/-- Batches have the same number of mini-batches, and the last one is a multiple of it. -/
def Clock (s : Worker) : Prop :=
  match s.phase with
  | .mini orig _ =>
    orig % perBatch = 1 ∧ orig ≤ s.miniBatchNum ∧ s.miniBatchNum + 1 < orig + perBatch
  | .drain _ => s.miniBatchNum % perBatch = 0
  | _ => s.miniBatchNum % perBatch = 1

theorem perBatch_eq : perBatch = 21 := rfl

theorem clock_step (a : Action) (h : Clock s) (hstep : s.step c a = some s') : Clock s' := by
  unfold Clock at h
  simp only [perBatch_eq] at h
  cases a with
  | sched layout =>
    obtain ⟨hphase, st, rfl, -⟩ := sched_cases hstep
    rw [hphase] at h
    refine ⟨h, Nat.le_refl _, ?_⟩
    show s.miniBatchNum + 1 < s.miniBatchNum + 21
    omega
  | run rc =>
    rcases run_cases hstep with ⟨orig, n, s₁, hphase, hran, rfl⟩ | ⟨q, hphase, hran⟩
    · rw [hphase, ← hran.miniBatchNum] at h
      exact h
    · rw [hphase, ← hran.miniBatchNum] at h
      rw [Clock, hran.phase, hphase]
      exact h
  | next =>
    rcases next_cases hstep with ⟨orig, n, hphase, rfl⟩ | ⟨q, hphase, -, ⟨-, rfl⟩ | ⟨-, rfl⟩⟩
    · rw [hphase] at h
      unfold Clock
      simp only [perBatch_eq, show batchSizeTgt / miniBatchSizeTgt = 20 from rfl]
      split_ifs with hmore
      · exact ⟨h.1, Nat.le_succ_of_le h.2.1, by omega⟩
      · show (s.miniBatchNum + 1) % 21 = 0
        omega
    · rw [hphase] at h
      exact h
    · rw [hphase] at h
      show (s.miniBatchNum + 1) % 21 = 1
      omega
  | others mb =>
    obtain ⟨-, q, -, rfl⟩ := others_cases hstep
    exact h
  | doneSending =>
    obtain ⟨hphase, rfl⟩ := doneSending_cases hstep
    rw [hphase] at h
    exact h
  | execute rc =>
    obtain ⟨limit, hphase, -, htried⟩ := runLeftover_cases hstep
    rw [Clock, htried.phase, htried.miniBatchNum]
    exact h
  | finish =>
    obtain ⟨limit, hphase, -, rfl⟩ := finish_cases hstep
    rw [hphase] at h
    exact h

/-! ### Queues and keys -/

/-- Where the scheduled positions end. -/
def stop (c : WorkerConf) (s : Worker) : ℕ := if s.phase = .batch then s.i else s.i + c.batchTgt

theorem stop_of_ne_batch (h : s.phase ≠ .batch) : s.stop c = s.i + c.batchTgt := if_neg h

theorem Accounted.balance (h : Accounted c s) : Balance c (s.stop c) s := by
  unfold Accounted at h
  cases hphase : s.phase with
  | batch =>
    rw [hphase] at h
    rw [stop, if_pos hphase]
    exact h.1
  | mini orig n =>
    rw [hphase] at h
    rw [stop_of_ne_batch (by simp [hphase])]
    exact h.1
  | drain q =>
    rw [hphase] at h
    rw [stop_of_ne_batch (by simp [hphase])]
    exact h.1
  | hot =>
    rw [hphase] at h
    rw [stop_of_ne_batch (by simp [hphase])]
    exact h.1
  | leftover limit =>
    rw [hphase] at h
    rw [stop_of_ne_batch (by simp [hphase])]
    exact h.1

/-- The key of a transaction in a queue gives this queue to the node, and so does the key of every
transaction that a mini-batch has run; transactions that are not scheduled have no key yet. -/
structure Separated (c : WorkerConf) (s : Worker) : Prop where
  fresh : ∀ e ≥ s.stop c, (s.txns e).hottestColdI1 = none
  owned : ∀ q, ∀ e ∈ s.mbQueues q, ∀ k, (s.txns e).hottestColdKey = some k →
    c.queueOwner k q = some c.nodeId
  ran : ∀ mb e k, Event.runTxn mb true e (some k) ∈ s.trace →
    c.queueOwner k ((mb - 1) % c.nQueues) = some c.nodeId
  last : ∀ mb enq e k, Event.runTxn mb enq e k ∈ s.trace → (enq = true ↔ mb % perBatch ≠ 0)

theorem separated_init (mem : ℕ → Txn) (memQ : ℕ → HotTxnEntry (Option ℕ)) :
    Separated c (init mem memQ) where
  fresh _ _ := rfl
  owned _ _ h := nomatch h
  ran _ _ _ h := nomatch h
  last _ _ _ _ h := nomatch h

/-- A transaction that `run_txn` has taken for good is in no queue. -/
theorem Balance.not_mem_of_pop {hi q q' e : ℕ} {es : List ℕ} (h : Balance c hi s)
    (hq : q < c.nQueues) (hhead : s.mbQueues q = e :: es) :
    e ∉ Function.update s.mbQueues q es q' := by
  have hle : tally c.nQueues s.mbQueues e ≤ 1 := by
    have := h.once e (h.le_of_mem hq (hhead ▸ List.mem_cons_self))
    split_ifs at this <;> omega
  have hpop := tally_pop hq hhead e
  rw [List.count_singleton_self] at hpop
  rcases Nat.lt_or_ge q' c.nQueues with hlt | hge
  · exact not_mem_of_tally (by omega) hlt
  · rw [Function.update_of_ne (by omega), h.beyond q' hge]
    exact List.not_mem_nil

/-- A call of `run_txn` is recorded once. -/
theorem Took.runTxn_mem {enq enq' : Bool} {q e e' mb : ℕ} {es : List ℕ} {k : Option DbKey}
    (h : Took s enq q e es s') (hmem : Event.runTxn mb enq' e' k ∈ s'.trace) :
    Event.runTxn mb enq' e' k ∈ s.trace ∨
      mb = s.miniBatchNum ∧ enq' = enq ∧ e' = e ∧ k = (s.txns e).hottestColdKey := by
  cases h with
  | retried _ _ _ _ _ htrace => simpa [htrace] using hmem
  | left tried htried _ _ _ htrace => rcases htried with rfl | rfl <;> simpa [htrace] using hmem
  | committed _ _ _ htrace => simpa [htrace] using hmem

theorem Separated.of_ran {q : ℕ} {enq : Bool} (h : Separated c s) (hbal : Balance c (s.stop c) s)
    (hq : q < c.nQueues) (hran : Ran s enq q s')
    (hdue : enq = true → q = (s.miniBatchNum - 1) % c.nQueues)
    (hlast : enq = true ↔ s.miniBatchNum % perBatch ≠ 0) : Separated c s' := by
  obtain ⟨e, es, hhead, htook, htxns⟩ := hran.took
  have hmem : e ∈ s.mbQueues q := hhead ▸ List.mem_cons_self
  have hstop : s'.stop c = s.stop c := by rw [stop, stop, hran.phase, hran.i]
  refine ⟨fun e' he' => ?_, fun q' e' he' k hk => ?_, fun mb e' k hev => ?_,
    fun mb enq' e' k hev => ?_⟩
  · -- a position beyond the batch is in no queue
    have hne : e' ≠ e := by
      rintro rfl
      have hone := hbal.once e' (hbal.le_of_mem hq hmem)
      have hcount := count_le_tally hq s.mbQueues e'
      have hpos := List.count_pos_iff.mpr hmem
      rw [if_neg (by omega)] at hone
      omega
    rw [htxns e' hne]
    exact h.fresh e' (hstop ▸ he')
  · -- what is in a queue now was there before, and its key is the same
    have hbefore : e' ∈ s.mbQueues q' ∧
        (s'.txns e').hottestColdKey = (s.txns e').hottestColdKey := by
      have hpopped : ∀ hqueues : s'.mbQueues = Function.update s.mbQueues q es,
          e' ∈ s.mbQueues q' ∧ e' ≠ e := by
        intro hqueues
        rw [hqueues] at he'
        refine ⟨?_, fun heq => hbal.not_mem_of_pop hq hhead (heq ▸ he')⟩
        by_cases hq' : q' = q
        · subst hq'
          rw [Function.update_self] at he'
          exact hhead ▸ List.mem_cons_of_mem _ he'
        · rwa [Function.update_of_ne hq'] at he'
      cases htook with
      | retried _ hkey hqueues =>
        constructor
        · rw [hqueues] at he'
          by_cases hq' : q' = q
          · subst hq'
            rw [Function.update_self] at he'
            rw [hhead]
            simpa [or_comm] using he'
          · rwa [Function.update_of_ne hq'] at he'
        · by_cases heq : e' = e
          · rw [heq, hkey]
          · rw [htxns e' heq]
      | left _ _ hqueues => exact ⟨(hpopped hqueues).1, by rw [htxns e' (hpopped hqueues).2]⟩
      | committed hqueues => exact ⟨(hpopped hqueues).1, by rw [htxns e' (hpopped hqueues).2]⟩
    exact h.owned q' e' hbefore.1 k (hbefore.2 ▸ hk)
  · rcases htook.runTxn_mem hev with hold | ⟨rfl, henq, rfl, hk⟩
    · exact h.ran mb e' k hold
    · rw [← hdue henq.symm]
      exact h.owned q e' hmem k hk.symm
  · rcases htook.runTxn_mem hev with hold | ⟨rfl, rfl, -, -⟩
    · exact h.last mb enq' e' k hold
    · exact hlast

theorem Separated.congr (h : Separated c s) (htxns : s'.txns = s.txns)
    (hqueues : s'.mbQueues = s.mbQueues) (htrace : s'.trace = s.trace)
    (hstop : s'.stop c = s.stop c) : Separated c s' where
  fresh := by simpa only [htxns, hstop] using h.fresh
  owned := by simpa only [htxns, hqueues] using h.owned
  ran := by simpa only [htrace] using h.ran
  last := by simpa only [htrace] using h.last

/-- What `sched_batch` puts in a queue belongs there. -/
theorem Separated.owned_of_scheduled {layout : DeclusteredLayout} {st : SchedState} {q e : ℕ}
    {k : DbKey} (h : Separated c s) (hphase : s.phase = .batch) (hdr : Drained s)
    (hsch : SchedState.Scheduled c.toSchedConf ⟨s.txns, s.mbQueues, layout, 0⟩ (s.window c) st)
    (he : e ∈ st.mbQueues q) (hk : (st.txns e).hottestColdKey = some k) :
    c.queueOwner k q = some c.nodeId := by
  have hstop : s.stop c = s.i := if_pos hphase
  have hnew : e ∉ s.mbQueues q := by simp [hdr q]
  have hwin : e ∈ s.window c := (hsch.mem q e he).resolve_left hnew
  have hge := (mem_window.mp hwin).1
  exact hsch.owner q e hwin he hnew k (h.fresh e (by omega)) hk

theorem separated_sched {layout : DeclusteredLayout} (h : Separated c s) (hacc : Accounted c s)
    (hstep : s.sched c layout = some s') : Separated c s' := by
  obtain ⟨hphase, st, rfl, hsch⟩ := sched_cases hstep
  rw [Accounted, hphase] at hacc
  have hstop : s.stop c = s.i := if_pos hphase
  refine ⟨fun e (he : s.i + c.batchTgt ≤ e) => ?_, fun q e he k hk =>
    h.owned_of_scheduled hphase hacc.2.2.1 hsch he hk, h.ran, h.last⟩
  show (st.txns e).hottestColdI1 = none
  rw [hsch.txns e (by rw [mem_window]; omega)]
  exact h.fresh e (by omega)

/-- The key of a leftover transaction does not matter any more. -/
theorem separated_execute {rc : RC} (h : Separated c s) (hacc : Accounted c s)
    (hstep : s.runLeftover c rc = some s') : Separated c s' := by
  obtain ⟨limit, hphase, -, htried⟩ := runLeftover_cases hstep
  rw [Accounted, hphase] at hacc
  obtain ⟨hbal, hdr, -, -, -, -⟩ := hacc
  have hstop : s.stop c = s.i + c.batchTgt := stop_of_ne_batch (by simp [hphase])
  have hstop' : s'.stop c = s.stop c := by rw [stop, stop, htried.phase, htried.i]
  obtain ⟨e, es, hhead, htxns, hcase⟩ := htried.took
  have hev : ∀ mb enq e k, Event.runTxn mb enq e k ∈ s'.trace →
      Event.runTxn mb enq e k ∈ s.trace := by
    intro mb enq e k hmem
    rcases hcase with ⟨-, htrace⟩ | ⟨sent, hsent, -, htrace⟩
    · simpa [htrace] using hmem
    · rcases hsent with rfl | rfl <;> simpa [htrace] using hmem
  refine ⟨fun e' he' => ?_, fun q e' he' => ?_, fun mb e k hmem => h.ran mb e k (hev _ _ _ _ hmem),
    fun mb enq e k hmem => h.last mb enq e k (hev _ _ _ _ hmem)⟩
  · -- a leftover transaction is one of the batch
    have hne : e' ≠ e := by
      rintro rfl
      have hge : s.i + c.batchTgt ≤ e' := by omega
      have hzero := hbal.of_drained hdr (show s.i ≤ e' by omega)
      have hleft := hbal.left e' (by omega)
      rw [if_neg (by omega)] at hzero
      rw [hhead, List.count_cons_self] at hleft
      omega
    rw [htxns e' hne]
    exact h.fresh e' (hstop' ▸ he')
  · rw [htried.mbQueues, hdr q] at he'
    exact absurd he' List.not_mem_nil

theorem separated_step (a : Action) (h : Separated c s) (hacc : Accounted c s) (hclock : Clock s)
    (hstep : s.step c a = some s') : Separated c s' := by
  have hbal := hacc.balance
  -- a step inside a batch leaves its end where it is
  have hin : s.phase ≠ .batch → s'.phase ≠ .batch → s'.i = s.i → s'.stop c = s.stop c := by
    intro h₁ h₂ hi
    rw [stop_of_ne_batch h₁, stop_of_ne_batch h₂, hi]
  cases a with
  | sched layout => exact separated_sched h hacc hstep
  | run rc =>
    unfold Clock at hclock
    simp only [perBatch_eq] at hclock
    rcases run_cases hstep with ⟨orig, n, s₁, hphase, hran, rfl⟩ | ⟨q, hphase, hran⟩
    · rw [hphase] at hclock
      have hlast : true = true ↔ s.miniBatchNum % perBatch ≠ 0 := by
        rw [perBatch_eq]
        simp only [true_iff]
        omega
      have h₁ := h.of_ran hbal (Nat.mod_lt _ c.nQueues_pos) hran (fun _ => rfl) hlast
      have hstop : s₁.stop c = s.stop c := by rw [stop, stop, hran.phase, hran.i]
      exact h₁.congr rfl rfl rfl ((hin (by simp [hphase]) (by simp) hran.i).trans hstop.symm)
    · rw [hphase] at hclock
      have hq : q < c.nQueues := by
        rw [Accounted, hphase] at hacc
        exact hacc.2.2.1
      exact h.of_ran hbal hq hran (by simp) (by rw [perBatch_eq, hclock]; simp)
  | next =>
    rcases next_cases hstep with ⟨orig, n, hphase, rfl⟩ | ⟨q, hphase, -, ⟨-, rfl⟩ | ⟨-, rfl⟩⟩
    · refine h.congr rfl rfl rfl (hin (by simp [hphase]) ?_ rfl)
      simp only
      split_ifs <;> simp
    · exact h.congr rfl rfl rfl (hin (by simp [hphase]) (by simp) rfl)
    · exact h.congr rfl rfl rfl (hin (by simp [hphase]) (by simp) rfl)
  | others mb =>
    obtain ⟨-, q, -, rfl⟩ := others_cases hstep
    exact h.congr rfl rfl rfl rfl
  | doneSending =>
    obtain ⟨hphase, rfl⟩ := doneSending_cases hstep
    exact h.congr rfl rfl rfl (hin (by simp [hphase]) (by simp) rfl)
  | execute rc => exact separated_execute h hacc hstep
  | finish =>
    obtain ⟨limit, hphase, -, rfl⟩ := finish_cases hstep
    have hstop : s.stop c = s.i + c.batchTgt := stop_of_ne_batch (by simp [hphase])
    exact h.congr rfl rfl rfl ((if_pos rfl).trans hstop.symm)

theorem separated_of_run {mem : ℕ → Txn} {memQ : ℕ → HotTxnEntry (Option ℕ)} {as : List Action}
    (hrun : Transition.run (step c) (init mem memQ) as = some s) :
    Accounted c s ∧ Separated c s := by
  have h := Transition.run_invariant (I := fun s => Accounted c s ∧ Clock s ∧ Separated c s)
    (fun s a s' hs hstep => ⟨accounted_step a hs.1 hstep, clock_step a hs.2.1 hstep,
      separated_step a hs.2.2 hs.1 hs.2.1 hstep⟩)
    ⟨accounted_init mem memQ, rfl, separated_init mem memQ⟩ hrun
  exact ⟨h.1, h.2.2⟩

/-! ### Two nodes -/

/-- The batch of a worker, scheduled. -/
theorem scheduled_of_schedBatch {layout : DeclusteredLayout} {st : SchedState}
    (hok : s.schedBatch c layout = .ok st) : (∀ q < c.nQueues, s.mbQueues q = []) ∧
      SchedState.Scheduled c.toSchedConf ⟨s.txns, s.mbQueues, layout, 0⟩ (s.window c) st := by
  rcases SchedState.schedBatch_cases (c := c.toSchedConf) ⟨s.txns, s.mbQueues, layout,
    0⟩ s.i c.batchTgt with ⟨f, -, herr, -⟩ | ⟨st', hok', hempty, hsch⟩
  · exact nomatch herr.symm.trans hok
  · obtain rfl := Except.ok.inj (hok'.symm.trans hok)
    exact ⟨hempty, hsch⟩

/-- **The schedule separates nodes.** Take workers on two different nodes, in any states they can
reach. `sched_batch` does not fail for want of a queue and puts every transaction in exactly one;
the two never put transactions with the same hottest cold key in queues of the same number; and
except in the last mini-batch of a batch they do not run transactions with the same hottest cold key
in the same mini-batch. -/
theorem nodes_separated (x y : WorkerConf) (hnodes : x.numNodes = y.numNodes)
    (htable : x.tableSize = y.tableSize) (hne : x.nodeId ≠ y.nodeId) (memX memY : ℕ → Txn)
    (memQX memQY : ℕ → HotTxnEntry (Option ℕ)) (asX asY : List Action) (s t : Worker)
    (hs : Transition.run (step x) (init memX memQX) asX = some s)
    (ht : Transition.run (step y) (init memY memQY) asY = some t) :
    (∀ layout, s.schedBatch x layout ≠ .error .sBest) ∧
      (∀ layout st, s.schedBatch x layout = .ok st → ∀ e, s.i ≤ e → e < s.i + x.batchTgt →
        ∃ q < x.nQueues, ∀ q', (st.mbQueues q').count e = if q' = q then 1 else 0) ∧
      (s.phase = .batch → t.phase = .batch → ∀ layout layout' st st',
        s.schedBatch x layout = .ok st → t.schedBatch y layout' = .ok st' →
          ∀ q, ∀ e ∈ st.mbQueues q,
        ∀ e' ∈ st'.mbQueues q, ∀ k, (st.txns e).hottestColdKey = some k →
          (st'.txns e').hottestColdKey ≠ some k) ∧
      ∀ mb enq e e' k, Event.runTxn mb true e (some k) ∈ s.trace →
        Event.runTxn mb enq e' (some k) ∉ t.trace := by
  obtain ⟨haccS, hsepS⟩ := separated_of_run hs
  obtain ⟨haccT, hsepT⟩ := separated_of_run ht
  -- a queue has one owner
  have hclash : ∀ k q, x.queueOwner k q = some x.nodeId → y.queueOwner k q ≠ some y.nodeId := by
    intro k q hx hy
    rw [SchedConf.queueOwner_congr hnodes htable, hy] at hx
    exact hne (Option.some.inj hx).symm
  refine ⟨fun layout herr => ?_, fun layout st hok e he hlt => ?_, ?_, ?_⟩
  · rcases SchedState.schedBatch_cases (c := x.toSchedConf) ⟨s.txns, s.mbQueues, layout,
      0⟩ s.i x.batchTgt with ⟨f, hf, herr', -⟩ | ⟨st, hok, -⟩
    · exact hf (Except.error.inj (herr'.symm.trans herr))
    · exact nomatch hok.symm.trans herr
  · obtain ⟨hempty, hsch⟩ := scheduled_of_schedBatch hok
    apply exists_count_of_tally
    · rw [hsch.tally, tally_of_empty hempty, count_window, if_pos ⟨he, hlt⟩]
    · exact fun q hq => (hsch.beyond q hq).trans (haccS.balance.beyond q hq)
  · intro hphaseS hphaseT layout layout' st st' hok hok' q e he e' he' k hk hk'
    rw [Accounted, hphaseS] at haccS
    rw [Accounted, hphaseT] at haccT
    exact hclash k q
      (hsepS.owned_of_scheduled hphaseS haccS.2.2.1 (scheduled_of_schedBatch hok).2 he hk)
      (hsepT.owned_of_scheduled hphaseT haccT.2.2.1 (scheduled_of_schedBatch hok').2 he' hk')
  · intro mb enq e e' k hx hy
    have henq : enq = true := (hsepT.last _ _ _ _ hy).mpr ((hsepS.last _ _ _ _ hx).mp rfl)
    subst henq
    have hq : y.nQueues = x.nQueues := SchedConf.nQueues_congr hnodes.symm
    exact hclash k _ (hsepS.ran mb e k hx) (hq ▸ hsepT.ran mb e' k hy)

/-- A worker of a cluster of two nodes, with 20 transactions in a batch and one in a mini-batch. -/
def twentyPerBatch (nodeId : Fin 2) : WorkerConf where
  numNodes := 2
  nodeId := nodeId
  nodeId_lt := nodeId.2
  tableSize := 32
  maxPasses := 1
  numTxnWorkers := 5000
  numTxns := 20

/-- Node 0 runs the first transaction twice in its first two mini-batches. -/
def retriedOnZero : List Action := [.sched eightHot, .run .rollback, .next, .run .commit]

/-- Node 1 runs a transaction in its first mini-batch. -/
def ranOnOne : List Action := [.sched eightHot, .run .commit]

theorem run_retriedOnZero :
    ((Transition.run (step (twentyPerBatch 0)) (init sevenAndOne zeroEntries)
    retriedOnZero).map fun s => decide (Event.runTxn 1 true 0 (some 8) ∈ s.trace)) = some true := by
  decide +kernel

theorem run_ranOnOne : ((Transition.run (step (twentyPerBatch 1)) (init sevenAndOne zeroEntries)
    ranOnOne).map fun t => decide (Event.runTxn 1 true 8 (some 16) ∈ t.trace)) = some true := by
  decide +kernel

/-- Both nodes load the same transactions.  In the first mini-batch, node 0 runs the one whose
hottest cold key is 8, and node 1 does not. -/
theorem nodes_separated_first_mini_batch : ∃ s t,
    Transition.run (step (twentyPerBatch 0)) (init sevenAndOne zeroEntries) retriedOnZero = some s ∧
    Transition.run (step (twentyPerBatch 1)) (init sevenAndOne zeroEntries) ranOnOne = some t ∧
    Event.runTxn 1 true 0 (some 8) ∈ s.trace ∧
    ∀ enq e', Event.runTxn 1 enq e' (some 8) ∉ t.trace := by
  obtain ⟨s, hs, hmem⟩ := Option.map_eq_some_iff.mp run_retriedOnZero
  obtain ⟨t, ht, -⟩ := Option.map_eq_some_iff.mp run_ranOnOne
  have hmem := of_decide_eq_true hmem
  have hsep := nodes_separated (twentyPerBatch 0) (twentyPerBatch 1) rfl rfl (by decide) _
    _ _ _ _ _ s t hs ht
  exact ⟨s, t, hs, ht, hmem, fun enq e' => hsep.2.2.2 1 enq 0 e' 8 hmem⟩

end P4db.Worker
