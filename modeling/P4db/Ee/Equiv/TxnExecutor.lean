import P4db.Algorithm.Transition
import P4db.Ee.Equiv.Database
import P4db.Ee.Equiv.Sched

/-!
# Every transaction of a batch is accounted for

`Ran` says what a call of `run_txn` can do with the transaction it takes from a queue: it goes back
to the queue, it is left over, or it is committed and owns a slot.  From this the invariant
`Accounted` keeps a balance for every position: a position of the current batch is in one queue, or
it is committed, or it was left over; what was left over is still waiting or `execute` has committed
it.

* `exactly_once`: whenever a batch ends, each of its transactions has exactly one of three fates,
  and one in a hundred of those that were left over is abandoned.
-/

namespace P4db.Worker

open Queues

variable {c : WorkerConf} {s s' : Worker} {enq : Bool} {rc : RC} {hi : ℕ}

/-! ### What has happened to a transaction -/

/-- How often `my_execute` has committed a transaction. -/
def commits (tr : List Event) (e : ℕ) : ℕ := tr.count (.myExecute e .commit)

/-- How often a transaction was left over. -/
def entries (tr : List Event) (e : ℕ) : ℕ := tr.count (.leftover e)

/-- How often `execute` has committed a transaction. -/
def executes (tr : List Event) (e : ℕ) : ℕ := tr.count (.execute e .commit)

/-! ### Inversion of `run_txn` -/

/-- What a call of `run_txn` does with the transaction `e` at the head of queue `q`. -/
inductive Took (s : Worker) (enq : Bool) (q e : ℕ) (es : List ℕ) (s' : Worker) : Prop
  | retried (henq : enq = true) (hkey : (s'.txns e).hottestColdKey = (s.txns e).hottestColdKey)
    (hqueues : s'.mbQueues = Function.update s.mbQueues q (es ++ [e]))
    (hleft : s'.leftoverTxns = s.leftoverTxns) (hsend : s'.hotSendQ = s.hotSendQ)
    (htrace : s'.trace = s.trace ++ [.runTxn s.miniBatchNum enq e (s.txns e).hottestColdKey,
      .myExecute e .rollback])
  | left (tried : List Event) (htried : tried = [] ∨ tried = [.myExecute e .rollback])
    (hqueues : s'.mbQueues = Function.update s.mbQueues q es)
    (hleft : s'.leftoverTxns = s.leftoverTxns ++ [e]) (hsend : s'.hotSendQ = s.hotSendQ)
    (htrace : s'.trace = s.trace ++ .runTxn s.miniBatchNum enq e (s.txns e).hottestColdKey ::
      (tried ++ [.leftover e]))
  | committed (hqueues : s'.mbQueues = Function.update s.mbQueues q es)
    (hleft : s'.leftoverTxns = s.leftoverTxns)
    (hsend : s.hotSendQ.allocSlot s.miniBatchNum (some e) = some s'.hotSendQ)
    (htrace : s'.trace = s.trace ++ [.runTxn s.miniBatchNum enq e (s.txns e).hottestColdKey,
      .myExecute e .commit])

theorem Took.queues {q e : ℕ} {es : List ℕ} (h : Took s enq q e es s') :
    ∃ l, s'.mbQueues = Function.update s.mbQueues q l := by
  cases h with
  | retried _ _ hqueues => exact ⟨_, hqueues⟩
  | left _ _ hqueues => exact ⟨_, hqueues⟩
  | committed hqueues => exact ⟨_, hqueues⟩

/-- A call of `run_txn`: what it does to its transaction, and what it leaves alone. -/
structure Ran (s : Worker) (enq : Bool) (q : ℕ) (s' : Worker) : Prop where
  took : ∃ e es, s.mbQueues q = e :: es ∧ Took s enq q e es s' ∧ ∀ e' ≠ e, s'.txns e' = s.txns e'
  phase : s'.phase = s.phase
  miniBatchNum : s'.miniBatchNum = s.miniBatchNum
  i : s'.i = s.i
  sentQ : s'.sentQ = s.sentQ

theorem txns_setTxn (s : Worker) (e : ℕ) (txn : Txn) : (s.setTxn e txn).txns e = txn :=
  Function.update_self ..

/-- What follows a rollback. -/
theorem handleAbort_cases {q e : ℕ} (h : s.handleAbort enq q e = some s') :
    (enq = true ∧ s' = (s.setTxn e { s.txns e with nAborts := (s.txns e).nAborts + 1 }).setQueue q
      (s.mbQueues q ++ [e])) ∨
    ∃ txn, s' = (s.setTxn e txn).pushLeftover e := by
  unfold handleAbort at h
  simp only at h
  split_ifs at h with hretry
  · exact .inl ⟨hretry.1, (Option.some.inj h).symm⟩
  · obtain ⟨txn, htxn, rfl⟩ := Option.map_eq_some_iff.mp h
    exact .inr ⟨txn, rfl⟩

theorem ran_of_runTxn {q : ℕ} (h : s.runTxn c enq q rc = some s') : Ran s enq q s' := by
  unfold runTxn at h
  cases hq : s.mbQueues q with
  | nil => simp [hq] at h
  | cons e es =>
    simp only [hq] at h
    have hself : (s.take c enq q e es).mbQueues q = es := Function.update_self ..
    have hpush : ∀ l, Function.update (s.take c enq q e es).mbQueues q l =
        Function.update s.mbQueues q l := fun l => Function.update_idem _ _ _
    have hother : ∀ e' ≠ e, (s.take c enq q e es).txns e' = s.txns e' := fun e' he' =>
      Function.update_of_ne he' _ _
    have hother' : ∀ txn, ∀ e' ≠ e,
        Function.update (s.take c enq q e es).txns e txn e' = s.txns e' := by
      intro txn e' he'
      rw [Function.update_of_ne he', hother e' he']
    have htaken : (s.take c enq q e es).txns e =
        { s.txns e with id := TxnId.ofFields true c.nodeId s.miniBatchNum } :=
        Function.update_self ..
    split_ifs at h with hassert haccel
    · cases rc with
      | rollback =>
        rcases handleAbort_cases h with ⟨henq, rfl⟩ | ⟨txn, rfl⟩
        · refine ⟨⟨e, es, hq, .retried henq ?_ ?_ rfl rfl ?_, hother' _⟩, rfl, rfl, rfl, rfl⟩
          · have hkey : ((s.take c enq q e es).txns e).hottestColdKey =
                (s.txns e).hottestColdKey := by
              rw [htaken]
              rfl
            show ((setTxn _ e _).txns e).hottestColdKey = _
            rw [txns_setTxn]
            exact hkey
          · show Function.update (s.take c enq q e es).mbQueues q
              ((s.take c enq q e es).mbQueues q ++ [e]) = _
            rw [hself, hpush]
          · exact List.append_assoc ..
        · exact ⟨⟨e, es, hq, .left _ (.inr rfl) rfl rfl rfl
            ((List.append_assoc ..).trans (List.append_assoc ..)), hother' _⟩, rfl, rfl, rfl, rfl⟩
      | commit =>
        obtain ⟨q', halloc, rfl⟩ := Option.map_eq_some_iff.mp h
        exact ⟨⟨e, es, hq, .committed rfl rfl halloc (List.append_assoc ..), hother⟩, rfl, rfl, rfl,
          rfl⟩
    · obtain rfl := Option.some.inj h
      exact ⟨⟨e, es, hq, .left [] (.inl rfl) rfl rfl rfl (List.append_assoc ..), hother⟩,
        rfl, rfl, rfl, rfl⟩

/-! ### Inversion of `run_leftover_txns` -/

/-- An iteration of `run_leftover_txns`. -/
structure Tried (s : Worker) (s' : Worker) : Prop where
  took : ∃ e es, s.leftoverTxns = e :: es ∧ (∀ e' ≠ e, s'.txns e' = s.txns e') ∧
    (s'.leftoverTxns = es ++ [e] ∧ s'.trace = s.trace ++ [.execute e .rollback] ∨
      ∃ sent, (sent = [] ∨ sent = [.atomic e]) ∧ s'.leftoverTxns = es ∧
        s'.trace = s.trace ++ (sent ++ [.execute e .commit]))
  mbQueues : s'.mbQueues = s.mbQueues
  phase : s'.phase = s.phase
  miniBatchNum : s'.miniBatchNum = s.miniBatchNum
  i : s'.i = s.i
  hotSendQ : s'.hotSendQ = s.hotSendQ
  sentQ : s'.sentQ = s.sentQ

theorem tried_of_leftoverStep (h : s.leftoverStep c rc = some s') : Tried s s' := by
  unfold leftoverStep at h
  cases hl : s.leftoverTxns with
  | nil => simp [hl] at h
  | cons e es =>
    simp only [hl] at h
    obtain ⟨-, h⟩ := Option.ite_none_right_eq_some.mp h
    obtain ⟨s₁, hs₁, rfl⟩ := Option.map_eq_some_iff.mp h
    have hother : ∀ txn, ∀ e' ≠ e, (s.setTxn e txn).txns e' = s.txns e' := fun _ e' he' =>
      Function.update_of_ne he' _ _
    cases rc with
    | rollback =>
      obtain rfl := Option.some.inj hs₁
      exact ⟨⟨e, es, hl, hother _, .inl ⟨rfl, rfl⟩⟩, rfl, rfl, rfl, rfl, rfl, rfl⟩
    | commit =>
      simp only [execute] at hs₁
      split_ifs at hs₁ with hall hacc
      · obtain rfl := Option.some.inj hs₁
        exact ⟨⟨e, es, hl, hother _, .inr ⟨[.atomic e], .inr rfl, rfl, List.append_assoc ..⟩⟩, rfl,
          rfl, rfl, rfl, rfl, rfl⟩
      · obtain rfl := Option.some.inj hs₁
        exact ⟨⟨e, es, hl, hother _, .inr ⟨[], .inl rfl, rfl, rfl⟩⟩, rfl, rfl, rfl, rfl, rfl, rfl⟩

/-! ### Inversion of the steps -/

/-- The positions of the current batch. -/
def window (c : WorkerConf) (s : Worker) : List ℕ := List.range' s.i c.batchTgt

/-- `sched_batch` is called between batches. -/
theorem sched_cases {layout : DeclusteredLayout} (hstep : s.sched c layout = some s') :
    s.phase = .batch ∧ ∃ st, s' = { s with
        txns := st.txns, mbQueues := st.mbQueues, phase := .mini s.miniBatchNum 0 } ∧
      SchedState.Scheduled c.toSchedConf ⟨s.txns, s.mbQueues, layout, 0⟩ (s.window c) st := by
  unfold sched at hstep
  obtain ⟨⟨hphase, -⟩, hstep⟩ := Option.ite_none_right_eq_some.mp hstep
  refine ⟨hphase, ?_⟩
  rcases SchedState.schedBatch_cases (c := c.toSchedConf) ⟨s.txns, s.mbQueues, layout,
    0⟩ s.i c.batchTgt with ⟨f, -, herr, -⟩ | ⟨st, hok, -, hsch⟩
  · rw [schedBatch, herr] at hstep
    exact nomatch hstep
  · rw [schedBatch, hok] at hstep
    exact ⟨st, (Option.some.inj hstep).symm, hsch⟩

/-- `run_txn` is called in a mini-batch on the queue that is due, and in the last one on every
queue. -/
theorem run_cases (hstep : s.run c rc = some s') :
    (∃ orig n s₁, s.phase = .mini orig n ∧ Ran s true (s.dueQueue c) s₁ ∧
      s' = { s₁ with phase := .mini orig (n + 1) }) ∨
    ∃ q, s.phase = .drain q ∧ Ran s false q s' := by
  unfold run at hstep
  split at hstep
  · next orig n hphase =>
    obtain ⟨-, hstep⟩ := Option.ite_none_right_eq_some.mp hstep
    obtain ⟨s₁, hs₁, rfl⟩ := Option.map_eq_some_iff.mp hstep
    exact .inl ⟨orig, n, s₁, hphase, ran_of_runTxn hs₁, rfl⟩
  · next q hphase => exact .inr ⟨q, hphase, ran_of_runTxn hstep⟩
  · exact nomatch hstep

/-- A mini-batch ends, or a queue is empty. -/
theorem next_cases (hstep : s.next c = some s') :
    (∃ orig n, s.phase = .mini orig n ∧ s' = { s with
      miniBatchNum := s.miniBatchNum + 1
      phase := if s.miniBatchNum + 1 - orig < batchSizeTgt / miniBatchSizeTgt then .mini orig 0
        else .drain 0 }) ∨
    ∃ q, s.phase = .drain q ∧ s.mbQueues q = [] ∧
      (q + 1 < c.nQueues ∧ s' = { s with phase := .drain (q + 1) } ∨
        c.nQueues ≤ q + 1 ∧ s' = { s with miniBatchNum := s.miniBatchNum + 1, phase := .hot }) := by
  unfold next at hstep
  split at hstep
  · next orig n hphase =>
    obtain ⟨-, hstep⟩ := Option.ite_none_left_eq_some.mp hstep
    exact .inl ⟨orig, n, hphase, (Option.some.inj hstep).symm⟩
  · next q hphase =>
    obtain ⟨hempty, hstep⟩ := Option.ite_none_left_eq_some.mp hstep
    refine .inr ⟨q, hphase, not_not.mp hempty, ?_⟩
    split_ifs at hstep with hlast
    · exact .inl ⟨hlast, (Option.some.inj hstep).symm⟩
    · exact .inr ⟨Nat.le_of_not_lt hlast, (Option.some.inj hstep).symm⟩
  · exact nomatch hstep

theorem others_cases {mb : ℕ} (hstep : s.others mb = some s') :
    (∀ limit, s.phase ≠ .leftover limit) ∧
    ∃ q, s.hotSendQ.allocSlot mb none = some q ∧ s' = { s with hotSendQ := q } := by
  unfold others at hstep
  split at hstep
  · exact nomatch hstep
  · next hne =>
    obtain ⟨q, halloc, rfl⟩ := Option.map_eq_some_iff.mp hstep
    exact ⟨hne, q, halloc, rfl⟩

theorem doneSending_cases (hstep : s.doneSending = some s') : s.phase = .hot ∧ s' = { s with
    hotSendQ := s.hotSendQ.doneSending
    sentQ := s.hotSendQ
    phase := .leftover (s.leftoverTxns.length / 100) } := by
  unfold doneSending at hstep
  split at hstep
  · next hphase => exact ⟨hphase, (Option.some.inj hstep).symm⟩
  · exact nomatch hstep

/-- `execute` is called while there are more leftover transactions than the limit. -/
theorem runLeftover_cases (hstep : s.runLeftover c rc = some s') :
    ∃ limit, s.phase = .leftover limit ∧ limit < s.leftoverTxns.length ∧ Tried s s' := by
  unfold runLeftover at hstep
  split at hstep
  · next limit hphase =>
    obtain ⟨hgt, hstep⟩ := Option.ite_none_right_eq_some.mp hstep
    exact ⟨limit, hphase, hgt, tried_of_leftoverStep hstep⟩
  · exact nomatch hstep

/-- A batch ends when there are no more leftover transactions than the limit. -/
theorem finish_cases (hstep : s.finish c = some s') : ∃ limit, s.phase = .leftover limit ∧
    s.leftoverTxns.length ≤ limit ∧
    s' = { s with leftoverTxns := [], i := s.i + c.batchTgt, phase := .batch } := by
  unfold finish at hstep
  split at hstep
  · next limit hphase =>
    obtain ⟨⟨hle, -⟩, hstep⟩ := Option.ite_none_right_eq_some.mp hstep
    exact ⟨limit, hphase, Nat.le_of_not_gt hle, (Option.some.inj hstep).symm⟩
  · exact nomatch hstep

/-! ### The balance -/

/-- The account of every position, when the batch reaches up to `hi`.  Nothing of an earlier batch
is on its way; a position of this batch is in one queue, or committed, or was left over; a
transaction that was left over is waiting or `execute` has committed it. -/
structure Balance (c : WorkerConf) (hi : ℕ) (s : Worker) : Prop where
  past : ∀ e < s.i, tally c.nQueues s.mbQueues e = 0 ∧ s.leftoverTxns.count e = 0
  once : ∀ e ≥ s.i, tally c.nQueues s.mbQueues e + commits s.trace e + entries s.trace e =
    if e < hi then 1 else 0
  left : ∀ e ≥ s.i, s.leftoverTxns.count e + executes s.trace e = entries s.trace e
  beyond : ∀ q ≥ c.nQueues, s.mbQueues q = []

/-- Before the hot period: the slots are those of the commits, and `execute` has not been called. -/
structure Running (s : Worker) : Prop where
  slots : ∀ e ≥ s.i, s.hotSendQ.slotsOf (some e) = commits s.trace e
  unexecuted : ∀ e ≥ s.i, executes s.trace e = 0

theorem Balance.congr (h : Balance c hi s) (hqueues : s'.mbQueues = s.mbQueues)
    (hleft : s'.leftoverTxns = s.leftoverTxns) (htrace : s'.trace = s.trace) (hsame : s'.i = s.i) :
    Balance c hi s' where
  past := by simpa only [hqueues, hleft, hsame] using h.past
  once := by simpa only [hqueues, htrace, hsame] using h.once
  left := by simpa only [hleft, htrace, hsame] using h.left
  beyond := by simpa only [hqueues] using h.beyond

theorem Running.congr (h : Running s) (hsend : s'.hotSendQ = s.hotSendQ)
    (htrace : s'.trace = s.trace) (hsame : s'.i = s.i) : Running s' where
  slots := by simpa only [hsend, htrace, hsame] using h.slots
  unexecuted := by simpa only [htrace, hsame] using h.unexecuted

/-- The balance is kept by a step that moves transactions of the current batch from one side to
another. -/
theorem Balance.of_move (h : Balance c hi s) (hsame : s'.i = s.i)
    (hbeyond : ∀ q ≥ c.nQueues, s'.mbQueues q = [])
    (hpast : ∀ e < s.i, tally c.nQueues s'.mbQueues e = tally c.nQueues s.mbQueues e ∧
      s'.leftoverTxns.count e = s.leftoverTxns.count e)
    (honce : ∀ e, tally c.nQueues s'.mbQueues e + commits s'.trace e + entries s'.trace e =
      tally c.nQueues s.mbQueues e + commits s.trace e + entries s.trace e)
    (hleft : ∀ e, s'.leftoverTxns.count e + executes s'.trace e + entries s.trace e =
      s.leftoverTxns.count e + executes s.trace e + entries s'.trace e) : Balance c hi s' := by
  refine ⟨fun e he => ?_, fun e he => ?_, fun e he => ?_, hbeyond⟩
  · rw [hsame] at he
    rw [(hpast e he).1, (hpast e he).2]
    exact h.past e he
  · rw [honce]
    exact h.once e (hsame ▸ he)
  · have h₁ := h.left e (hsame ▸ he)
    have h₂ := hleft e
    omega

/-- A transaction in a queue belongs to the current batch. -/
theorem Balance.le_of_mem {q e : ℕ} (h : Balance c hi s) (hq : q < c.nQueues)
    (he : e ∈ s.mbQueues q) : s.i ≤ e := by
  by_contra hlt
  exact not_mem_of_tally (h.past e (by omega)).1 hq he

theorem count_singleton_of_lt {e e' n : ℕ} (h : n ≤ e) (h' : e' < n) : [e].count e' = 0 := by
  rw [List.count_singleton, if_neg]
  simp
  omega

theorem Balance.ran {q : ℕ} (h : Balance c hi s) (hq : q < c.nQueues) (hran : Ran s enq q s') :
    Balance c hi s' := by
  obtain ⟨e, es, hhead, htook, -⟩ := hran.took
  have hnew := h.le_of_mem hq (hhead ▸ List.mem_cons_self)
  have hpop := tally_pop hq hhead
  have hbeyond : ∀ l, ∀ q' ≥ c.nQueues, Function.update s.mbQueues q l q' = [] := by
    intro l q' hq'
    rw [Function.update_of_ne (by omega)]
    exact h.beyond q' hq'
  cases htook with
  | retried _ _ hqueues hleft _ htrace =>
    have htally : ∀ e', tally c.nQueues s'.mbQueues e' = tally c.nQueues s.mbQueues e' := by
      intro e'
      have := tally_update hq s.mbQueues (es ++ [e]) e'
      rw [hhead, ← hqueues, List.count_append, ← List.singleton_append, List.count_append] at this
      omega
    apply h.of_move hran.i (hqueues ▸ hbeyond _)
    · exact fun e' _ => ⟨htally e', by rw [hleft]⟩
    · intro e'
      rw [htally, htrace]
      simp [commits, entries]
    · intro e'
      rw [hleft, htrace]
      simp [executes, entries]
  | left tried htried hqueues hleft _ htrace =>
    rw [← hqueues] at hpop
    have hcounts : ∀ e', commits s'.trace e' = commits s.trace e' ∧
        entries s'.trace e' = entries s.trace e' + [e].count e' ∧
        executes s'.trace e' = executes s.trace e' := by
      intro e'
      rw [htrace]
      rcases htried with rfl | rfl <;> simp [commits, entries, executes, List.count_cons]
    apply h.of_move hran.i (hqueues ▸ hbeyond _)
    · intro e' he'
      have := hpop e'
      have := count_singleton_of_lt hnew he'
      rw [hleft, List.count_append]
      omega
    · intro e'
      have := hpop e'
      obtain ⟨h₁, h₂, -⟩ := hcounts e'
      omega
    · intro e'
      obtain ⟨-, h₂, h₃⟩ := hcounts e'
      rw [hleft, List.count_append]
      omega
  | committed hqueues hleft _ htrace =>
    rw [← hqueues] at hpop
    have hcounts : ∀ e', commits s'.trace e' = commits s.trace e' + [e].count e' ∧
        entries s'.trace e' = entries s.trace e' ∧ executes s'.trace e' = executes s.trace e' := by
      intro e'
      rw [htrace]
      simp [commits, entries, executes, List.count_cons]
    apply h.of_move hran.i (hqueues ▸ hbeyond _)
    · intro e' he'
      have := hpop e'
      rw [count_singleton_of_lt hnew he'] at this
      rw [hleft]
      omega
    · intro e'
      have := hpop e'
      obtain ⟨h₁, h₂, -⟩ := hcounts e'
      omega
    · intro e'
      obtain ⟨-, h₂, h₃⟩ := hcounts e'
      rw [hleft]
      omega

theorem Running.ran {q : ℕ} (h : Running s) (hran : Ran s enq q s') : Running s' := by
  obtain ⟨e, es, -, htook, -⟩ := hran.took
  constructor
  · intro e' he'
    rw [hran.i] at he'
    cases htook with
    | retried _ _ _ _ hsend htrace =>
      rw [hsend, htrace, h.slots e' he']
      simp [commits]
    | left tried htried _ _ hsend htrace =>
      rw [hsend, htrace, h.slots e' he']
      rcases htried with rfl | rfl <;> simp [commits]
    | committed _ _ hsend htrace =>
      rw [HotSendQ.slotsOf_allocSlot hsend, htrace, h.slots e' he']
      simp [commits, List.count_cons]
  · intro e' he'
    rw [hran.i] at he'
    rw [← h.unexecuted e' he']
    cases htook with
    | retried _ _ _ _ _ htrace => simp [htrace, executes]
    | left tried htried _ _ _ htrace => rcases htried with rfl | rfl <;> simp [htrace, executes]
    | committed _ _ _ htrace => simp [htrace, executes]

theorem Balance.tried (h : Balance c hi s) (htried : Tried s s') : Balance c hi s' := by
  obtain ⟨e, es, hhead, -, hcase⟩ := htried.took
  -- a leftover transaction belongs to the current batch
  have hnew : s.i ≤ e := by
    by_contra hlt
    have hzero := (h.past e (by omega)).2
    rw [hhead] at hzero
    simp at hzero
  have hcons : ∀ e', s.leftoverTxns.count e' = [e].count e' + es.count e' := by
    intro e'
    rw [hhead, ← List.singleton_append, List.count_append]
  have htally : ∀ e', tally c.nQueues s'.mbQueues e' = tally c.nQueues s.mbQueues e' := fun e' => by
    rw [htried.mbQueues]
  rcases hcase with ⟨hleft, htrace⟩ | ⟨sent, hsent, hleft, htrace⟩
  · apply h.of_move htried.i (htried.mbQueues ▸ h.beyond)
    · intro e' _
      rw [htally, hleft, List.count_append, hcons, Nat.add_comm]
      exact ⟨rfl, rfl⟩
    · intro e'
      rw [htally, htrace]
      simp [commits, entries]
    · intro e'
      rw [htrace, hleft, List.count_append, hcons]
      simp [executes, entries]
      omega
  · apply h.of_move htried.i (htried.mbQueues ▸ h.beyond)
    · intro e' he'
      rw [htally, hleft, hcons, count_singleton_of_lt hnew he', Nat.zero_add]
      exact ⟨rfl, rfl⟩
    · intro e'
      rw [htally, htrace]
      rcases hsent with rfl | rfl <;> simp [commits, entries]
    · intro e'
      rw [htrace, hleft, hcons]
      rcases hsent with rfl | rfl <;> simp [executes, entries, List.count_cons] <;> omega

/-! ### The phases of a batch -/

/-- All queues are empty. -/
def Drained (s : Worker) : Prop := ∀ q, s.mbQueues q = []

/-- The number of transactions of the current batch that were left over. -/
def nLeft (c : WorkerConf) (s : Worker) : ℕ :=
  (s.window c).countP fun e => Event.leftover e ∈ s.trace

/-- The invariant of a worker, phase by phase. -/
def Accounted (c : WorkerConf) (s : Worker) : Prop :=
  match s.phase with
  | .batch => Balance c s.i s ∧ Running s ∧ Drained s ∧ s.leftoverTxns = []
  | .mini _ _ => Balance c (s.i + c.batchTgt) s ∧ Running s
  | .drain q => Balance c (s.i + c.batchTgt) s ∧ Running s ∧ q < c.nQueues ∧
    ∀ q' < q, s.mbQueues q' = []
  | .hot => Balance c (s.i + c.batchTgt) s ∧ Running s ∧ Drained s
  | .leftover limit => Balance c (s.i + c.batchTgt) s ∧ Drained s ∧ s.hotSendQ.sendQTail = 0 ∧
    (∀ e ≥ s.i, s.sentQ.slotsOf (some e) = commits s.trace e) ∧
    limit ≤ s.leftoverTxns.length ∧ limit = s.nLeft c / 100

theorem accounted_init (mem : ℕ → Txn) (memQ : ℕ → HotTxnEntry (Option ℕ)) :
    Accounted c (init mem memQ) := by
  refine ⟨⟨nofun, fun e _ => ?_, fun _ _ => rfl, fun _ _ => rfl⟩, ⟨fun e _ => ?_, fun _ _ => rfl⟩,
    fun _ => rfl, rfl⟩
  · show tally _ _ e + 0 + 0 = if e < 0 then 1 else 0
    rw [if_neg (Nat.not_lt_zero e)]
    exact tally_of_empty (fun _ _ => rfl) e
  · exact HotSendQ.slotsOf_of_tail rfl _

theorem mem_window {e : ℕ} : e ∈ s.window c ↔ s.i ≤ e ∧ e < s.i + c.batchTgt := by
  rw [window, List.mem_range'_1]

theorem count_window (e : ℕ) :
    (s.window c).count e = if s.i ≤ e ∧ e < s.i + c.batchTgt then 1 else 0 := by
  rw [window, List.Nodup.count List.nodup_range']
  simp only [List.mem_range'_1]

theorem accounted_sched {layout : DeclusteredLayout} (h : Accounted c s)
    (hstep : s.sched c layout = some s') : Accounted c s' := by
  obtain ⟨hphase, st, rfl, hsch⟩ := sched_cases hstep
  rw [Accounted, hphase] at h
  obtain ⟨hbal, hrun, hdr, -⟩ := h
  have htally : ∀ e, tally c.nQueues st.mbQueues e = (s.window c).count e := by
    intro e
    rw [hsch.tally, tally_of_empty fun q _ => hdr q, Nat.zero_add]
  refine ⟨⟨fun e (he : e < s.i) => ⟨?_, (hbal.past e he).2⟩, fun e (he : s.i ≤ e) => ?_, hbal.left,
    fun q hq => (hsch.beyond q hq).trans (hdr q)⟩, hrun.slots, hrun.unexecuted⟩
  · rw [htally, count_window, if_neg (by omega)]
  · have hnone := hbal.once e he
    rw [if_neg (by omega)] at hnone
    show tally c.nQueues st.mbQueues e + commits s.trace e + entries s.trace e =
      if e < s.i + c.batchTgt then 1 else 0
    rw [htally, count_window]
    split_ifs <;> omega

theorem accounted_run (h : Accounted c s) (hstep : s.run c rc = some s') : Accounted c s' := by
  rcases run_cases hstep with ⟨orig, n, s₁, hphase, hran, rfl⟩ | ⟨q, hphase, hran⟩
  · rw [Accounted, hphase] at h
    have hbal := h.1.ran (Nat.mod_lt _ c.nQueues_pos) hran
    rw [← hran.i] at hbal
    exact ⟨hbal.congr rfl rfl rfl rfl, (h.2.ran hran).congr rfl rfl rfl⟩
  · rw [Accounted, hphase] at h
    obtain ⟨hbal, hrun, hq, hempty⟩ := h
    rw [Accounted, hran.phase, hphase, hran.i]
    refine ⟨hbal.ran hq hran, hrun.ran hran, hq, fun q' hq' => ?_⟩
    obtain ⟨e, es, -, htook, -⟩ := hran.took
    obtain ⟨l, hl⟩ := htook.queues
    rw [hl, Function.update_of_ne (Nat.ne_of_lt hq'), hempty q' hq']

theorem accounted_next (h : Accounted c s) (hstep : s.next c = some s') : Accounted c s' := by
  rcases next_cases hstep with ⟨orig, n, hphase, rfl⟩ | ⟨q, hphase, hq, hcase⟩
  · rw [Accounted, hphase] at h
    unfold Accounted
    simp only
    split_ifs
    · exact ⟨h.1.congr rfl rfl rfl rfl, h.2.congr rfl rfl rfl⟩
    · exact ⟨h.1.congr rfl rfl rfl rfl, h.2.congr rfl rfl rfl, c.nQueues_pos, nofun⟩
  · rw [Accounted, hphase] at h
    obtain ⟨hbal, hrun, -, hempty⟩ := h
    have hempty' : ∀ q' ≤ q, s.mbQueues q' = [] := by
      intro q' hq'
      rcases Nat.lt_or_eq_of_le hq' with hlt | rfl
      · exact hempty q' hlt
      · exact hq
    rcases hcase with ⟨hlast, rfl⟩ | ⟨hlast, rfl⟩
    · exact ⟨hbal.congr rfl rfl rfl rfl, hrun.congr rfl rfl rfl, hlast, fun q' hq' =>
        hempty' q' (Nat.le_of_lt_succ hq')⟩
    · refine ⟨hbal.congr rfl rfl rfl rfl, hrun.congr rfl rfl rfl, fun q' => ?_⟩
      rcases Nat.lt_or_ge q q' with hgt | hle
      · exact hbal.beyond q' (by omega)
      · exact hempty' q' hle

theorem Running.others {mb : ℕ} (h : Running s)
    (halloc : s.hotSendQ.allocSlot mb none = some s'.hotSendQ) (htrace : s'.trace = s.trace)
    (hsame : s'.i = s.i) : Running s' := by
  constructor
  · intro e he
    rw [HotSendQ.slotsOf_allocSlot halloc, htrace, h.slots e (hsame ▸ he)]
    rfl
  · simpa only [htrace, hsame] using h.unexecuted

theorem accounted_others {mb : ℕ} (h : Accounted c s) (hstep : s.others mb = some s') :
    Accounted c s' := by
  obtain ⟨hne, q, halloc, rfl⟩ := others_cases hstep
  unfold Accounted at *
  cases hphase : s.phase with
  | leftover limit => exact absurd hphase (hne limit)
  | batch =>
    simp only [hphase] at h ⊢
    exact ⟨h.1.congr rfl rfl rfl rfl, h.2.1.others halloc rfl rfl, h.2.2⟩
  | mini orig n =>
    simp only [hphase] at h ⊢
    exact ⟨h.1.congr rfl rfl rfl rfl, h.2.others halloc rfl rfl⟩
  | drain qn =>
    simp only [hphase] at h ⊢
    exact ⟨h.1.congr rfl rfl rfl rfl, h.2.1.others halloc rfl rfl, h.2.2⟩
  | hot =>
    simp only [hphase] at h ⊢
    exact ⟨h.1.congr rfl rfl rfl rfl, h.2.1.others halloc rfl rfl, h.2.2⟩

/-- A list that holds exactly the entries of `w` that meet `p`. -/
theorem length_eq_countP {l w : List ℕ} {p : ℕ → Bool}
    (h : ∀ e, l.count e = if p e then w.count e else 0) : l.length = w.countP p := by
  rw [List.countP_eq_length_filter]
  apply List.Perm.length_eq
  rw [List.perm_iff_count]
  intro e
  rw [h]
  split_ifs with hp
  · exact (List.count_filter hp).symm
  · exact (List.count_eq_zero.mpr fun hmem => hp (List.mem_filter.mp hmem).2).symm

/-- Once the queues are empty, a transaction of the batch is committed or was left over. -/
theorem Balance.of_drained {e : ℕ} (h : Balance c hi s) (hdr : Drained s) (he : s.i ≤ e) :
    commits s.trace e + entries s.trace e = if e < hi then 1 else 0 := by
  have := h.once e he
  rwa [tally_of_empty fun q _ => hdr q, Nat.zero_add] at this

theorem Balance.count_leftover_of_lt {e : ℕ} (h : Balance c hi s) (he : e < s.i) :
    s.leftoverTxns.count e = (s.window c).count e := by
  rw [(h.past e he).2, count_window, if_neg (by omega)]

/-- At the end of the hot period the transactions that were left over are all waiting. -/
theorem length_leftoverTxns (h : Balance c (s.i + c.batchTgt) s) (hdr : Drained s)
    (hunex : ∀ e ≥ s.i, executes s.trace e = 0) : s.leftoverTxns.length = s.nLeft c := by
  apply length_eq_countP
  intro e
  rcases Nat.lt_or_ge e s.i with hlt | hge
  · rw [h.count_leftover_of_lt hlt, count_window, if_neg (by omega), ite_self]
  · have hleft := h.left e hge
    rw [hunex e hge, Nat.add_zero] at hleft
    have hone := h.of_drained hdr hge
    rw [hleft, count_window]
    by_cases hmem : Event.leftover e ∈ s.trace
    · have hpos : 0 < entries s.trace e := List.count_pos_iff.mpr hmem
      simp only [hmem, decide_true, if_true]
      split_ifs at hone ⊢ <;> omega
    · simp only [hmem, decide_false, Bool.false_eq_true, if_false]
      exact List.count_eq_zero.mpr hmem

theorem accounted_doneSending (h : Accounted c s) (hstep : s.doneSending = some s') :
    Accounted c s' := by
  obtain ⟨hphase, rfl⟩ := doneSending_cases hstep
  rw [Accounted, hphase] at h
  obtain ⟨hbal, hrun, hdr⟩ := h
  refine ⟨hbal.congr rfl rfl rfl rfl, hdr, rfl, hrun.slots, Nat.div_le_self _ _, ?_⟩
  rw [length_leftoverTxns hbal hdr hrun.unexecuted]
  rfl

/-- `execute` commits nothing in the hot send queue and leaves nothing over. -/
theorem Tried.trace_counts (h : Tried s s') :
    (∀ e, commits s'.trace e = commits s.trace e) ∧
      ∀ e, Event.leftover e ∈ s'.trace ↔ Event.leftover e ∈ s.trace := by
  obtain ⟨e, es, -, -, ⟨-, htrace⟩ | ⟨sent, hsent, -, htrace⟩⟩ := h.took
  · simp [htrace, commits]
  · rcases hsent with rfl | rfl <;> simp [htrace, commits]

theorem accounted_execute (h : Accounted c s) (hstep : s.runLeftover c rc = some s') :
    Accounted c s' := by
  obtain ⟨limit, hphase, hgt, htried⟩ := runLeftover_cases hstep
  obtain ⟨hcommits, hmem⟩ := htried.trace_counts
  rw [Accounted, hphase] at h
  obtain ⟨hbal, hdr, htail, hslots, -, hlimit⟩ := h
  rw [Accounted, htried.phase, hphase, htried.i]
  refine ⟨hbal.tried htried, fun q => ?_, ?_, fun e he => ?_, ?_, ?_⟩
  · rw [htried.mbQueues, hdr q]
  · rw [htried.hotSendQ, htail]
  · rw [htried.sentQ, hcommits, hslots e he]
  · -- one transaction less at most, and there was one more than the limit
    obtain ⟨e, es, hhead, -, ⟨hleft, -⟩ | ⟨-, -, hleft, -⟩⟩ := htried.took
    · rw [hhead, List.length_cons] at hgt
      rw [hleft, List.length_append, List.length_singleton]
      omega
    · rw [hhead, List.length_cons] at hgt
      rw [hleft]
      omega
  · rw [hlimit, nLeft, nLeft, window, window, htried.i]
    simp only [hmem]

theorem accounted_finish (h : Accounted c s) (hstep : s.finish c = some s') : Accounted c s' := by
  obtain ⟨limit, hphase, -, rfl⟩ := finish_cases hstep
  rw [Accounted, hphase] at h
  obtain ⟨hbal, hdr, htail, -, -, -⟩ := h
  have hnone : ∀ e ≥ s.i + c.batchTgt, commits s.trace e + entries s.trace e = 0 := by
    intro e he
    rw [hbal.of_drained hdr (by omega), if_neg (by omega)]
  have hunex : ∀ e ≥ s.i + c.batchTgt, executes s.trace e = 0 := by
    intro e he
    have h₁ := hbal.left e (by omega)
    have h₂ := hnone e he
    omega
  have htally : ∀ e, tally c.nQueues s.mbQueues e = 0 := tally_of_empty fun q _ => hdr q
  refine ⟨⟨fun e _ => ⟨htally e, rfl⟩, fun e (he : s.i + c.batchTgt ≤ e) => ?_,
    fun e (he : s.i + c.batchTgt ≤ e) => ?_, hbal.beyond⟩,
    ⟨fun e (he : s.i + c.batchTgt ≤ e) => ?_, hunex⟩, hdr, rfl⟩
  · show tally c.nQueues s.mbQueues e + commits s.trace e + entries s.trace e =
      if e < s.i + c.batchTgt then 1 else 0
    have := hnone e he
    rw [htally, if_neg (by omega)]
    omega
  · show 0 + executes s.trace e = entries s.trace e
    have h₁ := hunex e he
    have h₂ := hnone e he
    omega
  · show s.hotSendQ.slotsOf (some e) = commits s.trace e
    have := hnone e he
    rw [HotSendQ.slotsOf_of_tail htail]
    omega

/-- **The account is kept** by every step. -/
theorem accounted_step (a : Action) (h : Accounted c s) (hstep : s.step c a = some s') :
    Accounted c s' := by
  cases a with
  | sched layout => exact accounted_sched h hstep
  | run rc => exact accounted_run h hstep
  | next => exact accounted_next h hstep
  | others mb => exact accounted_others h hstep
  | doneSending => exact accounted_doneSending h hstep
  | execute rc => exact accounted_execute h hstep
  | finish => exact accounted_finish h hstep

theorem accounted_of_run {mem : ℕ → Txn} {memQ : ℕ → HotTxnEntry (Option ℕ)} {as : List Action}
    (hrun : Transition.run (step c) (init mem memQ) as = some s) : Accounted c s :=
  Transition.run_invariant (fun _ a _ hs hstep => accounted_step a hs hstep)
    (accounted_init mem memQ) hrun

/-! ### The fates -/

/-- What becomes of a transaction: `my_execute` commits it, `execute` commits it, or it is
dropped. -/
inductive Fate
  | accelerated
  | fellBack
  | abandoned
  deriving DecidableEq, Repr

/-- The fate of a transaction, read off what has happened and the slots of its hot period. -/
def Fate.Holds (s : Worker) (e : ℕ) : Fate → Prop
  | .accelerated => s.trace.count (.myExecute e .commit) = 1 ∧
    s.trace.count (.execute e .commit) = 0 ∧ s.sentQ.slotsOf (some e) = 1
  | .fellBack => s.trace.count (.myExecute e .commit) = 0 ∧
    s.trace.count (.execute e .commit) = 1 ∧ s.sentQ.slotsOf (some e) = 0
  | .abandoned => s.trace.count (.myExecute e .commit) = 0 ∧
    s.trace.count (.execute e .commit) = 0 ∧ s.sentQ.slotsOf (some e) = 0

instance (s : Worker) (e : ℕ) (f : Fate) : Decidable (f.Holds s e) := by
  cases f <;> exact inferInstanceAs (Decidable (_ ∧ _ ∧ _))

/-- The balance of a transaction at the end of its batch leaves one fate. -/
theorem existsUnique_fate {s : Worker} {e : ℕ} (hone : commits s.trace e + entries s.trace e = 1)
    (hleft : executes s.trace e ≤ entries s.trace e)
    (hslots : s.sentQ.slotsOf (some e) = commits s.trace e) : ∃! f : Fate, f.Holds s e := by
  unfold commits executes at *
  by_cases hc : s.trace.count (.myExecute e .commit) = 1
  · refine ⟨.accelerated, ⟨hc, by omega, by omega⟩, ?_⟩
    rintro (_ | _ | _) ⟨h, -, -⟩
    · rfl
    · omega
    · omega
  by_cases hx : s.trace.count (.execute e .commit) = 1
  · refine ⟨.fellBack, ⟨by omega, hx, by omega⟩, ?_⟩
    rintro (_ | _ | _) ⟨-, h, -⟩
    · omega
    · rfl
    · omega
  · refine ⟨.abandoned, ⟨by omega, by omega, by omega⟩, ?_⟩
    rintro (_ | _ | _) ⟨h, h', -⟩
    · omega
    · omega
    · rfl

/-- Those that are still waiting are those without a commit. -/
theorem length_eq_abandoned (h : Balance c (s.i + c.batchTgt) s) (hdr : Drained s)
    (hslots : ∀ e ≥ s.i, s.sentQ.slotsOf (some e) = commits s.trace e) :
    s.leftoverTxns.length = (s.window c).countP fun e => Fate.abandoned.Holds s e := by
  apply length_eq_countP
  intro e
  rcases Nat.lt_or_ge e s.i with hlt | hge
  · rw [h.count_leftover_of_lt hlt, count_window, if_neg (by omega), ite_self]
  · have hone := h.of_drained hdr hge
    have hleft := h.left e hge
    have hslot := hslots e hge
    rw [count_window]
    unfold commits executes at *
    by_cases hab : Fate.abandoned.Holds s e
    · rw [if_pos (decide_eq_true hab)]
      obtain ⟨h₁, h₂, -⟩ := hab
      split_ifs at hone ⊢ <;> omega
    · rw [if_neg (by simpa using hab)]
      by_contra hne
      have hpos : entries s.trace e = 1 := by split_ifs at hone <;> omega
      split_ifs at hone
      · exact hab ⟨by omega, by omega, by omega⟩
      · omega

/-- **Exactly once.** Whenever a batch ends, every transaction of it has exactly one fate, the
number of those abandoned is a hundredth of those that were left over, rounded down, each of which
was left over once, and the queues are empty, so that the first assertion of the next `sched_batch`
holds. -/
theorem exactly_once (c : WorkerConf) (mem : ℕ → Txn) (memQ : ℕ → HotTxnEntry (Option ℕ))
    (as : List Action) (s s' : Worker) (hrun : Transition.run (step c) (init mem memQ) as = some s)
    (hfinish : s.finish c = some s') :
    (∀ e, s.i ≤ e → e < s'.i → ∃! f : Fate, f.Holds s' e) ∧
      (List.range' s.i c.batchTgt).countP (fun e => Fate.abandoned.Holds s' e) =
        (List.range' s.i c.batchTgt).countP (fun e => Event.leftover e ∈ s'.trace) / 100 ∧
      (∀ e, s.i ≤ e → e < s'.i → s'.trace.count (.leftover e) ≤ 1) ∧
      (∀ q, s'.mbQueues q = []) ∧ s'.leftoverTxns = [] ∧
      ∀ layout, s'.schedBatch c layout ≠ .error .queueEmpty := by
  have h := accounted_of_run hrun
  obtain ⟨limit, hphase, hle, rfl⟩ := finish_cases hfinish
  rw [Accounted, hphase] at h
  obtain ⟨hbal, hdr, -, hslots, hge, hlimit⟩ := h
  have hone : ∀ e, s.i ≤ e → e < s.i + c.batchTgt →
      commits s.trace e + entries s.trace e = 1 := fun e he hlt =>
    (hbal.of_drained hdr he).trans (if_pos hlt)
  refine ⟨?_, ?_, ?_, hdr, rfl, ?_⟩
  · intro e he hlt
    have hleft : executes s.trace e ≤ entries s.trace e := by
      have := hbal.left e he
      omega
    exact existsUnique_fate (hone e he hlt) hleft (hslots e he)
  · have hlen : s.leftoverTxns.length = limit := Nat.le_antisymm hle hge
    exact (length_eq_abandoned hbal hdr hslots).symm.trans (hlen.trans hlimit)
  · intro e he hlt
    show entries s.trace e ≤ 1
    have := hone e he hlt
    omega
  · intro layout herr
    rcases SchedState.schedBatch_cases (c := c.toSchedConf) ⟨s.txns, s.mbQueues, layout, 0⟩
      (s.i + c.batchTgt) c.batchTgt with ⟨f, -, herr', hne⟩ | ⟨st, hok, -⟩
    · have hf : f = .queueEmpty := Except.error.inj (herr'.symm.trans herr)
      exact hne hf fun q _ => hdr q
    · exact nomatch hok.symm.trans herr

/-- One of so many workers that a batch has two transactions and a mini-batch none. -/
def twoPerBatch : WorkerConf where
  numNodes := 2
  nodeId := 0
  nodeId_lt := by decide
  tableSize := 32
  maxPasses := 1
  numTxnWorkers := 50000
  numTxns := 2

/-- Transactions that write the keys 0 to 6 and one more key each. -/
def sevenAndOne (e : ℕ) : Txn :=
  { (default : Txn) with coldOps := fun j => ⟨if j < 7 then j else 8 + e, default, .write, 0⟩ }

/-- A layout under which the keys below 8 are hot. -/
def eightHot : DeclusteredLayout where
  blockNum := 0
  virtMap k := some ⟨k, if k < 8 then 0 else slotsPerSchedBlock, k, noLock⟩
  revByReg _ _ := none
  idFreq := []

/-- A hot send queue full of zeros. -/
def zeroEntries (_ : ℕ) : HotTxnEntry (Option ℕ) := ⟨none, 0, 0, 0⟩

/-- The first transaction is committed by `my_execute`; the second is rolled back, and `execute` has
to try it twice. -/
def commitAndFallBack : List Action :=
  .sched eightHot :: List.replicate 20 .next ++ [.run .commit, .next, .next, .run .rollback] ++
    List.replicate 8 .next ++ [.others 21, .doneSending, .execute .rollback, .execute .commit]

theorem exactly_once_commitAndFallBack : ∃ s s',
    Transition.run (step twoPerBatch) (init sevenAndOne zeroEntries) commitAndFallBack = some s ∧
      s.finish twoPerBatch = some s' ∧ ∀ e, s.i ≤ e → e < s'.i → ∃! f : Fate, f.Holds s' e := by
  obtain ⟨s', hs'⟩ := Option.isSome_iff_exists.mp (show ((Transition.run (step twoPerBatch)
    (init sevenAndOne zeroEntries) commitAndFallBack).bind (finish twoPerBatch)).isSome = true by
      decide +kernel)
  obtain ⟨s, hrun, hfinish⟩ := Option.bind_eq_some_iff.mp hs'
  exact ⟨s, s', hrun, hfinish, (exactly_once _ _ _ _ s s' hrun hfinish).1⟩

end P4db.Worker
