import P4db.Ee.Database
import P4db.Ee.Executor
import P4db.Ee.Sched

/-!
# A worker and its batches

`txn_executor` of `ee/executor.cpp` with `run_txn` and `run_leftover_txns`.  A worker takes its
transactions in batches.  The scheduler spreads a batch over the queues; then 20 mini-batches take a
quota of transactions each from the queue that is due, and one more empties all queues.  A
transaction that is not accelerated, or that `my_execute` has rolled back too often, is left over,
and after the hot period `execute` is tried on the leftover transactions in turn, until one in a
hundred is left; these are dropped.

The worker is a state machine whose steps are the iterations of the loops.  What `my_execute` and
`execute` return comes with the action.  The hot send queue belongs to all workers of the node: a
slot of this worker holds the position of the transaction, a slot of another worker holds `none`.
Left out are clocks and counters, the barriers, what happens inside the hot period, and the packet
that `make_txn` encodes.  A step that fails an assertion is not enabled.

Two fields only record what has happened: `trace`, and `sentQ`, the hot send queue as the last hot
period found it.
-/

namespace P4db

/-- `MAX_TIMES_ACCEL_ABORT`. -/
def maxTimesAccelAbort : ℕ := 1
/-- `MINI_BATCH_SIZE_TGT`: transactions of a mini-batch. -/
def miniBatchSizeTgt : ℕ := 5000

namespace Txn

/-- The key of the operation at `hottest_cold_i1`. -/
def hottestColdKey (txn : Txn) : Option DbKey :=
  txn.hottestColdI1.map fun i => (txn.coldOps i).id

/-- `cold_ops[cold_p--] = op`; the index is a `size_t`. -/
def putBack (st : (ℕ → Op) × ℕ) (op : Op) : (ℕ → Op) × ℕ :=
  (Function.update st.1 st.2 op, (st.2 + 2 ^ 64 - 1) % 2 ^ 64)

/-- The indices at which `putBack` writes a list of operations are in the array. -/
def PutBackInRange : List Op → (ℕ → Op) × ℕ → Prop
  | [], _ => True
  | op :: ops, st => st.2 < nOps ∧ PutBackInRange ops (putBack st op)

/-- What `restoreCold` writes: the second loop counts the entries of the second pass and copies
those of the first. -/
def putBackOps (txn : Txn) : List Op :=
  txn.hot.map Prod.fst ++ (List.range txn.hot2.length).map fun p => (txn.hotOpsPass1 p).1

/-- Convert hot into cold operations again, from the end of the array.  `none` is the failed
assertion that there is an operation before them. -/
def restoreCold (txn : Txn) : Option Txn :=
  let (coldOps, coldP) := txn.putBackOps.foldl putBack (txn.coldOps, nOps - 1)
  if (coldOps coldP).mode = .invalid then none
  else some { txn with coldOps := coldOps, doAccel := false }

end Txn

/-- The configuration of a worker. -/
structure WorkerConf extends SchedConf where
  numTxnWorkers : ℕ
  /-- the length of the vector of transactions -/
  numTxns : ℕ

namespace WorkerConf

variable (c : WorkerConf)

/-- `batch_tgt`. -/
def batchTgt : ℕ := batchSizeTgt / c.numTxnWorkers

/-- `mini_batch_tgt`. -/
def miniBatchTgt : ℕ := miniBatchSizeTgt / c.numTxnWorkers

/-- `txns.size()` after the resize. -/
def size : ℕ := c.numTxns / c.batchTgt * c.batchTgt

end WorkerConf

namespace Worker

/-- What a worker does with the transaction at a position: `run_txn` takes it, with its hottest cold
key; `my_execute` returns; it is left over; `execute` sends it to the switch; `execute` returns. -/
inductive Event
  | runTxn (miniBatchNum : ℕ) (enqueueAborts : Bool) (e : ℕ) (hottest : Option DbKey)
  | myExecute (e : ℕ) (rc : RC)
  | leftover (e : ℕ)
  | atomic (e : ℕ)
  | execute (e : ℕ) (rc : RC)
  deriving DecidableEq, Repr

/-- Where a worker is: before a batch; in a mini-batch, with `orig_mb_num` and `txn_num`; at a queue
in the last mini-batch; in the hot period; in `run_leftover_txns`, with the size it stops at. -/
inductive Phase
  | batch
  | mini (origMbNum txnNum : ℕ)
  | drain (q : ℕ)
  | hot
  | leftover (limit : ℕ)
  deriving DecidableEq, Repr

end Worker

/-- A `TxnExecutor` with its scheduler, and the hot send queue of the node; `i` is the position of
the batch. -/
structure Worker where
  phase : Worker.Phase
  txns : ℕ → Txn
  mbQueues : ℕ → List ℕ
  leftoverTxns : List ℕ
  miniBatchNum : ℕ
  i : ℕ
  hotSendQ : HotSendQ (Option ℕ)
  sentQ : HotSendQ (Option ℕ)
  trace : List Worker.Event

namespace Worker

/-- A worker before its first batch, with transactions as they are loaded; the hot send queue holds
whatever the memory held. -/
def init (mem : ℕ → Txn) (memQ : ℕ → HotTxnEntry (Option ℕ)) : Worker where
  phase := .batch
  txns e := Txn.new (mem e)
  mbQueues _ := []
  leftoverTxns := []
  miniBatchNum := 1
  i := 0
  hotSendQ := ⟨memQ, 0, batchSizeTgt, 0⟩
  sentQ := ⟨memQ, 0, batchSizeTgt, 0⟩
  trace := []

variable (c : WorkerConf) (s : Worker)

def record (ev : Event) : Worker := { s with trace := s.trace ++ [ev] }

def setTxn (e : ℕ) (txn : Txn) : Worker := { s with txns := Function.update s.txns e txn }

def setQueue (q : ℕ) (es : List ℕ) : Worker :=
  { s with mbQueues := Function.update s.mbQueues q es }

/-! ### `run_txn` -/

/-- `leftover_txns.push(e)`. -/
def pushLeftover (e : ℕ) : Worker :=
  { s with leftoverTxns := s.leftoverTxns ++ [e] }.record (.leftover e)

/-- After a rollback the transaction is tried again, or it is left over. -/
def handleAbort (enqueueAborts : Bool) (q e : ℕ) : Option Worker :=
  let txn := { s.txns e with nAborts := (s.txns e).nAborts + 1 }
  if enqueueAborts = true ∧ txn.nAborts ≤ maxTimesAccelAbort then
    some ((s.setTxn e txn).setQueue q (s.mbQueues q ++ [e]))
  else txn.restoreCold.map fun txn => (s.setTxn e txn).pushLeftover e

/-- `my_execute` with the result `rc`, and what `run_txn` does then.  A slot is claimed before a
commit and only then. -/
def accelerate (enqueueAborts : Bool) (q e : ℕ) : RC → Option Worker
  | .rollback => (s.record (.myExecute e .rollback)).handleAbort enqueueAborts q e
  | .commit => (s.hotSendQ.allocSlot s.miniBatchNum (some e)).map fun hotSendQ =>
    { s with hotSendQ := hotSendQ }.record (.myExecute e .commit)

/-- The transaction `e` is taken from the front of queue `q` and gets its identifier. -/
def take (enqueueAborts : Bool) (q e : ℕ) (es : List ℕ) : Worker :=
  let txn := { s.txns e with id := TxnId.ofFields true c.nodeId s.miniBatchNum }
  ((s.setQueue q es).setTxn e txn).record
    (.runTxn s.miniBatchNum enqueueAborts e (s.txns e).hottestColdKey)

/-- `run_txn` on queue `q`; `rc` is what `my_execute` returns if it is called. -/
def runTxn (enqueueAborts : Bool) (q : ℕ) (rc : RC) : Option Worker :=
  match s.mbQueues q with
  | [] => none
  | e :: es =>
    let id := TxnId.ofFields true c.nodeId s.miniBatchNum
    if e < c.size ∧ (s.txns e).initDone = true ∧ 0 < s.miniBatchNum ∧
        id.nodeId.toNat = c.nodeId ∧ id.miniBatchId.toNat = s.miniBatchNum then
      let s' := s.take c enqueueAborts q e es
      if (s.txns e).doAccel then s'.accelerate enqueueAborts q e rc else some (s'.pushLeftover e)
    else none

/-! ### `run_leftover_txns` -/

/-- `execute` with the result `rc`.  It cannot commit a transaction that does not have all its
operations: it would have failed an assertion at the first one without a mode. -/
def execute (e : ℕ) (rc : RC) : Option Worker :=
  let txn := { s.txns e with id := { (s.txns e).id with valid := false } }
  let s := s.setTxn e txn
  match rc with
  | .rollback => some (s.record (.execute e .rollback))
  | .commit =>
    if txn.cold.length = nOps then
      some ((if txn.doAccel then s.record (.atomic e) else s).record (.execute e .commit))
    else none

/-- An iteration of the loop.  The transaction goes to the back before it is taken from the
front. -/
def leftoverStep (rc : RC) : Option Worker :=
  match s.leftoverTxns with
  | [] => none
  | e :: es =>
    if e < c.size then
      (s.execute e rc).map fun s =>
        { s with leftoverTxns := if rc = .rollback then es ++ [e] else es }
    else none

/-! ### Steps -/

/-- The next batch is scheduled, under the layout as it is then; `run_txn` is called; a mini-batch
or the draining of a queue ends; another worker claims a slot; the hot period ends; `execute` is
called; the batch ends. -/
inductive Action
  | sched (layout : DeclusteredLayout)
  | run (rc : RC)
  | next
  | others (miniBatchNum : ℕ)
  | doneSending
  | execute (rc : RC)
  | finish

/-- The queue of the mini-batch. -/
def dueQueue : ℕ := (s.miniBatchNum - 1) % c.nQueues

/-- `sched_batch` on the next batch. -/
def schedBatch (layout : DeclusteredLayout) : Except SchedFault SchedState :=
  SchedState.schedBatch c.toSchedConf ⟨s.txns, s.mbQueues, layout, 0⟩ s.i (s.i + c.batchTgt)

/-- The head of the loop over batches. -/
def sched (layout : DeclusteredLayout) : Option Worker :=
  if s.phase = .batch ∧ s.i < c.size then
    match s.schedBatch c layout with
    | .ok st => some { s with
        txns := st.txns, mbQueues := st.mbQueues, phase := .mini s.miniBatchNum 0 }
    | .error _ => none
  else none

/-- An iteration of one of the two loops around `run_txn`. -/
def run (rc : RC) : Option Worker :=
  match s.phase with
  | .mini orig n =>
    if n < c.miniBatchTgt then
      (s.runTxn c true (s.dueQueue c) rc).map fun s => { s with phase := .mini orig (n + 1) }
    else none
  | .drain q => s.runTxn c false q rc
  | _ => none

/-- The end of one of these loops. -/
def next : Option Worker :=
  match s.phase with
  | .mini orig n =>
    if n < c.miniBatchTgt ∧ s.mbQueues (s.dueQueue c) ≠ [] then none
    else some { s with
      miniBatchNum := s.miniBatchNum + 1
      phase := if s.miniBatchNum + 1 - orig < batchSizeTgt / miniBatchSizeTgt then .mini orig 0
        else .drain 0 }
  | .drain q =>
    if s.mbQueues q ≠ [] then none
    else if q + 1 < c.nQueues then some { s with phase := .drain (q + 1) }
    else some { s with miniBatchNum := s.miniBatchNum + 1, phase := .hot }
  | _ => none

/-- Another worker claims a slot.  In `run_leftover_txns` all workers have passed the hot period. -/
def others (mb : ℕ) : Option Worker :=
  match s.phase with
  | .leftover _ => none
  | _ => (s.hotSendQ.allocSlot mb none).map fun hotSendQ => { s with hotSendQ := hotSendQ }

/-- The end of the hot period and the start of `run_leftover_txns`. -/
def doneSending : Option Worker :=
  match s.phase with
  | .hot => some { s with
      hotSendQ := s.hotSendQ.doneSending
      sentQ := s.hotSendQ
      phase := .leftover (s.leftoverTxns.length / 100) }
  | _ => none

/-- An iteration of `run_leftover_txns`. -/
def runLeftover (rc : RC) : Option Worker :=
  match s.phase with
  | .leftover limit => if s.leftoverTxns.length > limit then s.leftoverStep c rc else none
  | _ => none

/-- The end of `run_leftover_txns` and of the batch, with the assertion of `single_db_section`. -/
def finish : Option Worker :=
  match s.phase with
  | .leftover limit =>
    if ¬s.leftoverTxns.length > limit ∧ s.hotSendQ.sendQTail = 0 then
      some { s with leftoverTxns := [], i := s.i + c.batchTgt, phase := .batch }
    else none
  | _ => none

/-- One step. -/
def step : Action → Option Worker
  | .sched layout => s.sched c layout
  | .run rc => s.run c rc
  | .next => s.next c
  | .others mb => s.others mb
  | .doneSending => s.doneSending
  | .execute rc => s.runLeftover c rc
  | .finish => s.finish c

end Worker

end P4db
