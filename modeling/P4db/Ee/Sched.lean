import P4db.Algorithm.LeastLoaded
import P4db.Ee.HotCold

/-!
# The mini-batch scheduler

`scheduler_t` of `ee/sched.cpp`.  Every node builds the same pool of schedules.  A schedule says
which node a queue belongs to: from position `s` on, one queue for each node, and all the others for
the node the schedule is made for.  `sched_batch` hashes the hottest cold key of a transaction to a
schedule of the node that owns the key, and puts the transaction in the shortest queue that this
schedule gives to the own node; if there is one that the schedule of the second hottest key gives to
it as well, only such queues are considered.  A transaction without a hottest cold key goes to the
queues in turn.

A transaction is known by its position in the vector of its worker.  Positions are natural numbers;
`txn_pos_t` holds those below `2 ^ 32`.
-/

namespace P4db

/-- `REMOTE_FRAC`: the share of remote queues in a schedule, in percent. -/
def remoteFrac : ℕ := 10

/-- What the scheduler reads of the configuration. -/
structure SchedConf where
  numNodes : ℕ
  nodeId : ℕ
  nodeId_lt : nodeId < numNodes
  tableSize : ℕ
  maxPasses : ℕ

namespace SchedConf

variable (c : SchedConf)

/-- `part_info` of the table. -/
def partInfo : PartitionInfo := ⟨c.tableSize, c.numNodes, c.nodeId⟩

/-! ### The pool of schedules -/

/-- `n_extra_local`.  With one node the subtraction of the source would wrap around. -/
def nExtraLocal : ℕ := (c.numNodes * (100 - remoteFrac) - 100) / remoteFrac

/-- `n_schedules`. -/
def nSchedules : ℕ := c.nExtraLocal + 1

/-- `schedule_len`. -/
def scheduleLen : ℕ := c.nExtraLocal + c.numNodes

/-- `n_queues`. -/
def nQueues : ℕ := c.scheduleLen

/-- Schedule `s` of a node: the owners of the queues. -/
def schedule (node s : ℕ) : List ℕ :=
  (List.range c.scheduleLen).map fun i => if i ≥ s ∧ i < s + c.numNodes then i - s else node

/-- `schedules`, by node and number. -/
def schedules : List (List (List ℕ)) :=
  (List.range c.numNodes).map fun node => (List.range c.nSchedules).map fun s => c.schedule node s

end SchedConf

/-! ### `sched_batch` -/

/-- What can go wrong in `sched_batch`: a queue is not empty, a transaction was prepared before, the
assertion at the end of `extract_hot_cold`, an access outside `schedules`, no queue was found. -/
inductive SchedFault
  | queueEmpty
  | initDone
  | extractHotCold
  | schedules
  | sBest
  deriving DecidableEq, Repr

/-- The variables of `sched_batch`. -/
structure SchedState where
  txns : ℕ → Txn
  mbQueues : ℕ → List ℕ
  layout : DeclusteredLayout
  zeroSprayIdx : ℕ

namespace SchedState

variable (c : SchedConf) (st : SchedState)

/-- `mb_queues[q].push(i)`. -/
def push (q i : ℕ) : SchedState :=
  { st with mbQueues := Function.update st.mbQueues q (st.mbQueues q ++ [i]) }

/-- `schedules[op.loc_info.target][op.id % n_schedules]`. -/
def schedOf (op : Op) : Except SchedFault (List ℕ) :=
  match c.schedules[op.locInfo.target]? with
  | none => .error .schedules
  | some nodeSchedules =>
    match nodeSchedules[op.id % c.nSchedules]? with
    | none => .error .schedules
    | some sched => .ok sched

/-- One of the two loops for `s_best`, over the queues that all of the schedules give to this
node. -/
def sBest (scheds : List (List ℕ)) : Option ℕ :=
  lowestWhere c.scheduleLen (fun s => scheds.all fun sched => sched[s]? = some c.nodeId)
    fun s => (st.mbQueues s).length

/-- The queue for a transaction with a hottest cold operation. -/
def findQueue (txn : Txn) (i1 : ℕ) : Except SchedFault ℕ := do
  let sched1 ← schedOf c (txn.coldOps i1)
  let both ← match txn.hottestColdI2 with
    | some i2 => do
      let sched2 ← schedOf c (txn.coldOps i2)
      pure (st.sBest c [sched1, sched2])
    | none => pure none
  match both with
  | some s => pure s
  | none =>
    match st.sBest c [sched1] with
    | some s => pure s
    | none => .error .sBest

/-- An iteration of the loop: transaction `i` is prepared and put in a queue. -/
def schedTxn (i : ℕ) : Except SchedFault SchedState :=
  if (st.txns i).initDone then .error .initDone
  else
    match HotCold.extractHotCold c.maxPasses c.partInfo (st.txns i) st.layout with
    | none => .error .extractHotCold
    | some (txn, layout) =>
      let st := { st with txns := Function.update st.txns i txn, layout := layout }
      match txn.hottestColdI1 with
      | some i1 => (st.findQueue c txn i1).map fun s => st.push s i
      | none => .ok { st.push (st.zeroSprayIdx % c.nQueues) i with
          zeroSprayIdx := st.zeroSprayIdx + 1 }

/-- `sched_batch`. -/
def schedBatch (start stop : ℕ) : Except SchedFault SchedState :=
  if ∀ q < c.nQueues, st.mbQueues q = [] then
    (List.range' start (stop - start)).foldlM (schedTxn c) { st with zeroSprayIdx := 0 }
  else .error .queueEmpty

end SchedState

end P4db
