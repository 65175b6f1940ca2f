import P4db.Ee.Database
import P4db.Ee.Switch

/-!
# The hot period

`ee/hot_period.cpp`.  `gen_start_end_packets` walks over the slots of the allocated block and packs
the keys this node owns into packets that write their values to the switch, and packets that read
them back.  `run_hot_period` is the sequence of what it does to the outside: packets sent one by
one, windows of packets sent together, and calls of `wait_nodes`.  The first packets load the hot
keys into the switch and the last ones read them back; between them the hot send queue is drained,
with one barrier wherever the mini-batch number moves on.

The two `while` loops run on fuel; `none` is a failed assertion (or no fuel left, which does not
happen with the fuel given here).
-/

namespace P4db

/-! ### Start and end packets -/

/-- `MAX_STACKPOOL_SIZE`. -/
def maxStackpoolSize : ℕ := 2 * hotTxnPktBytes * ((nAccelKeys + nOps - 1) / nOps)

/-- `StackPool`: the fill and the memory, which is never cleared. -/
structure StackPool where
  size : ℕ
  buffer : Buf

/-- `StackPool::allocate`: the memory handed out, and the pool; `none` is the exception. -/
def StackPool.allocate (p : StackPool) (want : ℕ) : Option (Buf × StackPool) :=
  if p.size + want > maxStackpoolSize then none
  else some (fun j => p.buffer (p.size + j), { p with size := p.size + want })

namespace StartEnd

/-- What `gen_start_end_packets` reads of its environment: the addresses for the packets, the
partitioning and contents of the table, and the memory that a `Txn` is constructed in. -/
structure Env where
  conf : SwitchInfo.Macs
  partInfo : PartitionInfo
  table : DbKey → BitVec 32
  mem : Txn

/-- One of the two lists of packets with the transaction under construction.  Every packet has its
own part of the pool, so it is kept by value. -/
structure Fill where
  txn : Txn
  done : List (Txn × Buf)

/-- A fresh transaction as `init_and_get_arr` leaves it. -/
def Env.freshTxn (e : Env) : Txn := { Txn.new e.mem with initDone := true, doAccel := true }

/-- `fill_op`, except for the location; `none` is the failed assertion of `lockless_access`. -/
def Env.fillOp (e : Env) (isInit : Bool) (old : Op) (k : DbKey) : Option Op :=
  if k < e.partInfo.totalSize then
    some { old with id := k, mode := if isInit then .write else .read, value := e.table k }
  else none

/-- Put an operation in the array of the transaction under construction. -/
def Fill.put (f : Fill) (i : ℕ) (pr : HotOp) : Fill :=
  { f with txn := { f.txn with hotOpsPass1 := Function.update f.txn.hotOpsPass1 i pr } }

/-- `(*arr)[i].first.mode = AccessMode::INVALID`. -/
def Fill.terminate (f : Fill) (i : ℕ) : Fill :=
  f.put i ({ (f.txn.hotOpsPass1 i).1 with mode := .invalid }, (f.txn.hotOpsPass1 i).2)

/-- One half of the lambda `make_txn`: encode the transaction and start a new one. -/
def Fill.makeTxn (f : Fill) (e : Env) (blockNum : ℕ) (pkt : Buf) : Option Fill :=
  (SwitchInfo.makeTxn e.conf blockNum f.txn pkt).map fun pkt =>
    ⟨e.freshTxn, f.done ++ [(f.txn, pkt)]⟩

/-- The variables of `gen_start_end_packets`. -/
structure State where
  start : Fill
  fin : Fill
  opsAdded : ℕ
  pool : StackPool
  layout : DeclusteredLayout

/-- The state before the loops. -/
def State.init (e : Env) (pool : StackPool) (layout : DeclusteredLayout) : State :=
  ⟨⟨e.freshTxn, []⟩, ⟨e.freshTxn, []⟩, 0, pool, layout⟩

/-- The lambda `make_txn` with `first = false`. -/
def State.makeTxn (st : State) (e : Env) : Option State := do
  let (pktStart, pool) ← st.pool.allocate hotTxnPktBytes
  let start ← st.start.makeTxn e st.layout.blockNum pktStart
  let (pktEnd, pool) ← pool.allocate hotTxnPktBytes
  let fin ← st.fin.makeTxn e st.layout.blockNum pktEnd
  some ⟨start, fin, 0, pool, st.layout⟩

/-- The two `fill_op` calls for a key. -/
def State.fillOps (st : State) (e : Env) (k : DbKey) : Option State := do
  let n := st.opsAdded
  let op ← e.fillOp true (st.start.txn.hotOpsPass1 n).1 k
  let (_, locStart) := (st.layout.getLocation k).1
  let layout := (st.layout.getLocation k).2
  let op' ← e.fillOp false (st.fin.txn.hotOpsPass1 n).1 k
  let (_, locEnd) := (layout.getLocation k).1
  some { st with
    start := st.start.put n (op, locStart)
    fin := st.fin.put n (op', locEnd)
    opsAdded := n + 1
    layout := (layout.getLocation k).2 }

/-- The body of the inner loop. -/
def State.visit (e : Env) (s : ℕ) (st : State) (r : ℕ) : Option State :=
  match st.layout.revLookup r (s + slotsPerSchedBlock * st.layout.blockNum) with
  | some k =>
    if (e.partInfo.location k).isLocal then do
      let st ← st.fillOps e k
      if st.opsAdded = nOps then st.makeTxn e else some st
    else some st
  | none => some st

/-- The end of a row: what is left goes into a packet of its own. -/
def State.endRow (st : State) (e : Env) : Option State :=
  if st.opsAdded < nOps then
    if st.opsAdded > 0 then
      { st with start := st.start.terminate st.opsAdded
                fin := st.fin.terminate st.opsAdded }.makeTxn e
    else some st
  else none

/-- The body of the outer loop. -/
def State.row (e : Env) (st : State) (s : ℕ) : Option State := do
  let st ← (List.range nRegs).foldlM (State.visit e s) st
  st.endRow e

/-- `gen_start_end_packets`. -/
def genStartEndPackets (e : Env) (pool : StackPool) (layout : DeclusteredLayout) : Option State :=
  (List.range slotsPerSchedBlock).foldlM (State.row e) (State.init e pool layout)

end StartEnd

/-! ### Sending -/

/-- `MAX_IN_FLIGHT`. -/
def maxInFlight : ℕ := 200

/-- An effect of the hot period. -/
inductive HotEvent (τ π : Type)
  | sendmsg (pkt : π)
  | sendmmsg (window : List (HotTxnEntry τ))
  | waitNodes
  deriving DecidableEq, Repr

namespace HotPeriod

variable {τ π : Type}

/-- `for (size_t i = lo; i < hi; ++i) wait_nodes();` -/
def waitLoop (lo hi : ℕ) : List (HotEvent τ π) :=
  (List.range' lo (hi - lo)).map fun _ => .waitNodes

/-- The inner loop: the end of the window that starts at `windowStart`. -/
def fillWindow (q : ℕ → HotTxnEntry τ) (qSize windowStart : ℕ) : ℕ → ℕ → Option ℕ
  | 0, _ => none
  | fuel + 1, qP =>
    if qP < qSize ∧ (q windowStart).miniBatchNum = (q qP).miniBatchNum ∧
        qP - windowStart < maxInFlight then
      fillWindow q qSize windowStart fuel (qP + 1)
    else some qP

/-- The barriers after a window. -/
def windowWaits (q : ℕ → HotTxnEntry τ) (qSize miniBatchNum windowStart qP : ℕ) :
    List (HotEvent τ π) :=
  if (q windowStart).miniBatchNum < (q qP).miniBatchNum ∨ qP = qSize then
    let endMb := if qP = qSize then miniBatchNum else (q qP).miniBatchNum
    waitLoop (q windowStart).miniBatchNum endMb
  else []

/-- The outer loop from `qP` on. -/
def sendLoop (q : ℕ → HotTxnEntry τ) (qSize miniBatchNum : ℕ) : ℕ → ℕ → Option (List (HotEvent τ π))
  | 0, _ => none
  | fuel + 1, windowStart =>
    if windowStart < qSize then do
      let qP ← fillWindow q qSize windowStart (qSize + 1) windowStart
      guard (qP = qSize ∨ (q windowStart).miniBatchNum ≤ (q qP).miniBatchNum)
      let rest ← sendLoop q qSize miniBatchNum fuel qP
      some (.sendmmsg ((List.range' windowStart (qP - windowStart)).map q) ::
        (windowWaits q qSize miniBatchNum windowStart qP ++ rest))
    else some []

/-- The barriers before the first window.  The guard reads the first entry of the array also when
the queue is empty. -/
def firstWaits (q : ℕ → HotTxnEntry τ) (qSize pastMbNum : ℕ) : List (HotEvent τ π) :=
  if qSize > 0 ∨ (q 0).miniBatchNum > pastMbNum then waitLoop pastMbNum (q 0).miniBatchNum else []

/-- `run_hot_period` between `gen_start_end_packets` and the update of `past_mb_num`. -/
def runHotPeriod (startFill endFill : List π) (hotSendQ : HotSendQ τ) (pastMbNum miniBatchNum : ℕ) :
    Option (List (HotEvent τ π)) := do
  let q := hotSendQ.sendQ
  let qSize := hotSendQ.sendQTail
  let sent ← sendLoop q qSize miniBatchNum (qSize + 1) 0
  some (startFill.map .sendmsg ++ [.waitNodes] ++ firstWaits q qSize pastMbNum ++ sent ++
    endFill.map .sendmsg ++ [.waitNodes])

end HotPeriod

/-! ### Batch after batch -/

/-- What a node carries from one hot period to the next: `past_mb_num` and the queue. -/
structure HotState (τ : Type) where
  pastMbNum : ℕ
  hotSendQ : HotSendQ τ

/-- A batch as the hot period sees it: the transactions that claimed a slot, in slot order with
their mini-batches, the value `exec.mini_batch_num` has reached, and the start and end packets. -/
structure HotBatch (τ π : Type) where
  slots : List (ℕ × τ)
  miniBatchNum : ℕ
  startFill : List π
  endFill : List π

namespace HotState

variable {τ π : Type}

/-- One batch: the slots are claimed, thread 0 runs the hot period and resets the queue. -/
def runBatch (s : HotState τ) (b : HotBatch τ π) : Option (List (HotEvent τ π) × HotState τ) := do
  let q ← s.hotSendQ.allocSlots b.slots
  let evs ← HotPeriod.runHotPeriod b.startFill b.endFill q s.pastMbNum b.miniBatchNum
  some (evs, ⟨b.miniBatchNum, q.doneSending⟩)

/-- A node before its first batch.  The contents of the array are whatever the memory held. -/
def init (mem : ℕ → HotTxnEntry τ) : HotState τ := ⟨1, ⟨mem, 0, batchSizeTgt, 0⟩⟩

/-- The state after a batch. -/
def step (s : HotState τ) (b : HotBatch τ π) : Option (HotState τ) :=
  (s.runBatch b).map Prod.snd

end HotState

end P4db
