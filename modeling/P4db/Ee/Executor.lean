import P4db.Algorithm.TwoPhase
import P4db.Ee.Args
import P4db.Ee.Database
import P4db.Ee.Row

/-!
# The executor

Worker threads that run transactions against the rows of all nodes: `TxnExecutor::my_execute` and
`execute` of `ee/executor.cpp` with `Undolog` and `TupleFuture`, the messages of `comm/msg.hpp`, and
the handlers of `comm/msg_handler.cpp`.

A transaction first locks every row of its cold operations, in order; a row of another node is
locked by a `TupleGetReq` whose response carries a copy of the tuple.  It then reads and writes, in
place or in the copies, and releases the locks in the order of the log; a copy goes back with a
`TuplePutReq`.  A lock that is refused makes it release what it has.

The state holds all nodes, all threads and the messages on their way.  Threads and handlers take
steps one at a time in any order; a step is what happens under one mutex, or between two accesses to
shared memory.  Messages are neither lost nor duplicated and may overtake each other.  A failed
assertion or an exception nobody catches ends the process of its node.

Four fields only record what has happened: `history`, `started`, `finished` and `slots`.  So do the
fields `att` and `op` of a message.
-/

namespace P4db

/-- `RC`, as far as the executor returns it. -/
inductive RC
  | commit
  | rollback
  deriving DecidableEq, Repr

/-- `msg::node_t`: a node and one of its threads. -/
structure NodeT where
  nid : ℕ
  tid : ℕ
  deriving DecidableEq, Repr

/-- One call of `my_execute` or `execute`: the thread, and a number among the calls of the
thread. -/
structure Attempt where
  worker : NodeT
  seq : ℕ
  deriving DecidableEq, Repr

/-- A lock on a row: the call, the index of the operation, the key, and whether it is a write
lock. -/
abbrev RowLock := TwoPhase.Lock Attempt DbKey

/-! ### Messages -/

/-- `msg::Type` of the four tuple messages. -/
inductive MsgType
  | tupleGetReq
  | tupleGetRes
  | tuplePutReq
  | tuplePutRes
  deriving DecidableEq, Repr

/-- The four tuple messages.  A handler turns a request into its response in place, so they share
their fields; `pack` is `me_pack` in a `TupleGetReq` and `last_acq_pack` in the others. -/
structure TupleMsg where
  type : MsgType
  sender : NodeT
  msgId : ℕ
  rid : DbKey
  mode : AccessMode
  pack : BitVec 32
  tuple : BitVec 32
  att : Attempt
  op : ℕ
  deriving DecidableEq, Repr

/-- A message on its way to a node. -/
structure Packet where
  dst : ℕ
  msg : TupleMsg
  deriving DecidableEq, Repr

/-- The lock a message asks for or gives back. -/
def TupleMsg.rowLock (m : TupleMsg) : RowLock := ⟨m.att, m.op, m.rid, decide (m.mode = .write)⟩

/-! ### Futures and the undo log -/

/-- What the pointer `tuple` of a future points to: nothing, the marker `EXCEPTION`, the tuple of a
row, or the tuple inside the packet of the future. -/
inductive TuplePtr
  | null
  | exception
  | row
  | packet
  deriving DecidableEq, Repr

/-- `TupleFuture`. -/
structure TupleFuture where
  pkt : Option TupleMsg
  tuple : TuplePtr
  lastAcq : TxnId
  deriving DecidableEq, Repr

namespace TupleFuture

/-- A future nobody has set. -/
def new : TupleFuture := ⟨none, .null, TxnId.default⟩

/-- `set_pkt`. -/
def setPkt (f : TupleFuture) (pkt : TupleMsg) : TupleFuture := { f with pkt := some pkt }

/-- `get` with `wait`: the future afterwards, `none` while it waits.  It returns a null pointer when
`tuple` is `EXCEPTION`. -/
def get (f : TupleFuture) : Option TupleFuture :=
  match f.tuple with
  | .null => f.pkt.map fun res =>
    if res.mode = .invalid then { f with tuple := .exception }
    else { f with tuple := .packet, lastAcq := TxnId.ofPacked res.pack }
  | _ => some f

end TupleFuture

/-- `Read`, `Write` and `Remote` of the undo log; only `Remote` has a target. -/
structure UndoAction where
  target : Option ℕ
  index : DbKey
  mode : AccessMode
  future : TupleFuture
  deriving DecidableEq, Repr

/-! ### Threads and nodes -/

/-- Where a thread is: outside a transaction, before the lock of operation `i`, waiting for the
response to it, before the access of operation `i`, before `alloc_slot`, before the release of entry
`j` of the log, or waiting for the responses to its `TuplePutReq`s. -/
inductive Phase
  | idle
  | acquire (i : ℕ)
  | await (i : ℕ)
  | access (i : ℕ)
  | alloc
  | clear (rc : RC) (j : ℕ)
  | waitPuts (rc : RC)
  deriving DecidableEq, Repr

/-- A `TxnExecutor`; `miniBatchNum` is `none` in `execute`.  The future `ops[i]` is the one in entry
`i` of the log. -/
structure Thread where
  phase : Phase
  seq : ℕ
  txn : Txn
  miniBatchNum : Option ℕ
  log : List UndoAction

/-- The check that ended the process of a node: the identifier made in `run_txn`, an operation
without a mode in `execute`, the assertion of `mb_allow_lock`, the ones about `open_futures`, the
one in `alloc_slot`, or the exceptions of the undo log. -/
inductive Fault
  | txnId
  | invalidOp
  | mbAllowLock
  | openFutures
  | allocSlot
  | undo
  deriving DecidableEq, Repr

/-- The nodes, the `max_size` their tables are partitioned by, and the `size` they are filled to. -/
structure Config where
  numNodes : ℕ
  maxSize : ℕ
  size : ℕ
  deriving DecidableEq, Repr

namespace Config

/-- The `PartitionInfo` of a node. -/
def part (c : Config) (n : ℕ) : PartitionInfo := ⟨c.maxSize, c.numNodes, n⟩

/-- The node whose row counts. -/
@[irreducible] def owner (c : Config) (k : DbKey) : ℕ := ((c.part 0).location k).target

end Config

/-- The whole system. -/
structure System where
  rows : ℕ × DbKey → Row
  threads : NodeT → Thread
  net : List Packet
  /-- by node and message id: the thread and the operation of the future -/
  openFutures : ℕ × ℕ → Option (ℕ × ℕ)
  nextId : ℕ → ℕ
  putResponses : NodeT → ℕ
  hotSendQ : ℕ → HotSendQ Attempt
  /-- how often `done_sending` was called -/
  batch : ℕ → ℕ
  halted : ℕ → Option Fault
  history : List (TwoPhase.Event Attempt DbKey (BitVec 32))
  started : List (Attempt × Txn × Option ℕ)
  finished : List (Attempt × RC)
  /-- by call: the batch and the index in the hot send queue -/
  slots : List (Attempt × ℕ × ℕ)

namespace System

/-- All rows unlocked with the given values, all threads idle; the hot send queues hold whatever the
memory held. -/
def init (value : ℕ → DbKey → BitVec 32) (mem : ℕ → ℕ → HotTxnEntry Attempt) : System where
  rows nk := Row.init (value nk.1 nk.2)
  threads _ := ⟨.idle, 0, default, none, []⟩
  net := []
  openFutures _ := none
  nextId _ := 0
  putResponses _ := 0
  hotSendQ n := ⟨mem n, 0, batchSizeTgt, 0⟩
  batch _ := 0
  halted _ := none
  history := []
  started := []
  finished := []
  slots := []

variable (c : Config) (s : System) (w : NodeT)

/-- The call a thread is in. -/
def attempt : Attempt := ⟨w, (s.threads w).seq⟩

def setThread (th : Thread) : System := { s with threads := Function.update s.threads w th }

def setPhase (phase : Phase) : System := s.setThread w { s.threads w with phase := phase }

def setRow (n : ℕ) (k : DbKey) (row : Row) : System :=
  { s with rows := Function.update s.rows (n, k) row }

def send (dst : ℕ) (m : TupleMsg) : System := { s with net := ⟨dst, m⟩ :: s.net }

def record (e : TwoPhase.Event Attempt DbKey (BitVec 32)) : System :=
  { s with history := s.history ++ [e] }

/-! ### Tables -/

/-- `StructTable::get` without the early test. -/
def tableGet (n : ℕ) (index : DbKey) (mode : AccessMode) (id : TxnId) :
    Option (Except ErrorCode (Row × TxnId)) :=
  if c.size ≤ index then some (.error .invalidRowId)
  else (s.rows (n, index)).localLock mode id

/-- `StructTable::put`. -/
def tablePut (n : ℕ) (index : DbKey) (mode : AccessMode) (id : TxnId) : ErrorCode × Row :=
  if c.size ≤ index then (.invalidRowId, s.rows (n, index))
  else (s.rows (n, index)).localUnlock mode id

/-! ### Steps of a thread -/

/-- The keys are within the table, and `loc_info` is what `PartitionInfo::location` gives. -/
def Placed (n : ℕ) (txn : Txn) : Prop :=
  ∀ op ∈ txn.cold, op.id < c.size ∧ op.locInfo = (c.part n).location op.id

instance (n : ℕ) (txn : Txn) : Decidable (Placed c n txn) :=
  inferInstanceAs (Decidable (∀ op ∈ txn.cold, _))

/-- A call begins. -/
def enter (txn : Txn) (miniBatchNum : Option ℕ) : System :=
  let seq := (s.threads w).seq + 1
  { s.setThread w ⟨.acquire 0, seq, txn, miniBatchNum, []⟩ with
    started := (⟨w, seq⟩, txn, miniBatchNum) :: s.started }

/-- A thread calls `my_execute` from `run_txn` in a mini-batch, or `execute`. -/
def start (txn : Txn) (miniBatchNum : Option ℕ) : Option (Except Fault System) :=
  if (s.threads w).phase = .idle ∧ Placed c w.nid txn then
    match miniBatchNum with
    | some mb =>
      let id := TxnId.ofFields true w.nid mb
      if 0 < mb ∧ id.nodeId.toNat = w.nid ∧ id.miniBatchId.toNat = mb then
        some (.ok (s.enter w { txn with id := id } (some mb)))
      else some (.error .txnId)
    | none => some (.ok (s.enter w { txn with id := { txn.id with valid := false } } none))
  else none

/-- `read` and `write` up to the wait for a remote lock.  The flag says that the test before the
mutex of the row found it locked. -/
def lockOp (i : ℕ) (op : Op) (mode : AccessMode) (early : Bool) : Option (Except Fault System) :=
  let th := s.threads w
  if op.locInfo.isLocal then
    if early then
      if ((s.rows (w.nid, op.id)).earlyAbort mode).isSome then
        some (.ok (s.setPhase w (.clear .rollback 0)))
      else none
    else
      match s.tableGet c w.nid op.id mode th.txn.id with
      | none => some (.error .mbAllowLock)
      | some (.error _) => some (.ok (s.setPhase w (.clear .rollback 0)))
      | some (.ok (row, seen)) =>
        let act : UndoAction := ⟨none, op.id, mode, ⟨none, .row, seen⟩⟩
        some (.ok (((s.setRow w.nid op.id row).setThread w
          { th with phase := .acquire (i + 1), log := th.log ++ [act] }).record
            (.lock ⟨s.attempt w, i, op.id, decide (mode = .write)⟩)))
  else
    let msgId := s.nextId w.nid
    if (s.openFutures (w.nid, msgId)).isSome then some (.error .openFutures)
    else
      let act : UndoAction := ⟨some op.locInfo.target, op.id, mode, .new⟩
      let req : TupleMsg := ⟨.tupleGetReq, ⟨w.nid, 0⟩, msgId, op.id, mode, th.txn.id.getPacked, 0,
        s.attempt w, i⟩
      some (.ok (({ s with
        nextId := Function.update s.nextId w.nid (msgId + 1)
        openFutures := Function.update s.openFutures (w.nid, msgId) (some (w.tid, i)) }.setThread w
          { th with phase := .await i, log := th.log ++ [act] }).send op.locInfo.target req))

/-- `read`. -/
def read (i : ℕ) (op : Op) (early : Bool) : Option (Except Fault System) :=
  s.lockOp c w i op .read early

/-- `write`. -/
def write (i : ℕ) (op : Op) (early : Bool) : Option (Except Fault System) :=
  s.lockOp c w i op .write early

/-- An iteration of the first loop.  `my_execute` leaves it at an operation without a mode,
`execute` asserts that there is none. -/
def acquire (i : ℕ) (early : Bool) : Option (Except Fault System) :=
  let th := s.threads w
  match th.txn.cold[i]? with
  | none =>
    if th.miniBatchNum = none ∧ i < nOps then some (.error .invalidOp)
    else some (.ok (s.setPhase w (.access 0)))
  | some op =>
    if op.mode = .write then s.write c w i op early else s.read c w i op early

/-- The end of `read` or `write` on a row of another node. -/
def await (i : ℕ) : Option (Except Fault System) := do
  let th := s.threads w
  let act ← th.log[i]?
  let f ← act.future.get
  let log := th.log.set i { act with future := f }
  if f.tuple = .exception then
    some (.ok (s.setThread w { th with phase := .clear .rollback 0, log := log }))
  else some (.ok (s.setThread w { th with phase := .acquire (i + 1), log := log }))

/-- The future after an access: `my_execute` replaces the stamp by its own identifier. -/
def stamp (th : Thread) (f : TupleFuture) : TupleFuture :=
  if th.miniBatchNum.isSome then { f with lastAcq := th.txn.id } else f

/-- The access to the tuple a future points to. -/
def accessOp (i : ℕ) (op : Op) (act : UndoAction) (f : TupleFuture) : Option System :=
  let th := s.threads w
  let l : RowLock := ⟨s.attempt w, i, op.id, decide (op.mode = .write)⟩
  let done (f : TupleFuture) : Thread :=
    { th with phase := .access (i + 1), log := th.log.set i { act with future := stamp th f } }
  match f.tuple with
  | .row =>
    let row := s.rows (w.nid, op.id)
    if op.mode = .write then
      some (((s.setRow w.nid op.id { row with tuple := op.value }).setThread w (done f)).record
        (.write l op.value))
    else some ((s.setThread w (done f)).record (.read l row.tuple))
  | .packet => f.pkt.map fun res =>
    if op.mode = .write then
      (s.setThread w (done { f with pkt := some { res with tuple := op.value } })).record
        (.write l op.value)
    else (s.setThread w (done f)).record (.read l res.tuple)
  | _ => some (s.setPhase w (.clear .rollback 0))

/-- An iteration of the second loop, and what comes after it in `execute`. -/
def access (i : ℕ) : Option (Except Fault System) :=
  let th := s.threads w
  match th.txn.cold[i]? with
  | none =>
    match th.miniBatchNum with
    | some _ => some (.ok (s.setPhase w .alloc))
    | none => some (.ok ((s.setPhase w (.clear .commit 0)).record (.commit (s.attempt w))))
  | some op => do
    let act ← th.log[i]?
    let f ← act.future.get
    let s' ← s.accessOp w i op act f
    some (.ok s')

/-- `alloc_slot`, after which `my_execute` commits. -/
def alloc : Option (Except Fault System) := do
  let mb ← (s.threads w).miniBatchNum
  let q := s.hotSendQ w.nid
  match q.allocSlot mb (s.attempt w) with
  | none => some (.error .allocSlot)
  | some q' =>
    some (.ok (({ s with
      hotSendQ := Function.update s.hotSendQ w.nid q'
      slots := s.slots ++ [(s.attempt w, s.batch w.nid, q.sendQTail)] }.setPhase w
        (.clear .commit 0)).record (.commit (s.attempt w))))

/-- `Undolog::clear` for entry `j`: a local lock is released, for a remote one the response becomes
the `TuplePutReq`.  The tuple is already in its place there. -/
def clear (rc : RC) (j : ℕ) : Option (Except Fault System) :=
  let th := s.threads w
  match th.log[j]? with
  | none => some (.ok (s.setPhase w (.waitPuts rc)))
  | some act =>
    match act.target with
    | none =>
      if act.future.tuple = .null then some (.error .undo)
      else
        match s.tablePut c w.nid act.index act.mode act.future.lastAcq with
        | (.success, row) =>
          some (.ok (((s.setRow w.nid act.index row).setPhase w (.clear rc (j + 1))).record
            (.unlock ⟨s.attempt w, j, act.index, decide (act.mode = .write)⟩)))
        | _ => some (.error .undo)
    | some target => do
      let f ← act.future.get
      if f.tuple = .exception then some (.ok (s.setPhase w (.clear rc (j + 1))))
      else
        let res ← f.pkt
        let req : TupleMsg :=
          { res with type := .tuplePutReq, sender := w, pack := f.lastAcq.getPacked }
        some (.ok (({ s with
          putResponses := Function.update s.putResponses w (s.putResponses w + 1) }.setPhase w
            (.clear rc (j + 1))).send target req))

/-- `putresponses.wait`, and the return.  The log is private to the thread, so it makes no
difference that it is emptied before the wait. -/
def finish (rc : RC) : Option (Except Fault System) :=
  if s.putResponses w = 0 then
    some (.ok { s.setThread w { s.threads w with phase := .idle, log := [] } with
      finished := (s.attempt w, rc) :: s.finished })
  else none

/-- The next step of a thread that is in a transaction. -/
def threadStep (early : Bool) : Option (Except Fault System) :=
  match (s.threads w).phase with
  | .idle => none
  | .acquire i => s.acquire c w i early
  | .await i => s.await w i
  | .access i => s.access w i
  | .alloc => s.alloc w
  | .clear rc j => s.clear c w rc j
  | .waitPuts rc => s.finish w rc

/-! ### Handlers -/

/-- `handle(TupleGetReq*)` with `remote_lock`. -/
def handleGetReq (n : ℕ) (m : TupleMsg) : Option (Except Fault System) :=
  match (s.rows (n, m.rid)).remoteLock m.mode m.pack with
  | none => some (.error .mbAllowLock)
  | some (_, none) =>
    some (.ok (s.send m.sender.nid { m with type := .tupleGetRes, mode := .invalid }))
  | some (row, some (pack, tuple)) =>
    some (.ok (((s.setRow n m.rid row).send m.sender.nid
      { m with type := .tupleGetRes, pack := pack, tuple := tuple }).record (.lock m.rowLock)))

/-- `handle(TupleGetRes*)`: `set_pkt` on the future the message id belongs to. -/
def handleGetRes (n : ℕ) (m : TupleMsg) : Option (Except Fault System) :=
  match s.openFutures (n, m.msgId) with
  | none => some (.error .openFutures)
  | some (tid, i) =>
    let th := s.threads ⟨n, tid⟩
    let log := th.log.modify i fun act => { act with future := act.future.setPkt m }
    some (.ok ({ s with openFutures := Function.update s.openFutures (n, m.msgId) none }.setThread
      ⟨n, tid⟩ { th with log := log }))

/-- `handle(TuplePutReq*)` with `remote_unlock`. -/
def handlePutReq (n : ℕ) (m : TupleMsg) : Option (Except Fault System) :=
  some (.ok (((s.setRow n m.rid ((s.rows (n, m.rid)).remoteUnlock m.mode m.tuple m.pack)).send
    m.sender.nid { m with type := .tuplePutRes }).record (.unlock m.rowLock)))

/-- `handle(TuplePutRes*)`. -/
def handlePutRes (n : ℕ) (m : TupleMsg) : Option (Except Fault System) :=
  let w : NodeT := ⟨n, m.sender.tid⟩
  some (.ok { s with putResponses := Function.update s.putResponses w (s.putResponses w - 1) })

/-- `MessageHandler::handle` for a message that arrives. -/
def deliver (p : Packet) : Option (Except Fault System) :=
  if p ∈ s.net then
    let s' := { s with net := s.net.erase p }
    match p.msg.type with
    | .tupleGetReq => s'.handleGetReq p.dst p.msg
    | .tupleGetRes => s'.handleGetRes p.dst p.msg
    | .tuplePutReq => s'.handlePutReq p.dst p.msg
    | .tuplePutRes => s'.handlePutRes p.dst p.msg
  else none

/-- `done_sending`. -/
def doneSending (n : ℕ) : Option (Except Fault System) :=
  some (.ok { s with
    hotSendQ := Function.update s.hotSendQ n (s.hotSendQ n).doneSending
    batch := Function.update s.batch n (s.batch n + 1) })

/-! ### Steps -/

/-- A thread begins a call, a thread takes its next step, a message is handled, or the leader of a
node empties the hot send queue. -/
inductive Action
  | start (w : NodeT) (txn : Txn) (miniBatchNum : Option ℕ)
  | thread (w : NodeT) (early : Bool)
  | deliver (p : Packet)
  | doneSending (n : ℕ)

/-- The node that acts. -/
def Action.node : Action → ℕ
  | .start w _ _ => w.nid
  | .thread w _ => w.nid
  | .deliver p => p.dst
  | .doneSending n => n

/-- What an action does; `none` if it is not enabled. -/
def exec : Action → Option (Except Fault System)
  | .start w txn miniBatchNum => s.start c w txn miniBatchNum
  | .thread w early => s.threadStep c w early
  | .deliver p => s.deliver p
  | .doneSending n => s.doneSending n

/-- One step; a node that has halted takes none. -/
def step (a : Action) : Option System :=
  if (s.halted a.node).isSome then none
  else (s.exec c a).map fun
    | .ok s' => s'
    | .error f => { s with halted := Function.update s.halted a.node (some f) }

end System

end P4db
