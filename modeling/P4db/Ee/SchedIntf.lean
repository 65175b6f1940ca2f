import P4db.Switch.SchedServer

/-!
# The interface to the scheduler

The part of a node in the protocol of the scheduler: `update_alloc` and `wait_sched_ready` of
`ee/sched_intf.cpp`, as `main` and `txn_executor` call them.  A node asks for a block for the first
batch when it starts.  Then for every batch it waits for the ready message, runs the hot period,
which ends with a barrier of all nodes of the tenant, and asks for a block for the next batch.

Requests and responses travel on one socket for each node.  The nodes, the server and the network
take steps in any order.
-/

namespace P4db

/-- `COLD_BATCH_DUR_EST_NS`. -/
def coldBatchDurEstNs : ℕ := 1000000
/-- `HOT_BATCH_DUR_EST_NS`. -/
def hotBatchDurEstNs : ℕ := 1000000

/-- The tenants, by the number of nodes of each. -/
structure Tenancy where
  numNodes : ℕ → ℕ

namespace Tenancy

/-- The nodes of the tenants; tenants are numbered from 1. -/
def IsPeer (c : Tenancy) (p : Peer) : Prop := p.tenant ≠ noTenant ∧ p.node < c.numNodes p.tenant

instance (c : Tenancy) (p : Peer) : Decidable (c.IsPeer p) := inferInstanceAs (Decidable (_ ∧ _))

end Tenancy

inductive SchedPhase
  /-- before `update_alloc` -/
  | request
  /-- in `update_alloc`, after the request was sent -/
  | waitResp
  /-- before and in `wait_sched_ready` -/
  | waitReady
  /-- in the hot period -/
  | running
  /-- in the barrier at its end -/
  | barrier
  deriving DecidableEq, Repr

/-- A node: `batchNum` is the argument of `update_alloc`, and `got` records the blocks that it
returned. -/
structure SchedClient where
  phase : SchedPhase
  batchNum : ℕ
  blockNum : ℕ
  got : List ℕ
  deriving DecidableEq, Repr

namespace SchedClient

def init : SchedClient := ⟨.request, 0, noBlock, []⟩

variable (cl : SchedClient)

/-- The request that `update_alloc` sends. -/
def req (c : Tenancy) (t : ℕ) : AllocReq where
  startDelayNs := coldBatchDurEstNs
  durationNs := hotBatchDurEstNs
  blkToFree := cl.blockNum
  tenantId := t
  tenantNumNodes := c.numNodes t
  batchNum := (1 + cl.batchNum) % 2 ^ 32

/-- The number of batches for which the node has come to the barrier. -/
def reached : ℕ := if cl.phase = .barrier then cl.batchNum + 1 else cl.batchNum

end SchedClient

/-- The nodes and the server; `inbox` are the requests that the server has not received. -/
structure SchedNet where
  server : SchedServer
  client : Peer → SchedClient
  inbox : Peer → List AllocReq

namespace SchedNet

def init : SchedNet := ⟨SchedServer.init, fun _ => SchedClient.init, fun _ => []⟩

inductive Action
  | updateAlloc (p : Peer)
  | onRequest (p : Peer) (now : ℕ)
  | recvResp (p : Peer)
  | waitSchedReady (p : Peer)
  | finish (p : Peer)
  | pass (p : Peer)
  deriving DecidableEq, Repr

/-- The node that takes a step or whose request is handled. -/
def Action.peer : Action → Peer
  | updateAlloc p | onRequest p _ | recvResp p | waitSchedReady p | finish p | pass p => p

variable (c : Tenancy) (s : SchedNet)

def setClient (p : Peer) (cl : SchedClient) : SchedNet :=
  { s with client := Function.update s.client p cl }

/-- A node reads words from its socket. -/
def setStream (p : Peer) (ws : List ℕ) : SchedNet :=
  { s with server := { s.server with stream := Function.update s.server.stream p ws } }

/-- `update_alloc` sends a request. -/
def updateAlloc (p : Peer) : Option SchedNet :=
  let cl := s.client p
  if cl.phase = .request then
    some { s.setClient p { cl with phase := .waitResp } with
      inbox := Function.update s.inbox p (s.inbox p ++ [cl.req c p.tenant]) }
  else none

/-- The server receives a request and handles it. -/
def onRequest (p : Peer) (now : ℕ) : Option SchedNet :=
  match s.inbox p with
  | [] => none
  | req :: reqs => (s.server.onRequest p req now).map fun server =>
    { s with server := server, inbox := Function.update s.inbox p reqs }

/-- `update_alloc` receives the response, which must be for the batch. -/
def recvResp (p : Peer) : Option SchedNet :=
  let cl := s.client p
  if cl.phase = .waitResp then
    match s.server.stream p with
    | batchNum :: allocedBlkId :: ws =>
      if batchNum = (cl.req c p.tenant).batchNum then
        some ((s.setStream p ws).setClient p
          { cl with
            phase := .waitReady, blockNum := allocedBlkId, got := cl.got ++ [allocedBlkId] })
      else none
    | _ => none
  else none

/-- `wait_sched_ready`. -/
def waitSchedReady (p : Peer) : Option SchedNet :=
  let cl := s.client p
  if cl.phase = .waitReady then
    match s.server.stream p with
    | _ :: ws => some ((s.setStream p ws).setClient p { cl with phase := .running })
    | [] => none
  else none

/-- A node comes to the barrier. -/
def finish (p : Peer) : Option SchedNet :=
  let cl := s.client p
  if cl.phase = .running then some (s.setClient p { cl with phase := .barrier }) else none

/-- A node passes the barrier, which all nodes of the tenant have reached. -/
def pass (p : Peer) : Option SchedNet :=
  let cl := s.client p
  if cl.phase = .barrier ∧
      ∀ n < c.numNodes p.tenant, cl.batchNum + 1 ≤ (s.client ⟨p.tenant, n⟩).reached then
    some (s.setClient p { cl with phase := .request, batchNum := cl.batchNum + 1 })
  else none

/-- One step of a node or of the server. -/
def step (a : Action) : Option SchedNet :=
  if c.IsPeer a.peer then
    match a with
    | .updateAlloc p => s.updateAlloc c p
    | .onRequest p now => s.onRequest p now
    | .recvResp p => s.recvResp c p
    | .waitSchedReady p => s.waitSchedReady p
    | .finish p => s.finish p
    | .pass p => s.pass c p
  else none

end SchedNet

end P4db
