import P4db.Layout.DeclusteredLayout
import P4db.Switch.Handle

/-!
# The scheduler of the switch

The event loop of `switch_src/01_control_plane/sched.cpp`.  Every node of every tenant has a socket
to the server.  A node asks for a block for a batch; all nodes of a tenant ask, the first request
for a batch frees the last block and allocates the next, and the others are answered from a cache.
When a tenant is ready and the server has answered all of its nodes, every node gets a ready
message.

A socket is named by the node at its other end.  What is sent on it is a sequence of 32-bit words:
`stream` are the words that the node has not read, while `sent` records all messages.  The other
fields that only record something are `calls`, the calls of `handle_alloc` and `handle_free` for a
tenant, and `rounds`, which counts how often a tenant was notified.  `tenant_info` holds an entry
with zeros for a tenant that is not in the map, since this is what the map creates.
-/

namespace P4db

/-- A node of a tenant, and the socket of the server that it is connected to. -/
structure Peer where
  tenant : ℕ
  node : ℕ
  deriving DecidableEq, Repr

/-- `alloc_req_t`. -/
structure AllocReq where
  startDelayNs : ℕ
  durationNs : ℕ
  blkToFree : ℕ
  tenantId : ℕ
  tenantNumNodes : ℕ
  batchNum : ℕ
  deriving DecidableEq, Repr

/-- `alloc_resp_t`. -/
structure AllocResp where
  batchNum : ℕ
  allocedBlkId : ℕ
  deriving DecidableEq, Repr

/-- `tenant_info_t`. -/
structure TenantInfo where
  cached : AllocResp
  nCachedUses : ℕ
  expectedNFds : ℕ
  sockFds : List Peer
  deriving DecidableEq, Repr

/-- The two messages of the server: `alloc_resp_t` and `alloc_ready_msg_t`. -/
inductive SchedMsg
  | resp (r : AllocResp)
  | ready (dummy : ℕ)
  deriving DecidableEq, Repr

namespace SchedMsg

/-- A message on the wire. -/
def words : SchedMsg → List ℕ
  | resp r => [r.batchNum, r.allocedBlkId]
  | ready dummy => [dummy]

def resp? : SchedMsg → Option AllocResp
  | resp r => some r
  | ready _ => none

end SchedMsg

inductive HandleCall
  | alloc (blk : ℕ)
  | free (blk : ℕ)
  deriving DecidableEq, Repr

def HandleCall.alloc? : HandleCall → Option ℕ
  | alloc blk => some blk
  | free _ => none

structure SchedServer where
  handle : Handle
  tenantInfo : ℕ → TenantInfo
  stream : Peer → List ℕ
  sent : Peer → List SchedMsg
  calls : ℕ → List HandleCall
  rounds : ℕ → ℕ

namespace SchedServer

def init : SchedServer where
  handle := Handle.init
  tenantInfo _ := ⟨⟨0, 0⟩, 0, 0, []⟩
  stream _ := []
  sent _ := []
  calls _ := []
  rounds _ := 0

variable (s : SchedServer)

/-- The blocks that were allocated for a tenant, one for every batch. -/
def blocks (t : ℕ) : List ℕ := (s.calls t).filterMap HandleCall.alloc?

/-- `send`. -/
def send (fd : Peer) (m : SchedMsg) : SchedServer :=
  { s with
    stream := Function.update s.stream fd (s.stream fd ++ m.words)
    sent := Function.update s.sent fd (s.sent fd ++ [m]) }

def setInfo (t : ℕ) (info : TenantInfo) : SchedServer :=
  { s with tenantInfo := Function.update s.tenantInfo t info }

def call (t : ℕ) (c : HandleCall) (handle : Handle) : SchedServer :=
  { s with handle := handle, calls := Function.update s.calls t (s.calls t ++ [c]) }

/-- A socket joins its tenant. -/
def register (fd : Peer) (req : AllocReq) : SchedServer :=
  let info := s.tenantInfo req.tenantId
  s.setInfo req.tenantId
    { info with sockFds := info.sockFds.insert fd, expectedNFds := req.tenantNumNodes }

/-- The block of the last batch is freed, if there is one. -/
def freeLast (req : AllocReq) : Option SchedServer :=
  if req.blkToFree ≠ noBlock then
    (s.handle.handleFree req.tenantId req.blkToFree).map
      (s.call req.tenantId (.free req.blkToFree))
  else some s

/-- A block for a new batch is allocated at the time `now`. -/
def allocNext (req : AllocReq) (now : ℕ) : Option SchedServer :=
  (s.handle.handleAlloc req.tenantId req.startDelayNs req.durationNs now).map fun r =>
    let s := s.call req.tenantId (.alloc r.1) r.2
    s.setInfo req.tenantId
      { s.tenantInfo req.tenantId with cached := ⟨req.batchNum, r.1⟩, nCachedUses := 0 }

/-- The cache is brought to the batch of the request. -/
def updateCached (req : AllocReq) (now : ℕ) : Option SchedServer :=
  if (s.tenantInfo req.tenantId).cached.batchNum ≠ req.batchNum then
    (s.freeLast req).bind fun s => s.allocNext req now
  else some s

/-- The cached response is sent. -/
def respond (fd : Peer) (req : AllocReq) : SchedServer :=
  let info := s.tenantInfo req.tenantId
  (s.setInfo req.tenantId { info with nCachedUses := info.nCachedUses + 1 }).send fd
  (.resp info.cached)

/-- Tell the nodes of a tenant in the ready set, if they have all been answered; `dummy` is the word
that is left at the start of `buf`. -/
def notifyTenant (dummy : ℕ) (s : SchedServer) (t : ℕ) : SchedServer :=
  let info := s.tenantInfo t
  if info.sockFds.length = info.expectedNFds ∧ info.nCachedUses = info.expectedNFds then
    let s := info.sockFds.foldl (fun s fd => s.send fd (.ready dummy)) s
    { s with
      handle := s.handle.eraseReady t
      rounds := Function.update s.rounds t (s.rounds t + 1) }
  else s

/-- After a response the ready tenants are notified, if all nodes of the tenant are connected. -/
def notifyReady (req : AllocReq) : SchedServer :=
  let info := s.tenantInfo req.tenantId
  if info.expectedNFds = info.sockFds.length then
    s.handle.toNotify.foldl (notifyTenant info.cached.batchNum) s
  else s

/-- One iteration of the event loop, which received `req` from `fd`; `none` if an assertion
fails. -/
def onRequest (fd : Peer) (req : AllocReq) (now : ℕ) : Option SchedServer :=
  ((s.register fd req).updateCached req now).map fun s => (s.respond fd req).notifyReady req

end SchedServer

end P4db
