import Mathlib.Algebra.Ring.Nat
import Mathlib.Tactic.Common

/-!
# Constants and basic types

The compile-time constants of `ee/defs.hpp` (with `IS_ORIG_MODE` undefined), the access modes and
transaction identifiers of `ee/types.hpp`, and the operations of `ee/args.hpp`.

Keys and frequencies are natural numbers.  Fixed-width fields whose width the program depends on
keep it: the two fields of a `TxnId` are bit vectors, and every narrowing cast is written out as a
remainder where it happens.
-/

namespace P4db

/-! ### Constants -/

/-- `N_OPS`: operations of a transaction. -/
def nOps : ℕ := 8
/-- `N_REGS`: register arrays of the switch. -/
def nRegs : ℕ := 72
/-- `N_SW_LOCKS`: lock bits of the switch. -/
def nSwLocks : ℕ := 32
/-- `SLOTS_PER_SCHED_BLOCK`: slots of every register array in one scheduler block. -/
def slotsPerSchedBlock : ℕ := 32
/-- `N_ACCEL_KEYS`: keys that fit in one scheduler block. -/
def nAccelKeys : ℕ := nRegs * slotsPerSchedBlock
/-- `HOT_TXN_PKT_BYTES` for one-pass packets on raw sockets. -/
def hotTxnPktBytes : ℕ := 180 + (nRegs - 20) * 5
/-- `BATCH_SIZE_TGT`: transactions of a batch, and the capacity of the hot send queue. -/
def batchSizeTgt : ℕ := 100000
/-- `MAX_PASSES_ACCEL`: passes through the switch of an accelerated transaction. -/
def maxPassesAccel : ℕ := 1
/-- `MAX_OPS_PASS2_ACCEL`. -/
def maxOpsPass2Accel : ℕ := 8

/-- `db_key_t`. -/
abbrev DbKey := ℕ

/-! ### Access modes -/

/-- `AccessMode`. -/
inductive AccessMode
  | invalid
  | read
  | write
  deriving DecidableEq, Repr, Inhabited

/-! ### Transaction identifiers -/

/-- `TxnId`: a node, a validity bit and a mini-batch, packed in 4 + 1 + 27 bits. -/
structure TxnId where
  nodeId : BitVec 4
  valid : Bool
  miniBatchId : BitVec 27
  deriving DecidableEq, Repr

namespace TxnId

/-- The constructor `TxnId(valid, node_id, mini_batch_id)`: both numbers are narrowed. -/
def ofFields (valid : Bool) (nodeId miniBatchId : ℕ) : TxnId :=
  ⟨BitVec.ofNat 4 nodeId, valid, BitVec.ofNat 27 miniBatchId⟩

/-- `get_packed`: the 32-bit representation, `node_id` in the low bits. -/
def getPacked (id : TxnId) : BitVec 32 :=
  (id.miniBatchId ++ BitVec.ofBool id.valid ++ id.nodeId).cast rfl

/-- The constructor `TxnId(packed)`. -/
def ofPacked (repr : BitVec 32) : TxnId :=
  ⟨repr.extractLsb' 0 4, repr.getLsbD 4, repr.extractLsb' 5 27⟩

/-- The default constructor: not valid, everything zero. -/
def default : TxnId := ofFields false 0 0

instance : Inhabited TxnId := ⟨default⟩

end TxnId

/-! ### Operations -/

/-- `LocationInfo`: the node that owns a key, and whether it is the asking node. -/
structure LocationInfo where
  isLocal : Bool
  target : ℕ
  deriving DecidableEq, Repr, Inhabited

/-- `Txn::OP`. -/
structure Op where
  id : DbKey
  locInfo : LocationInfo
  mode : AccessMode
  value : BitVec 32
  deriving DecidableEq, Repr, Inhabited

/-- `PartitionInfo` of `ee/partition.hpp`: the table is cut into `numNodes` ranges of equal size,
and node `i` owns the `i`-th.  A `node_t` stands here for the number it is read as. -/
structure PartitionInfo where
  totalSize : ℕ
  numNodes : ℕ
  myId : ℕ
  deriving DecidableEq, Repr

namespace PartitionInfo

/-- `partition_size`. -/
def partitionSize (p : PartitionInfo) : ℕ := p.totalSize / p.numNodes

/-- `location`; of the target only the 8 bits of the node are read, also by the comparison. -/
def location (p : PartitionInfo) (index : DbKey) : LocationInfo :=
  let target := index / p.partitionSize % 2 ^ 8
  ⟨decide (target = p.myId), target⟩

end PartitionInfo

end P4db
