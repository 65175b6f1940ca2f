import P4db.Algorithm.Transition
import P4db.Defs

/-!
# Rows

`Row` of `ee/row.hpp`: a value, a lock in shared or exclusive mode with the number of its owners,
and the stamp `last_acq` of the transaction that last released the row.  A lock is granted when the
mode is compatible and `mb_allow_lock` lets the transaction pass: within a mini-batch a row stays
with one node.  A release overwrites the stamp, with the identifier of a transaction that commits or
with the stamp it found when it rolls back.

The second half is one row under a schedule of transactions, mini-batch after mini-batch.
-/

namespace P4db

/-- `ErrorCode`, as far as rows and tables use it. -/
inductive ErrorCode
  | success
  | readLockFailed
  | writeLockFailed
  | invalidRowId
  | invalidAccessMode
  deriving DecidableEq, Repr

/-- `Row`; the tuple is the value of the key. -/
structure Row where
  lockType : AccessMode
  ownerCnt : ℕ
  tuple : BitVec 32
  lastAcq : TxnId
  deriving DecidableEq, Repr

namespace Row

/-- An unlocked row; `last_acq` starts as `TxnId(true, 0, 0)`. -/
def init (value : BitVec 32) : Row := ⟨.invalid, 0, value, TxnId.ofFields true 0 0⟩

/-- `mb_allow_lock`; `none` is the failed assertion. -/
def mbAllowLock (row : Row) (txnId : TxnId) : Option Bool :=
  if txnId.valid then
    if row.lastAcq.miniBatchId ≤ txnId.miniBatchId then
      some !(txnId.miniBatchId = row.lastAcq.miniBatchId && txnId.nodeId ≠ row.lastAcq.nodeId)
    else none
  else some true

/-- `is_compatible`. -/
def isCompatible (row : Row) (mode : AccessMode) : Bool :=
  if row.lockType = .invalid then true
  else if row.lockType = .write ∨ mode = .write then false
  else true

/-- The code of a lock that was not granted. -/
def lockFailed : AccessMode → ErrorCode
  | .read => .readLockFailed
  | .write => .writeLockFailed
  | .invalid => .invalidAccessMode

/-- What `local_lock` and `remote_lock` do under the mutex: `none` is the failed assertion,
`some none` a refusal. -/
def acquire (row : Row) (mode : AccessMode) (txnId : TxnId) : Option (Option Row) := do
  let allowLock ← row.mbAllowLock txnId
  if !row.isCompatible mode || !allowLock then some none
  else some (some { row with ownerCnt := row.ownerCnt + 1, lockType := mode })

/-- The test `local_lock` makes before it takes the mutex. -/
def earlyAbort (row : Row) (mode : AccessMode) : Option ErrorCode :=
  if row.isCompatible mode then none else some (lockFailed mode)

/-- `local_lock` under the mutex: the row and the stamp that goes into the future. -/
def localLock (row : Row) (mode : AccessMode) (txnId : TxnId) :
    Option (Except ErrorCode (Row × TxnId)) :=
  (row.acquire mode txnId).map fun
    | none => .error (lockFailed mode)
    | some row' => .ok (row', row.lastAcq)

/-- `remote_lock`: the row and the contents of the response, `last_acq_pack` and the tuple; the
response of a refusal has the mode `INVALID` (`none`). -/
def remoteLock (row : Row) (mode : AccessMode) (mePack : BitVec 32) :
    Option (Row × Option (BitVec 32 × BitVec 32)) :=
  (row.acquire mode (TxnId.ofPacked mePack)).map fun
    | none => (row, none)
    | some row' => (row', some (row.lastAcq.getPacked, row.tuple))

/-- `local_unlock`. -/
def localUnlock (row : Row) (mode : AccessMode) (id : TxnId) : ErrorCode × Row :=
  let row := { row with lastAcq := id }
  if row.lockType ≠ mode then (.invalidAccessMode, row)
  else if row.ownerCnt - 1 > 0 then (.success, { row with ownerCnt := row.ownerCnt - 1 })
  else (.success, { row with ownerCnt := row.ownerCnt - 1, lockType := .invalid })

/-- `remote_unlock`.  The copy happens before the mutex is taken; the releasing writer is the only
owner, so nobody looks in between. -/
def remoteUnlock (row : Row) (mode : AccessMode) (tuple lastAcqPack : BitVec 32) : Row :=
  let row := if mode = .write then { row with tuple := tuple } else row
  (row.localUnlock mode (TxnId.ofPacked lastAcqPack)).2

end Row

/-! ### One row under a schedule -/

namespace MiniBatch

/-- A lock on the row: the attempt it belongs to, the identifier of the transaction, the mode and
the stamp found at acquisition. -/
structure Holder where
  attempt : ℕ
  id : TxnId
  mode : AccessMode
  seen : TxnId
  deriving DecidableEq, Repr

/-- The row, the locks on it, the mini-batch that is running, and the committed transactions with
the mode they held the row in. -/
structure State where
  row : Row
  holders : List Holder
  cur : BitVec 27
  committed : List (TxnId × AccessMode)
  deriving DecidableEq, Repr

/-- The row unlocked, in the first mini-batch. -/
def init (value : BitVec 32) : State := ⟨Row.init value, [], 1, []⟩

/-- A lock attempt by a transaction of the running mini-batch on some node, a commit or rollback by
a lock holder, and the change to the next mini-batch. -/
inductive Action
  | lock (attempt : ℕ) (node : BitVec 4) (mode : AccessMode)
  | commit (attempt : ℕ)
  | rollback (attempt : ℕ)
  | advance
  deriving DecidableEq, Repr

/-- The lock of an attempt. -/
def State.holder (s : State) (attempt : ℕ) : Option Holder :=
  s.holders.find? fun h => h.attempt = attempt

/-- The row after the release of a lock with a stamp. -/
def State.release (s : State) (h : Holder) (stamp : TxnId) : State :=
  { s with row := (s.row.localUnlock h.mode stamp).2, holders := s.holders.erase h }

/-- One step.  A refused lock changes nothing; a failed assertion ends the run. -/
def step (s : State) : Action → Option State
  | .lock attempt node mode =>
    if mode = .invalid ∨ (s.holder attempt).isSome then none
    else
      let id : TxnId := ⟨node, true, s.cur⟩
      (s.row.localLock mode id).map fun
        | .error _ => s
        | .ok (row, seen) =>
          { s with row := row, holders := ⟨attempt, id, mode, seen⟩ :: s.holders }
  | .commit attempt => (s.holder attempt).map fun h =>
    { s.release h h.id with committed := (h.id, h.mode) :: s.committed }
  | .rollback attempt => (s.holder attempt).map fun h => s.release h h.seen
  | .advance =>
    if s.holders = [] ∧ s.cur.toNat + 1 < 2 ^ 27 then some { s with cur := s.cur + 1 } else none

end MiniBatch

end P4db
