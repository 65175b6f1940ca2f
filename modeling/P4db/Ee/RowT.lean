import P4db.Ee.Row

/-!
# The row template

`Row<Tuple_t>` of `ee/row.hpp` for any type of tuples, with its counter of 32 bits.  The rows of the
executor, `Row`, hold the value of a key and count their owners without a bound; they are what is
left of a row here as long as the counter does not wrap around.

The second half is one row under any sequence of calls.  A party that was granted a lock is a holder
until it releases the lock, once and with the mode that it got.  Everything happens under the mutex
of the row, except for two things.  The first test of `local_lock` looks at the row before the mutex
is taken, so it may find a lock that is gone or miss one that has come; what it finds is a parameter
of the call.  A holder in mode `WRITE` overwrites the tuple without the mutex: on the node of the
row through the pointer in its future, from another node when `remote_unlock` copies the tuple of
the request.
-/

namespace P4db

/-- `Row<Tuple_t>`. -/
structure RowT (α : Type*) where
  lockType : AccessMode
  ownerCnt : UInt32
  tuple : α
  lastAcq : TxnId
  deriving DecidableEq, Repr

namespace RowT

variable {α : Type*}

/-- A row that is not locked.  The constructor sets `last_acq` to `TxnId(true, 0, 0)`. -/
def unlocked (tuple : α) (lastAcq : TxnId) : RowT α := ⟨.invalid, 0, tuple, lastAcq⟩

/-- `mb_allow_lock`; `none` is the failed assertion. -/
def mbAllowLock (row : RowT α) (txnId : TxnId) : Option Bool :=
  if txnId.valid then
    if row.lastAcq.miniBatchId ≤ txnId.miniBatchId then
      some !(txnId.miniBatchId = row.lastAcq.miniBatchId && txnId.nodeId ≠ row.lastAcq.nodeId)
    else none
  else some true

/-- `is_compatible`. -/
def isCompatible (row : RowT α) (mode : AccessMode) : Bool :=
  if row.lockType = .invalid then true
  else if row.lockType = .write ∨ mode = .write then false
  else true

/-- What `local_lock` and `remote_lock` do under the mutex: whether the lock is granted, and the
row. -/
def acquire (row : RowT α) (mode : AccessMode) (txnId : TxnId) : Option (Bool × RowT α) :=
  (row.mbAllowLock txnId).map fun allowLock =>
    if !row.isCompatible mode || !allowLock then (false, row)
    else (true, { row with ownerCnt := row.ownerCnt + 1, lockType := mode })

/-- `local_lock`: the code, the row and `future->last_acq`, which is the identifier of the
transaction before.  The test before the mutex has found the mode `compatible` or not. -/
def localLock (row : RowT α) (mode : AccessMode) (compatible : Bool) (lastAcq : TxnId) :
    Option (ErrorCode × RowT α × TxnId) :=
  if !compatible then some (Row.lockFailed mode, row, lastAcq)
  else (row.acquire mode lastAcq).map fun r =>
    if r.1 then (.success, r.2, row.lastAcq) else (Row.lockFailed mode, r.2, lastAcq)

/-- `remote_lock`: the row, and the mode of the response with `last_acq_pack` and the tuple, which
are left out if the mode is `INVALID`. -/
def remoteLock (row : RowT α) (mode : AccessMode) (mePack : BitVec 32) :
    Option (RowT α × AccessMode × Option (BitVec 32 × α)) :=
  (row.acquire mode (TxnId.ofPacked mePack)).map fun r =>
    if r.1 then (r.2, mode, some (row.lastAcq.getPacked, row.tuple)) else (r.2, .invalid, none)

/-- `local_unlock`. -/
def localUnlock (row : RowT α) (mode : AccessMode) (id : TxnId) : ErrorCode × RowT α :=
  let row := { row with lastAcq := id }
  if row.lockType ≠ mode then (.invalidAccessMode, row)
  else
    let row := { row with ownerCnt := row.ownerCnt - 1 }
    if row.ownerCnt > 0 then (.success, row) else (.success, { row with lockType := .invalid })

/-- `remote_unlock`, with the code that it ignores. -/
def remoteUnlock (row : RowT α) (mode : AccessMode) (tuple : α) (lastAcqPack : BitVec 32) :
    ErrorCode × RowT α :=
  let row := if mode = .write then { row with tuple := tuple } else row
  row.localUnlock mode (TxnId.ofPacked lastAcqPack)

/-- The row as the executor sees it: `value` is what it reads of a tuple. -/
def toRow (value : α → BitVec 32) (row : RowT α) : Row :=
  ⟨row.lockType, row.ownerCnt.toNat, value row.tuple, row.lastAcq⟩

/-! ### Calls in any order -/

/-- The row and the modes of its holders. -/
structure State (α : Type*) where
  row : RowT α
  holders : List AccessMode
  deriving DecidableEq, Repr

/-- An attempt to lock the row, a write to the tuple by the `i`-th holder, or the release of its
lock. -/
inductive Action (α : Type*)
  | localLock (mode : AccessMode) (compatible : Bool) (id : TxnId)
  | remoteLock (mode : AccessMode) (mePack : BitVec 32)
  | write (i : ℕ) (tuple : α)
  | localUnlock (i : ℕ) (id : TxnId)
  | remoteUnlock (i : ℕ) (tuple : α) (lastAcqPack : BitVec 32)
  deriving DecidableEq, Repr

/-- The holders after an attempt. -/
def State.attempted (s : State α) (mode : AccessMode) (granted : Bool) (row : RowT α) : State α :=
  ⟨row, if granted then mode :: s.holders else s.holders⟩

/-- One step; a failed assertion ends the run. -/
def step (s : State α) : Action α → Option (State α)
  | .localLock mode compatible id =>
    if mode = .invalid then none
    else (s.row.localLock mode compatible id).map fun r => s.attempted mode (r.1 = .success) r.2.1
  | .remoteLock mode mePack =>
    if mode = .invalid then none
    else (s.row.remoteLock mode mePack).map fun r => s.attempted mode (r.2.1 ≠ .invalid) r.1
  | .write i tuple =>
    if s.holders[i]? = some .write then some { s with row := { s.row with tuple := tuple } }
      else none
  | .localUnlock i id =>
    s.holders[i]?.map fun mode => ⟨(s.row.localUnlock mode id).2, s.holders.eraseIdx i⟩
  | .remoteUnlock i tuple lastAcqPack =>
    s.holders[i]?.map fun mode =>
      ⟨(s.row.remoteUnlock mode tuple lastAcqPack).2, s.holders.eraseIdx i⟩

end RowT

end P4db
