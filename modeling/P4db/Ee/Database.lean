import Mathlib.Logic.Function.Basic
import P4db.Defs

/-!
# The hot send queue

`hot_send_q_t` of `ee/database.hpp`: an array of entries with an atomic tail, and a
`LockedStackPool` for the packet buffers.  `alloc_slot` claims a buffer and the next entry;
`done_sending` resets both counters and leaves the contents of the array where they are.  The array
is not initialised when the queue is constructed, so its contents are part of the state.

`HotSendQ.allocSlot` is a call as a whole.  `SharedSendQ` has the two atomic additions of a call as
steps of their own, which several threads may interleave.
-/

namespace P4db

/-- `hot_txn_entry_t`: the transaction, its mini-batch and its packet, as offset and length in the
buffer pool. -/
structure HotTxnEntry (τ : Type) where
  txn : τ
  miniBatchNum : ℕ
  iovBase : ℕ
  iovLen : ℕ
  deriving DecidableEq, Repr

/-- `hot_send_q_t`; `bufSize` is the fill of the buffer pool. -/
structure HotSendQ (τ : Type) where
  sendQ : ℕ → HotTxnEntry τ
  sendQTail : ℕ
  sendQCapacity : ℕ
  bufSize : ℕ

namespace HotSendQ

variable {τ : Type}

/-- `alloc_slot`: `none` is the failed assertion of `LockedStackPool::allocate`. -/
def allocSlot (q : HotSendQ τ) (mbNum : ℕ) (txn : τ) : Option (HotSendQ τ) :=
  if q.bufSize + hotTxnPktBytes < q.sendQCapacity * hotTxnPktBytes then
    some { q with
      sendQ := Function.update q.sendQ q.sendQTail ⟨txn, mbNum, q.bufSize, hotTxnPktBytes⟩
      sendQTail := q.sendQTail + 1
      bufSize := q.bufSize + hotTxnPktBytes }
  else none

/-- `done_sending`. -/
def doneSending (q : HotSendQ τ) : HotSendQ τ := { q with bufSize := 0, sendQTail := 0 }

/-- A sequence of `alloc_slot` calls. -/
def allocSlots (q : HotSendQ τ) : List (ℕ × τ) → Option (HotSendQ τ)
  | [] => some q
  | e :: es => (q.allocSlot e.1 e.2).bind fun q' => q'.allocSlots es

end HotSendQ

/-! ### Claims by several threads -/

/-- Where a thread is in `alloc_slot`: outside, between `allocate` and the claim of an entry, before
the entry is filled, or at the failed assertion of `allocate`. -/
inductive AllocPhase (τ : Type)
  | idle
  | allocated (mbNum : ℕ) (txn : τ) (buf : ℕ)
  | claimed (mbNum : ℕ) (txn : τ) (buf idx : ℕ)
  | failed
  deriving DecidableEq

/-- The queue and its threads.  `bufs` and `idxs` are the buffers and the entries that the two
counters have handed out, `filled` the entries that were filled, with their indices. -/
structure SharedSendQ (τ : Type) where
  q : HotSendQ τ
  phase : ℕ → AllocPhase τ
  bufs : List ℕ
  idxs : List ℕ
  filled : List (HotTxnEntry τ × ℕ)

/-- A step of `alloc_slot`. -/
inductive AllocStep (τ : Type)
  | allocate (t mbNum : ℕ) (txn : τ)
  | claim (t : ℕ)
  | fill (t : ℕ)

namespace SharedSendQ

variable {τ : Type}

/-- After `done_sending`. -/
def init (q : HotSendQ τ) : SharedSendQ τ := ⟨q.doneSending, fun _ => .idle, [], [], []⟩

/-- `buf_pool.capacity`. -/
def poolCapacity (s : SharedSendQ τ) : ℕ := s.q.sendQCapacity * hotTxnPktBytes % 2 ^ 64

/-- `LockedStackPool::allocate`. -/
def allocate (s : SharedSendQ τ) (t mbNum : ℕ) (txn : τ) : SharedSendQ τ :=
  let curSize := s.q.bufSize
  let ok := decide ((curSize + hotTxnPktBytes) % 2 ^ 64 < s.poolCapacity)
  { s with
    q := { s.q with bufSize := (curSize + hotTxnPktBytes) % 2 ^ 64 }
    phase := Function.update s.phase t (if ok then .allocated mbNum txn curSize else .failed)
    bufs := s.bufs ++ [curSize] }

/-- The claim of the next entry. -/
def claim (s : SharedSendQ τ) (t mbNum : ℕ) (txn : τ) (buf : ℕ) : SharedSendQ τ :=
  { s with
    q := { s.q with sendQTail := (s.q.sendQTail + 1) % 2 ^ 32 }
    phase := Function.update s.phase t (.claimed mbNum txn buf s.q.sendQTail)
    idxs := s.idxs ++ [s.q.sendQTail] }

/-- The assignments to the entry. -/
def fill (s : SharedSendQ τ) (t mbNum : ℕ) (txn : τ) (buf idx : ℕ) : SharedSendQ τ :=
  let entry : HotTxnEntry τ := ⟨txn, mbNum, buf, hotTxnPktBytes⟩
  { s with
    q := { s.q with sendQ := Function.update s.q.sendQ idx entry }
    phase := Function.update s.phase t .idle
    filled := s.filled ++ [(entry, idx)] }

/-- One step of one thread; `none` if the thread is not there. -/
def step (s : SharedSendQ τ) : AllocStep τ → Option (SharedSendQ τ)
  | .allocate t mbNum txn =>
    match s.phase t with
    | .idle => some (s.allocate t mbNum txn)
    | _ => none
  | .claim t =>
    match s.phase t with
    | .allocated mbNum txn buf => some (s.claim t mbNum txn buf)
    | _ => none
  | .fill t =>
    match s.phase t with
    | .claimed mbNum txn buf idx => some (s.fill t mbNum txn buf idx)
    | _ => none

end SharedSendQ

end P4db
